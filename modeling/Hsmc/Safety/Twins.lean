import Hsmc.Link.Twins

/-
  What a run does not depend on.

  * `capacity_only_refuses`: a larger queue changes nothing in a script that meets no refusal.
  * `journal_in_pieces`: the journal is only written, so taking or clearing it between the calls
    changes nothing but the journal, and the pieces make up the journal that nobody took.
-/

namespace Hsmc

open Machine

variable {Ev Ctx Val : Type} {qn qn' tn : Nat}

/-- A script in which no call answers that the queue is full and no emit is refused goes the
    same with any larger queue: the answers are the same, and so is the machine, the capacity of
    its queue apart. -/
theorem capacity_only_refuses (c : Chart) (u : UserCode Ev Ctx Val) (hpos : 0 < qn)
    (hle : qn ≤ qn') {calls : List (Call Ev Ctx)} {ctx : Ctx} {answers : List Answer}
    {m : ChartMachine c Ev Ctx qn} (h : performAll c u calls (.new ctx) = .ok (answers, m))
    (hfull : .result (.error .queueFull) ∉ answers) (hgranted : ¬ Refused m.journal) :
    ∃ m' : ChartMachine c Ev Ctx qn',
      performAll c u calls (.new ctx) = .ok (answers, m') ∧ Twin [] m m' := by
  have hstart : Twin [] (.new ctx : ChartMachine c Ev Ctx qn)
      (.new ctx : ChartMachine c Ev Ctx qn') := twin_new ctx
  have hcalls := performAll_twin (c := c) (u := u) hle (fun _ => hpos) calls hstart
  rw [h] at hcalls
  rcases hcalls.of_ok with (he | hr) | ⟨⟨_, m'⟩, hm', rfl, htwin⟩
  · exact absurd he hfull
  · exact absurd hr hgranted
  · exact ⟨m', hm', htwin⟩

def lampCalls : List (Call Ident Nat) :=
  [.dispatch 4 "Toggle", .step 20, .send "Toggle", .takeOverflow, .step 40]

theorem lampCalls_isOk : (performAll lampChart countCode lampCalls
    (.new 0 : ChartMachine lampChart Ident Nat 1)).isOk = true := by
  decide +kernel

theorem capacity_only_refuses_lamp : ∃ m' : ChartMachine lampChart Ident Nat 8,
    performAll lampChart countCode lampCalls (.new 0) =
      .ok ((Except.get _ lampCalls_isOk).1, m') ∧
    Twin [] (Except.get _ lampCalls_isOk).2 m' :=
  capacity_only_refuses lampChart countCode (by decide) (by decide)
    (Except.eq_ok_get _ lampCalls_isOk) (by decide +kernel) (by decide +kernel)

/-- Calls on the journal between the other calls change nothing but the journal, and what they
    removed, with what is left, is the journal of the calls alone. -/
theorem journal_in_pieces (c : Chart) (u : UserCode Ev Ctx Val) :
    ∀ (entries : List (Entry Ev Ctx)) (m : Machine Ev Ctx qn tn),
    Except.Rel (fun a b => b = (a.1, { a.2.2 with journal := a.2.1 ++ a.2.2.journal }))
      (performEntries c u entries m) (performAll c u (callsOf entries) m)
  | [], m => .ok rfl
  | .call call :: entries, m => by
      refine (Except.Rel.refl _).bind ?_
      rintro ⟨answer, m₁⟩ _ rfl
      refine (journal_in_pieces c u entries m₁).bind ?_
      rintro ⟨answers, removed, m₂⟩ _ rfl
      exact .ok rfl
  | .takeJournal :: entries, m | .clearJournal :: entries, m => by
      have hcalls := (performAll_twin (c := c) (u := u) le_rfl (absurd · (lt_irrefl qn))
        (callsOf entries) (twin_clearJournal m)).rel (lt_irrefl qn)
      have h := (journal_in_pieces c u entries m.clearJournal).trans hcalls (P := fun a b =>
        b = (a.1, { a.2.2 with journal := m.journal ++ a.2.1 ++ a.2.2.journal })) ?_
      · show Except.Rel _ (performEntries c u entries m.clearJournal >>= fun p =>
          .ok (p.1, m.journal ++ p.2.1, p.2.2)) (performAll c u (callsOf entries) m)
        rw [← bind_pure (performAll c u (callsOf entries) m)]
        refine h.bind ?_
        rintro ⟨answers, removed, m₁⟩ _ rfl
        exact .ok rfl
      · rintro ⟨answers, removed, m₁⟩ _ ⟨answers', m₂⟩ rfl ⟨he, htwin⟩
        have hm₂ := htwin.eq
        simp only at he hm₂ ⊢
        rw [he, hm₂, List.append_assoc]

end Hsmc
