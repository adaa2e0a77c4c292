import Hsmc.Link.MeansCalls
import Hsmc.Safety.Durings
import Hsmc.Safety.Meaning

/-
  Scripts go as their chart is written.

  The reference interpreter performs a script of public calls with the answers that the machine
  gives, and shows what the machine shows after it (`runs_as_written`). For `run()` this needs
  that the races poll the durings that the declarations say (`Accepted.pollsAlike`).
-/

namespace Hsmc

open Machine

variable {Ev Ctx Val : Type} {qn : Nat} {input : StatechartInput} {c : Chart} {ir : Ir}
  {u : UserCode Ev Ctx Val} {name : Ident} {items : List Item}

/-! ## What the races poll -/

/-- A state is skipped when it is the root or declares children and a default. -/
theorem Accepted.skipped_iff (ha : Accepted input c ir) {s : Nat} (hs : s < c.nStates) :
    Skipped ir s ↔ ((input.declAt s).children ≠ [] ∧
      (input.declAt s).body.defaultChild.isSome = true) ∨ ha.sound.tree.up s = [s] := by
  obtain ⟨p, x, -, hx, hdecl, hr⟩ := ha.placed hs
  have hkids : x.children ≠ [] ↔ p.decl.children ≠ [] := by
    rw [← List.length_pos_iff, ← List.length_pos_iff, hr.children]
  have hdefault : x.defaultChild.isSome = p.decl.body.defaultChild.isSome := by
    have hd := hr.default_
    cases hx : p.decl.body.defaultChild with
    | none =>
        rw [hx] at hd
        rw [hd]
        rfl
    | some y =>
        rw [hx] at hd
        obtain ⟨t, -, ht⟩ := hd
        rw [ht]
        rfl
  have hw := ha.wf
  let T := hw.tree.stateTree hw.nonempty
  have hparent : x.parent = none ↔ ha.sound.tree.up s = [s] := by
    have hp : parentOf ir.states s = x.parent := by
      unfold parentOf
      rw [hx]
      rfl
    show x.parent = none ↔ T.tree.up s = [s]
    cases hpar : x.parent with
    | none => simp [T.tree.up_of_root (hp.trans hpar)]
    | some q => simp [T.tree.up_of_parent (hp.trans hpar)]
  unfold Skipped
  rw [hdecl, ← hparent, ← hkids, ← hdefault]
  simp [hx]

theorem Accepted.declaredDurings_eq (ha : Accepted input c ir) {s : Nat} (hs : s < c.nStates) :
    declaredDurings ir s = (input.declAt s).body.durings := by
  obtain ⟨p, x, -, hx, hdecl, hr⟩ := ha.placed hs
  unfold declaredDurings
  rw [hx, hdecl, ← hr.durings]
  rfl

/-- The durings polled are those of the active states, or none on a skipped state. -/
theorem Accepted.polled_eq (ha : Accepted input c ir) {s : Nat} (hs : s < c.nStates)
    {g : Config Ev Ctx qn} (hactive : g.active = (ha.sound.tree.up s).map input.declAt) :
    (Skipped ir s → g.polled = []) ∧ (¬ Skipped ir s → g.polled = pathDurings c ir s) := by
  rw [ha.skipped_iff hs]
  obtain ⟨above, habove⟩ := ha.sound.tree.up_eq_cons s
  have hpath : pathDurings c ir s =
      (s :: above).flatMap fun s => (input.declAt s).body.durings := by
    unfold pathDurings
    rw [ha.sound.pathToRoot_eq hs, habove]
    refine List.flatMap_congr fun x hx => ha.declaredDurings_eq ?_
    exact ha.sound.up_lt hs (habove ▸ hx)
  rw [habove] at hactive ⊢
  unfold Config.polled
  rw [hactive, hpath]
  cases above with
  | nil => exact ⟨fun _ => rfl, fun h => absurd (.inr rfl) h⟩
  | cons q above =>
      have hcomposite : (!(input.declAt s).children.isEmpty &&
          (input.declAt s).body.defaultChild.isSome) = true ↔
          (input.declAt s).children ≠ [] ∧ (input.declAt s).body.defaultChild.isSome = true := by
        simp
      rw [← hcomposite]
      refine ⟨fun h => ?_, fun h => ?_⟩
      · rcases h with h | h
        · exact if_pos h
        · cases h
      · rw [not_or] at h
        simp only [List.map_cons, if_neg h.1, List.flatMap_cons, List.flatMap_map]

theorem Accepted.pollsAlike (ha : Accepted input c ir)
    (hp : parseStatechart name items = .ok input) (hreg : input.Regular ir)
    (hu : ∀ t ∈ input.allTimers, u.duration t.1 < 2 ^ 64) :
    PollsAlike (ha.glossary hp hreg hu) qn := by
  intro m g h
  have hactive := h.means.active
  cases hcur : m.current with
  | none =>
      rw [hcur] at hactive
      unfold Config.polled
      rw [hactive]
      exact ⟨rfl, rfl⟩
  | some s =>
      have hs := h.valid.current_lt s hcur
      have hpath : c.activePath (some s) = ha.sound.tree.up s := ha.sound.pathToRoot_eq hs
      rw [hcur, hpath] at hactive
      obtain ⟨hskipped, hpolled⟩ := ha.polled_eq hs hactive
      obtain ⟨hnone, harm⟩ := raceArm_spec ha hs
      simp only [Chart.hasActiveDuring, Chart.raceDurings, Chart.arm]
      by_cases hskip : Skipped ir s
      · rw [hnone hskip, hskipped hskip]
        exact ⟨rfl, rfl⟩
      · rw [harm hskip, hpolled hskip]
        cases pathDurings c ir s <;> exact ⟨rfl, rfl⟩

/-! ## Scripts -/

/-- The lamp is switched on, waits, and goes off in a `run()` that is told to stop. -/
def lampScript : List (Call Ident Nat) :=
  [.dispatch 4 "Toggle", .step 20, .contextMut (· + 1), .takeOverflow,
    .run (tokio true) 0 [⟨id, .timer, 40⟩, ⟨id, .event "Stop", 60⟩, ⟨id, .timer, 70⟩],
    .send "Toggle"]

theorem lampScript_inRange : ∀ call ∈ lampScript, call.InRange := by
  simp [lampScript, Call.InRange, tokio]

theorem lampScript_isOk : (performAll lampChart countCode lampScript
    (.new 0 : ChartMachine lampChart Ident Nat 4)).isOk = true := by
  decide +kernel

example : (Except.get _ lampScript_isOk).1 =
    [.result (.ok ()), .next (some 30), .done, .overflow false, .result (.ok ()),
      .result (.error .alreadyTerminated)] := by
  decide +kernel

end Hsmc
