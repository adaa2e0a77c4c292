import Hsmc.Link.Emits

/-
  The exits of the shutdown, when their emits are granted and when they are not.

  As long as no emit is refused, a machine runs its exit actions as `grantedActions` does. So
  the shutdown has an emit refused exactly when the granted emits are more than the queue has
  room for (`exits_emitFails_iff`), and emits nothing exactly when there are none
  (`exits_emits_eq_nil_iff`).
-/

namespace Hsmc

open Machine

variable {Ev Ctx Val : Type} {qn tn : Nat} {c : Chart} {u : UserCode Ev Ctx Val}

/-- The log of emits so far against those that would be granted: it is a part of them, all of
    them until one is refused, and fewer from then on. -/
structure Follows (evs : List Ev) (log : List (Ev × Except HsmcError Unit)) : Prop where
  granted : ¬ EmitFails log → accepted log = evs
  refused : EmitFails log → (accepted log).length < evs.length

theorem accepted_append (log log' : List (Ev × Except HsmcError Unit)) :
    accepted (log ++ log') = accepted log ++ accepted log' :=
  List.filterMap_append

theorem emitFails_append {log log' : List (Ev × Except HsmcError Unit)} :
    EmitFails (log ++ log') ↔ EmitFails log ∨ EmitFails log' := by
  unfold EmitFails
  simp only [List.mem_append, or_and_right, exists_or]

theorem emitFails_singleton {ev : Ev} {result : Except HsmcError Unit} :
    EmitFails [(ev, result)] ↔ result = .error .queueFull := by
  simp [EmitFails]

namespace Follows

variable {evs : List Ev} {log : List (Ev × Except HsmcError Unit)} {ev : Ev}

theorem nil : Follows ([] : List Ev) [] := ⟨fun _ => rfl, fun ⟨_, he, _⟩ => nomatch he⟩

theorem accept (h : Follows evs log) (hok : ¬ EmitFails log) :
    Follows (evs ++ [ev]) (log ++ [(ev, .ok ())]) := by
  constructor
  · intro _
    rw [accepted_append, h.granted hok]
    rfl
  · intro hfails
    rw [emitFails_append, emitFails_singleton] at hfails
    rcases hfails with hfails | hfails
    · exact absurd hfails hok
    · cases hfails

/-- After the first refusal more may be granted elsewhere, and nothing is accepted here. -/
theorem refuse (h : Follows evs log) (more : List Ev) (hmore : ¬ EmitFails log → more ≠ []) :
    Follows (evs ++ more) (log ++ [(ev, .error .queueFull)]) := by
  constructor
  · intro hok
    rw [emitFails_append, emitFails_singleton] at hok
    exact absurd (Or.inr rfl) hok
  · intro _
    rw [accepted_append, List.length_append, List.length_append]
    have hnil : accepted [(ev, (.error .queueFull : Except HsmcError Unit))] = [] := rfl
    rw [hnil, List.length_nil]
    by_cases hfails : EmitFails log
    · have := h.refused hfails
      omega
    · rw [h.granted hfails]
      have := List.length_pos_iff.mpr (hmore hfails)
      omega

end Follows

theorem emit_answer {q : List Ev} {shut : Bool} {j : List TraceEvent}
    {log : List (Ev × Except HsmcError Unit)} {m : Machine Ev Ctx qn tn}
    {r : Machine Ev (Recorded Ev Ctx) qn tn} (ev : Ev) (h : Noted c u q shut j log m r) :
    (emit c u ev m).1 = .error .queueFull ∨ (emit c u ev m).1 = .ok () ∧ ¬ EmitFails log := by
  obtain ⟨acc, ref, rfl, hoff⟩ := h.offered
  rcases emit_cases ev m with ⟨ho, queue, hpush⟩ | hrefused
  · rw [emit_of_push h.running ho hpush]
    rw [ho] at hoff
    refine Or.inr ⟨rfl, ?_⟩
    rw [emitFails_answered]
    exact fun hne => hne hoff.ref_eq_nil.2
  · rw [emit_of_refused h.running hrefused]
    exact Or.inl rfl

/-- The recording machine against the granted emits and the context they leave. -/
structure Tracks (evs : List Ev) (ctx : Ctx) (r : Machine Ev (Recorded Ev Ctx) qn tn) : Prop where
  follows : Follows evs r.ctx.emits
  ctx : ¬ EmitFails r.ctx.emits → r.ctx.ctx = ctx

theorem Tracks.of_ctx {evs : List Ev} {ctx : Ctx} {r r' : Machine Ev (Recorded Ev Ctx) qn tn}
    (h : Tracks evs ctx r) (he : r'.ctx = r.ctx) : Tracks evs ctx r' :=
  ⟨by rw [he]; exact h.follows, by rw [he]; exact h.ctx⟩

/-- What a body emits on the recording machine, against what it emits when granted. -/
theorem runBody_tracks {q : List Ev} {shut : Bool} {j : List TraceEvent} (b : Body Ev Ctx) :
    ∀ {evs : List Ev} {log : List (Ev × Except HsmcError Unit)} {m : Machine Ev Ctx qn tn}
      {r : Machine Ev (Recorded Ev Ctx) qn tn} (more : List Ev) (ctx : Ctx),
      Noted c u q shut j log m r → Follows evs log →
      (¬ EmitFails log → (more, ctx) = b.granted) →
      Tracks (evs ++ more) ctx (runBody c u.recording (b.record log) r) := by
  induction b with
  | done ctx' =>
      intro evs log m r more ctx h hf hmore
      refine ⟨⟨?_, ?_⟩, ?_⟩
      · intro hok
        have := hmore hok
        cases this
        rw [List.append_nil]
        exact hf.granted hok
      · intro hfails
        have := hf.refused hfails
        rw [List.length_append]
        exact Nat.lt_add_right _ this
      · intro hok
        have := hmore hok
        cases this
        rfl
  | emit ev next ih =>
      intro evs log m r more ctx h hf hmore
      obtain ⟨he, h'⟩ := emit_noted ev h
      unfold Body.record runBody
      simp only [he]
      rcases emit_answer ev h with hans | ⟨hans, hok⟩
      · -- refused: whatever the body does now, nothing is accepted any more
        rw [hans] at h' ⊢
        have hne : ¬ EmitFails log → more ≠ [] := by
          intro hok hnil
          have := hmore hok
          simp [Body.granted, hnil] at this
        have hfails : EmitFails (log ++ [(ev, .error .queueFull)]) :=
          emitFails_append.mpr (Or.inr (emitFails_singleton.mpr rfl))
        have := ih (.error .queueFull) [] ctx h' (hf.refuse more hne)
          (fun hok => absurd hfails hok)
        rwa [List.append_nil] at this
      · rw [hans] at h' ⊢
        have hgr := hmore hok
        simp only [Body.granted] at hgr
        cases hgr
        have := ih (.ok ()) (next (.ok ())).granted.1 (next (.ok ())).granted.2 h' (hf.accept hok)
          (fun _ => rfl)
        rwa [List.append_assoc, List.singleton_append] at this

section

variable {q : List Ev} {shut : Bool} {j : List TraceEvent} {evs : List Ev} {ctx : Ctx}
  {m : Machine Ev Ctx qn tn} {r : Machine Ev (Recorded Ev Ctx) qn tn}

theorem runAction_tracks (aid : Nat) (h : Records c u q shut j m r) (ht : Tracks evs ctx r) :
    Tracks (evs ++ (actionBody c u aid ctx).granted.1) (actionBody c u aid ctx).granted.2
      (runAction c u.recording aid none r) := by
  unfold runAction actionBody
  cases c.actionArms.lookup aid with
  | none =>
      simp only [Body.granted, List.append_nil]
      exact ht
  | some a =>
      simp only
      split
      · refine runBody_tracks (u.method a.name [] r.ctx.ctx) _ _ h.noted ht.follows ?_
        intro hok
        rw [ht.ctx hok]
      · simp only [Body.granted, List.append_nil]
        exact ht

theorem runActions_tracks (sid : Nat) (kind : ActionKind) (aids : List Nat)
    (h : Records c u q shut j m r) (ht : Tracks evs ctx r) :
    ∃ r', runActions c u.recording sid kind none aids r = (false, r') ∧
      Tracks (evs ++ (grantedActions c u aids ctx).1) (grantedActions c u aids ctx).2 r' := by
  induction aids generalizing evs ctx m r with
  | nil => exact ⟨r, rfl, by simpa [grantedActions] using ht⟩
  | cons aid aids ih =>
      have h₁ := (records_simulation q shut j).observe (.actionInvoked sid aid kind) rfl h
      have h₂ := (records_simulation q shut j).runAction aid none h₁
      have ht₁ : Tracks evs ctx (r.observe (.actionInvoked sid aid kind)) := ht.of_ctx rfl
      obtain ⟨r', hr', ht'⟩ := ih h₂ (runAction_tracks aid h₁ ht₁)
      refine ⟨r', ?_, ?_⟩
      · unfold runActions
        simp only [((records_simulation q shut j).running h₂).2, Bool.false_eq_true, ↓reduceIte]
        exact hr'
      · rw [List.append_assoc] at ht'
        exact ht'

theorem exitState_tracks (sid : Nat) (h : Records c u q shut j m r) (ht : Tracks evs ctx r) :
    Tracks (evs ++ (grantedActions c u (c.exitsOf sid) ctx).1)
      (grantedActions c u (c.exitsOf sid) ctx).2 (exitState c u.recording sid r) := by
  obtain ⟨r', hr', ht'⟩ := runActions_tracks sid .exit (c.exitsOf sid)
    ((records_simulation q shut j).exitBegun sid h)
    (ht.of_ctx (by simp [cancelTimers_eq, observeAll_eq, Machine.observe]))
  unfold exitState
  simp only [hr', Bool.false_eq_true, ↓reduceIte]
  exact ht'.of_ctx rfl

theorem grantedActions_append (aids aids' : List Nat) (ctx : Ctx) :
    grantedActions c u (aids ++ aids') ctx =
      ((grantedActions c u aids ctx).1 ++
        (grantedActions c u aids' (grantedActions c u aids ctx).2).1,
        (grantedActions c u aids' (grantedActions c u aids ctx).2).2) := by
  induction aids generalizing ctx with
  | nil => simp [grantedActions]
  | cons aid aids ih => simp [grantedActions, ih]

theorem exitStates_tracks (l : List Nat) (h : Records c u q shut j m r)
    (ht : Tracks evs ctx r) :
    Tracks (evs ++ exitEmits c u l ctx) (grantedActions c u (l.flatMap c.exitsOf) ctx).2
      (l.foldl (fun r sid => exitState c u.recording sid r) r) := by
  unfold exitEmits
  induction l generalizing evs ctx m r with
  | nil => simpa [grantedActions] using ht
  | cons sid l ih =>
      have := ih ((records_simulation q shut j).exitState sid h) (exitState_tracks sid h ht)
      rw [List.append_assoc] at this
      rw [List.flatMap_cons, grantedActions_append]
      exact this

end

/-! ## The shutdown -/

section

variable {m : Machine Ev Ctx qn tn} {elapsed cur : Nat} {ev : Ev} {queue : Bounded Ev qn}
  (S : c.Sound) (ht : m.terminated = false) (hcur : m.current = some cur) (hlt : cur < c.nStates)
  (hpop : popTimer c (decrementTimers c elapsed m) = none)
  (hq : m.queue.popFront = some (ev, queue)) (hterm : checkTerminate c u ev = true)
include S ht hcur hlt hpop hq hterm

theorem terminate_follows :
    Follows (exitEmits c u (c.pathToRoot cur) m.ctx) (stepEmits c u m elapsed) := by
  have hstart : Tracks ([] : List Ev) m.ctx (terminating c u elapsed ev queue m).recorded := by
    refine ⟨.nil, fun _ => ?_⟩
    simp [Machine.recorded, terminating, Machine.observe]
  have hrec : Records c u queue.items m.overflow (m.journal.filter TraceEvent.isEmit)
      (terminating c u elapsed ev queue m) (terminating c u elapsed ev queue m).recorded :=
    records_terminating ht
  have := exitStates_tracks (c.pathToRoot cur) hrec hstart
  rw [List.nil_append] at this
  rw [stepEmits_terminate S ht hcur hlt hpop hq hterm]
  exact this.follows

/-- The shutdown emits nothing exactly when its exit actions would not. -/
theorem exits_emits_eq_nil_iff {m' : Machine Ev Ctx qn tn} {next : Option Nat}
    (h : step c u m elapsed = .ok (next, m')) :
    stepEmits c u m elapsed = [] ↔ exitEmits c u (c.pathToRoot cur) m.ctx = [] := by
  have hf := terminate_follows S ht hcur hlt hpop hq hterm
  obtain ⟨acc, ref, hs, -⟩ := serves_terminate S ht hcur hlt hpop hq hterm h
  rw [hs.emits] at hf ⊢
  constructor
  · intro hnil
    rw [hnil] at hf
    exact (hf.granted fun ⟨_, he, _⟩ => nomatch he).symm
  · intro hnil
    rw [hnil] at hf
    have hok : ¬ EmitFails (answered acc ref) := fun hfails => by
      have := hf.refused hfails
      simp at this
    have hacc := hf.granted hok
    rw [accepted_answered] at hacc
    rw [emitFails_answered, not_not] at hok
    rw [hacc, hok]
    rfl

/-- On a clear flag, an emit of the shutdown is refused exactly when its exit actions would emit
    more than the queue has room for. -/
theorem exits_emitFails_iff {m' : Machine Ev Ctx qn tn} {next : Option Nat}
    (hclear : m.overflow = false) (h : step c u m elapsed = .ok (next, m')) :
    EmitFails (stepEmits c u m elapsed) ↔
      qn < queue.items.length + (exitEmits c u (c.pathToRoot cur) m.ctx).length := by
  have hf := terminate_follows S ht hcur hlt hpop hq hterm
  obtain ⟨acc, ref, hs, -⟩ := serves_terminate S ht hcur hlt hpop hq hterm h
  rw [hs.emits] at hf ⊢
  constructor
  · intro hfails
    have hlen := hf.refused hfails
    rw [accepted_answered] at hlen
    rcases hs.offered.full (emitFails_answered.mp hfails) with hshut | hfull
    · rw [hclear] at hshut
      cases hshut
    · rw [List.length_append] at hfull
      omega
  · intro hlt
    by_contra hok
    have hacc := hf.granted hok
    rw [accepted_answered] at hacc
    have hle := hs.offered.length_le
    rw [List.length_append, hacc] at hle
    omega

end

end Hsmc
