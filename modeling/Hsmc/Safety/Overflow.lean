import Hsmc.Safety.Queue

/-
  Refused emits.

  An emit is refused when the queue is full, and then the overflow flag refuses the later ones.
  `step` sets the flag and leaves it set; `dispatch` and `run()` take it. So a call that finds
  the flag clear refuses an emit only for what happened during that call
  (`step_contained`, `dispatch_contained`), and one that finds it set need not
  (`overflow_leaks`).
-/

namespace Hsmc

open Machine

variable {Ev Ctx Val : Type} {qn tn : Nat} {c : Chart} {u : UserCode Ev Ctx Val}

/-- Every emit of the step that is answered with `QueueFull` found the queue full, or came after
    one of the same step that was. -/
def StepContained (c : Chart) (u : UserCode Ev Ctx Val) (m : Machine Ev Ctx qn tn)
    (elapsed : Nat) : Prop :=
  ∀ before ev after, stepEmits c u m elapsed = before ++ (ev, .error .queueFull) :: after →
    m.queue.items.length - (stepPops c m elapsed).length + (accepted before).length = qn ∨
      EmitFails before

/-- A refusal is either the first one or comes after another. -/
theorem answered_split {acc ref : List Ev} {before after : List (Ev × Except HsmcError Unit)}
    {ev : Ev} (h : answered acc ref = before ++ (ev, .error .queueFull) :: after) :
    (before = answered acc [] ∧ ref ≠ []) ∨ EmitFails before := by
  have hacc : ∀ e ∈ acc.map fun ev => (ev, (.ok () : Except HsmcError Unit)), e.2 = .ok () := by
    intro e he
    obtain ⟨x, -, rfl⟩ := List.mem_map.mp he
    rfl
  unfold answered at h
  rcases List.append_eq_append_iff.mp h with ⟨l, hl, hr⟩ | ⟨l, hl, hr⟩
  · cases l with
    | nil =>
        left
        refine ⟨by simpa [answered] using hl, ?_⟩
        rintro rfl
        cases hr
    | cons e l =>
        right
        have he : e ∈ ref.map fun ev => (ev, (.error .queueFull : Except HsmcError Unit)) := by
          rw [hr]
          exact List.mem_cons_self
        obtain ⟨x, -, rfl⟩ := List.mem_map.mp he
        exact ⟨_, by rw [hl]; exact List.mem_append_right _ List.mem_cons_self, rfl⟩
  · cases l with
    | nil =>
        left
        refine ⟨by simpa [answered] using hl.symm, ?_⟩
        rintro rfl
        cases hr
    | cons e l =>
        cases hr
        have := hacc (ev, .error .queueFull) (by rw [hl]; simp)
        cases this

/-- A step that finds the flag clear refuses only what does not fit. -/
theorem step_contained (S : c.Sound) {m m' : Machine Ev Ctx qn tn} {elapsed : Nat}
    {next : Option Nat} (hv : m.Valid c) (hclear : m.overflow = false)
    (h : step c u m elapsed = .ok (next, m')) : StepContained c u m elapsed := by
  intro before ev after hsplit
  cases ht : m.terminated with
  | true =>
      rw [(stepEmits_of_terminated ht).1] at hsplit
      simp at hsplit
  | false =>
      obtain ⟨rest, acc, ref, hs⟩ := step_serves S hv ht h
      rw [hs.emits] at hsplit
      rcases answered_split hsplit with ⟨rfl, hne⟩ | hfails
      · left
        rcases hs.offered.full hne with hshut | hlen
        · rw [hclear] at hshut
          cases hshut
        · rw [List.length_append] at hlen
          rw [hs.pops, List.length_append, accepted_answered]
          omega
      · exact Or.inr hfails

/-- The flag is raised by a refused emit only. -/
theorem overflow_of_step (S : c.Sound) {m m' : Machine Ev Ctx qn tn} {elapsed : Nat}
    {next : Option Nat} (hv : m.Valid c) (hclear : m.overflow = false)
    (h : step c u m elapsed = .ok (next, m')) :
    m'.overflow = true ↔ EmitFails (stepEmits c u m elapsed) := by
  cases ht : m.terminated with
  | true =>
      rw [(stepEmits_of_terminated ht).1]
      rw [step_of_terminated ht] at h
      cases h
      simp [hclear, EmitFails]
  | false =>
      obtain ⟨rest, acc, ref, hs⟩ := step_serves S hv ht h
      rw [hs.emits, emitFails_answered, hs.offered.shut_eq, hclear]
      simp

/-- The steps of a `dispatch` are contained, and a `QueueFull` that it answers has its cause in
    the call: the push of its own event, or an emit of one of its steps. -/
structure DispatchContained (c : Chart) (u : UserCode Ev Ctx Val) (m : Machine Ev Ctx qn tn)
    (fuel : Nat) (ev : Ev) (result : Except HsmcError Unit) : Prop where
  steps : ∀ x ∈ dispatchSteps c u fuel ev m, StepContained c u x 0
  queueFull : result = .error .queueFull → m.queue.push ev = none ∨
    ∃ x ∈ dispatchSteps c u fuel ev m, EmitFails (stepEmits c u x 0)

theorem Drains.contained (S : c.Sound) {ms : List (Machine Ev Ctx qn tn)}
    {m m' : Machine Ev Ctx qn tn} {result : Except HsmcError Unit}
    (hd : Drains c u m ms result m') (hv : m.Valid c) (hclear : m.overflow = false) :
    (∀ x ∈ ms, StepContained c u x 0) ∧
      (result = .error .queueFull → ∃ x ∈ ms, EmitFails (stepEmits c u x 0)) := by
  induction hd with
  | empty _ => exact ⟨by simp, by simp⟩
  | overflow _ h₁ ho =>
      have hfails := (overflow_of_step S hv hclear h₁).mp ho
      exact ⟨by simpa using step_contained S hv hclear h₁, fun _ => by simpa using hfails⟩
  | terminated _ h₁ _ _ =>
      exact ⟨by simpa using step_contained S hv hclear h₁, by simp⟩
  | turn _ h₁ _ _ _ ih =>
      -- the flag is taken after every step of the loop
      obtain ⟨hsteps, hfull⟩ :=
        ih ((sameCore_takeOverflow _).valid (step_spec_of_ok S hv h₁).valid) rfl
      refine ⟨?_, fun hr => ?_⟩
      · intro x hx
        rcases List.mem_cons.mp hx with rfl | hx
        · exact step_contained S hv hclear h₁
        · exact hsteps x hx
      · obtain ⟨x, hx, hfails⟩ := hfull hr
        exact ⟨x, List.mem_cons_of_mem _ hx, hfails⟩

theorem dispatch_contained (S : c.Sound) {m m' : Machine Ev Ctx qn tn} {fuel : Nat} {ev : Ev}
    {result : Except HsmcError Unit} (hv : m.Valid c) (hclear : m.overflow = false)
    (h : dispatch c u fuel ev m = .ok (result, m')) : DispatchContained c u m fuel ev result := by
  rcases dispatch_drains h with ⟨-, hms, hr, -⟩ | ⟨-, hpush, hms, -, -⟩ | ⟨queue, ht, hpush, hd⟩
  · exact ⟨by simp [hms], by simp [hr]⟩
  · exact ⟨by simp [hms], fun _ => Or.inl hpush⟩
  · have hv₁ : ({ m with queue } : Machine Ev Ctx qn tn).Valid c := ⟨hv.current_lt, hv.halted⟩
    obtain ⟨hsteps, hfull⟩ := hd.contained S hv₁ hclear
    exact ⟨hsteps, fun hr => Or.inr (hfull hr)⟩

/-! ## Runs -/

variable (c u) in
/-- The machines of runs in which every `step` and every `dispatch` finds the flag clear. -/
inductive ClearRun : ChartMachine c Ev Ctx qn → Prop where
  | new (ctx : Ctx) : ClearRun (Machine.new ctx)
  | step {m m' : ChartMachine c Ev Ctx qn} {elapsed : Nat} {next : Option Nat} :
      ClearRun m → m.overflow = false → step c u m elapsed = .ok (next, m') → ClearRun m'
  | send {m : ChartMachine c Ev Ctx qn} (ev : Ev) : ClearRun m → ClearRun (m.send ev).2
  | dispatch {m m' : ChartMachine c Ev Ctx qn} {fuel : Nat} {ev : Ev}
      {result : Except HsmcError Unit} : ClearRun m → m.overflow = false →
      dispatch c u fuel ev m = .ok (result, m') → ClearRun m'
  | takeOverflow {m : ChartMachine c Ev Ctx qn} : ClearRun m → ClearRun m.takeOverflow.2
  | contextMut {m : ChartMachine c Ev Ctx qn} (f : Ctx → Ctx) :
      ClearRun m → ClearRun { m with ctx := f m.ctx }

theorem ClearRun.reachable {m : ChartMachine c Ev Ctx qn} (h : ClearRun c u m) :
    Reachable c u m := by
  induction h with
  | new ctx => exact .new ctx
  | step _ _ h ih => exact .step ih h
  | send ev _ ih => exact .send ev ih
  | dispatch _ _ h ih => exact .dispatch ih h
  | takeOverflow _ ih => exact .takeOverflow ih
  | contextMut f _ ih => exact .contextMut f ih

/-- In a run whose calls all find the overflow flag clear, no call refuses an emit, or reports
    `QueueFull`, for something that happened before it. -/
theorem overflow_contained {input : StatechartInput} (hc : statechartImpl input = .ok c)
    {m : ChartMachine c Ev Ctx qn} (h : ClearRun c u m) (hclear : m.overflow = false) :
    (∀ elapsed next m', step c u m elapsed = .ok (next, m') → StepContained c u m elapsed) ∧
    ∀ fuel ev result m', dispatch c u fuel ev m = .ok (result, m') →
      DispatchContained c u m fuel ev result := by
  obtain ⟨S⟩ := sound hc
  have hv := h.reachable.valid S
  exact ⟨fun _ _ _ hstep => step_contained S hv hclear hstep,
    fun _ _ _ _ hd => dispatch_contained S hv hclear hd⟩

/-- A fresh relay with room for one event, which a `Ping` takes. -/
def relayWaiting : ChartMachine relayChart Ident Unit 1 := ((Machine.new ()).send "Ping").2

theorem relayWaiting_isOk : (step relayChart (relayCode 1 1) relayWaiting 0).isOk = true := by
  decide +kernel

theorem overflow_contained_relay : StepContained relayChart (relayCode 1 1) relayWaiting 0 :=
  (overflow_contained relay_accepted (.send "Ping" (.new ())) rfl).1 0 _ _
    (Except.eq_ok_get _ relayWaiting_isOk)

/-- The relay once it has started: its greeting found the queue full. -/
def relayJammed : ChartMachine relayChart Ident Unit 1 := (Except.get _ relayWaiting_isOk).2

theorem relayJammed_isOk : (step relayChart (relayCode 1 1) relayJammed 0).isOk = true := by
  decide +kernel

/-- The relay after the `Ping`: the queue is empty, and nobody took the flag. -/
def relayBusy : ChartMachine relayChart Ident Unit 1 := (Except.get _ relayJammed_isOk).2

theorem relayBusy_isOk : (dispatch relayChart (relayCode 1 1) 4 "Stop" relayBusy).isOk = true := by
  decide +kernel

/-- The second step refuses an emit with the queue empty, and the `dispatch` after it reports
    `QueueFull` although it emits nothing. -/
theorem overflow_leaks : statechartImpl relay = .ok relayChart ∧
    Reachable relayChart (relayCode 1 1) relayJammed ∧
    (∃ next, step relayChart (relayCode 1 1) relayJammed 0 = .ok (next, relayBusy)) ∧
    ¬ StepContained relayChart (relayCode 1 1) relayJammed 0 ∧
    ∃ result m', dispatch relayChart (relayCode 1 1) 4 "Stop" relayBusy = .ok (result, m') ∧
      result = .error .queueFull ∧
      ¬ DispatchContained relayChart (relayCode 1 1) relayBusy 4 "Stop" result := by
  have hjammed : Reachable relayChart (relayCode 1 1) relayJammed :=
    .step (.send "Ping" (.new ())) (Except.eq_ok_get _ relayWaiting_isOk)
  have hresult : (Except.get _ relayBusy_isOk).1 = .error .queueFull := by decide +kernel
  refine ⟨relay_accepted, hjammed, ⟨_, Except.eq_ok_get _ relayJammed_isOk⟩, ?_,
    _, _, Except.eq_ok_get _ relayBusy_isOk, hresult, ?_⟩
  · intro h
    have hemits : stepEmits relayChart (relayCode 1 1) relayJammed 0 =
        [("Ping", .error .queueFull)] := by decide +kernel
    have hroom : relayJammed.queue.items.length -
        (stepPops relayChart relayJammed 0).length = 0 := by decide +kernel
    rcases h [] "Ping" [] hemits with hfull | ⟨e, he, -⟩
    · rw [hroom] at hfull
      cases hfull
    · cases he
  · intro h
    have hsilent : ∀ x ∈ dispatchSteps relayChart (relayCode 1 1) 4 "Stop" relayBusy,
        stepEmits relayChart (relayCode 1 1) x 0 = [] := by decide +kernel
    have hpush : (relayBusy.queue.push "Stop").isSome = true := by decide +kernel
    rcases h.queueFull hresult with hnone | ⟨x, hx, e, he, -⟩
    · rw [hnone] at hpush
      cases hpush
    · rw [hsilent x hx] at he
      cases he

end Hsmc
