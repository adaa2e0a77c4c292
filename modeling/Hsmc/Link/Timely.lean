import Hsmc.Link.Loop

/-
  Public calls that tell the time in a `u64`.

  A step is told the time that has passed in nanoseconds, and `Timely` closes the fresh machine
  under all public calls, `dispatch` and `run()` included, as long as that time fits a `u64`,
  which is 584 years. Such a run is one of elementary calls (`Timely.runsWith`).
-/

namespace Hsmc

variable {Ev Ctx Val : Type} {qn : Nat} {c : Chart} {u : UserCode Ev Ctx Val}

/-- The machine of a `run()`, in its loop or after it. -/
def Running.machine {tn : Nat} : Running Ev Ctx qn tn → Machine Ev Ctx qn tn
  | .looping s => s.machine
  | .returned _ m => m

variable (c u) in
/-- The machines that public calls reach. -/
inductive Timely : ChartMachine c Ev Ctx qn → Prop where
  | new (ctx : Ctx) : Timely (Machine.new ctx)
  | step {m m' : ChartMachine c Ev Ctx qn} {elapsed : Nat} {next : Option Nat} :
      Timely m → elapsed < 2 ^ 64 → step c u m elapsed = .ok (next, m') → Timely m'
  | send {m : ChartMachine c Ev Ctx qn} (ev : Ev) : Timely m → Timely (m.send ev).2
  | dispatch {m m' : ChartMachine c Ev Ctx qn} {fuel : Nat} {ev : Ev}
      {result : Except HsmcError Unit} :
      Timely m → dispatch c u fuel ev m = .ok (result, m') → Timely m'
  | takeOverflow {m : ChartMachine c Ev Ctx qn} : Timely m → Timely m.takeOverflow.2
  | contextMut {m : ChartMachine c Ev Ctx qn} (f : Ctx → Ctx) :
      Timely m → Timely { m with ctx := f m.ctx }
  | run {m : ChartMachine c Ev Ctx qn} {k : RunKind} {now : Nat} {wakes : List (Wake Ev Ctx)}
      {r : Running Ev Ctx qn c.maxTimers} : Timely m → (∀ d, k.elapsed d ≤ d) →
      (∀ w ∈ wakes, w.now < 2 ^ 64) → run c u k now wakes m = .ok r → Timely r.machine

section

variable {P : ChartMachine c Ev Ctx qn → Nat → Prop}

/-! ## Dispatch -/

theorem Drains.runsWith_of {m m' : ChartMachine c Ev Ctx qn} {ms : List (ChartMachine c Ev Ctx qn)}
    {result : Except HsmcError Unit} (hP : ∀ m, P m 0) (h : Drains c u m ms result m')
    (hm : RunsWith c u P m) : RunsWith c u P m' := by
  induction h with
  | empty _ => exact hm
  | overflow _ h₁ _ => exact (hm.step (hP _) h₁).takeOverflow
  | terminated _ h₁ _ _ => exact (hm.step (hP _) h₁).takeOverflow
  | turn _ h₁ _ _ _ ih => exact ih (hm.step (hP _) h₁).takeOverflow

theorem dispatch_runsWith_of {fuel : Nat} {ev : Ev} {m m' : ChartMachine c Ev Ctx qn}
    {result : Except HsmcError Unit} (hP : ∀ m, P m 0) (hm : RunsWith c u P m)
    (h : dispatch c u fuel ev m = .ok (result, m')) : RunsWith c u P m' := by
  rcases dispatch_drains h with ⟨-, -, -, rfl⟩ | ⟨-, -, -, -, rfl⟩ | ⟨queue, ht, hpush, hd⟩
  · exact hm
  · exact hm
  · have hm₁ := hm.send ev
    rw [send_of_push ht hpush] at hm₁
    exact hd.runsWith_of hP hm₁

/-! ## The loop -/

theorem RunsWith.pollDurings {m : ChartMachine c Ev Ctx qn} (h : RunsWith c u P m) (f : Ctx → Ctx) :
    RunsWith c u P (pollDurings c f m) := by
  unfold Hsmc.pollDurings
  split
  · exact h
  · exact h.contextMut f

theorem RunsWith.push {m : ChartMachine c Ev Ctx qn} (h : RunsWith c u P m)
    (ht : m.terminated = false) (ev : Ev) :
    RunsWith c u P { m with queue := (m.queue.push ev).getD m.queue } := by
  have hs := h.send ev
  cases hpush : m.queue.push ev with
  | none =>
      rw [send_of_full ht hpush] at hs
      exact hs
  | some queue =>
      rw [send_of_push ht hpush] at hs
      exact hs

theorem runStep_runsWith {k : RunKind} {now : Nat} {s : RunState Ev Ctx qn c.maxTimers}
    {r : Running Ev Ctx qn c.maxTimers} (h : runStep c u k now s = .ok r)
    (hm : RunsWith c u P s.machine) (hP : P s.machine (k.elapsed (now - s.lastInstant))) :
    RunsWith c u P r.machine := by
  unfold runStep at h
  obtain ⟨⟨next, m'⟩, hstep, h⟩ := Except.bind_eq_ok.mp h
  cases h
  exact hm.step hP hstep

theorem runTurn_runsWith {k : RunKind} {w : Wake Ev Ctx} {s : RunState Ev Ctx qn c.maxTimers}
    {r : Running Ev Ctx qn c.maxTimers} (hm : RunsWith c u P s.machine)
    (hP : ∀ m, P m (k.elapsed (w.now - s.lastInstant))) (h : runTurn c u k w s = .ok r) :
    RunsWith c u P r.machine := by
  unfold runTurn at h
  split at h
  · cases h
    exact hm
  · rename_i ht
    have ht : s.machine.terminated = false := by simpa using ht
    have hto := hm.takeOverflow
    simp only at h
    split at h
    · cases h
      exact hto
    · split at h
      · exact runStep_runsWith h hto (hP _)
      · split at h
        · cases h
          exact hto
        · have hpoll := hto.pollDurings w.durings
          have ht' :=
            (sameCore_pollDurings (c := c) w.durings s.machine.takeOverflow.2).1.terminated
          split at h
          · rename_i ev _
            exact runStep_runsWith h (hpoll.push (ht'.trans ht) ev) (hP _)
          · split at h
            · cases h
              exact hpoll
            · exact runStep_runsWith h hpoll (hP _)
          · exact runStep_runsWith h hpoll (hP _)

theorem runLoop_runsWith {k : RunKind} (hk : ∀ d, d < 2 ^ 64 → ∀ m, P m (k.elapsed d)) :
    ∀ {wakes : List (Wake Ev Ctx)} {r r' : Running Ev Ctx qn c.maxTimers},
    (∀ w ∈ wakes, w.now < 2 ^ 64) → RunsWith c u P r.machine → runLoop c u k wakes r = .ok r' →
    RunsWith c u P r'.machine
  | [], .looping _, _, _, hm, h | [], .returned _ _, _, _, hm, h
    | _ :: _, .returned _ _, _, _, hm, h => by
      cases h
      exact hm
  | w :: wakes, .looping s, r', hw, hm, h => by
      obtain ⟨hnow, hw⟩ := List.forall_mem_cons.mp hw
      unfold runLoop at h
      obtain ⟨r₁, hturn, h⟩ := Except.bind_eq_ok.mp h
      have hlt : w.now - s.lastInstant < 2 ^ 64 := (Nat.sub_le _ _).trans_lt hnow
      exact runLoop_runsWith hk hw (runTurn_runsWith hm (hk _ hlt) hturn) h

theorem run_runsWith {k : RunKind} (hk : ∀ d, d < 2 ^ 64 → ∀ m, P m (k.elapsed d))
    (hP : ∀ m, P m 0) {now : Nat} {wakes : List (Wake Ev Ctx)} {m : ChartMachine c Ev Ctx qn}
    {r : Running Ev Ctx qn c.maxTimers} (hw : ∀ w ∈ wakes, w.now < 2 ^ 64)
    (hm : RunsWith c u P m) (h : run c u k now wakes m = .ok r) : RunsWith c u P r.machine := by
  unfold run at h
  obtain ⟨r₁, hstart, h⟩ := Except.bind_eq_ok.mp h
  refine runLoop_runsWith hk hw ?_ h
  rcases runStart_cases hstart with ⟨-, rfl⟩ | ⟨next, m₁, -, hstep, ⟨-, rfl⟩ | ⟨-, rfl⟩⟩
  · exact hm
  · exact (hm.step (hP _) hstep).takeOverflow
  · exact hm.step (hP _) hstep

end

theorem Timely.runsWith {m : ChartMachine c Ev Ctx qn} (h : Timely c u m) :
    RunsWith c u (fun _ elapsed => elapsed < 2 ^ 64) m := by
  induction h with
  | new ctx => exact .new ctx
  | step _ hlt h ih => exact ih.step hlt h
  | send ev _ ih => exact ih.send ev
  | dispatch _ h ih => exact dispatch_runsWith_of (fun _ => by decide) ih h
  | takeOverflow _ ih => exact ih.takeOverflow
  | contextMut f _ ih => exact ih.contextMut f
  | run _ hk hw h ih =>
      exact run_runsWith (fun d hd _ => (hk d).trans_lt hd) (fun _ => by decide) hw ih h

end Hsmc
