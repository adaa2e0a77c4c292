import Hsmc.Safety.Active
import Hsmc.Safety.Timers

/-
  Termination.

  * `step_terminate`: a step that pops the terminate event leaves every active state, innermost
    first, and leaves nothing behind.
  * `Halted`: what every public call does on a terminated machine, which is nothing.
  * `termination_final` puts them together, for every continuation of a run (`Later`).
-/

open Computability

namespace Hsmc

open Machine

variable {Ev Ctx Val : Type} {qn tn : Nat} {c : Chart} {u : UserCode Ev Ctx Val}

/-! ## Calls on a terminated machine -/

/-- No call does anything, and each says so. -/
structure Halted (c : Chart) (u : UserCode Ev Ctx Val) (m : Machine Ev Ctx qn tn) : Prop where
  terminated : m.isTerminated = true
  step : ∀ elapsed, step c u m elapsed = .ok (none, m)
  send : ∀ ev, m.send ev = (.error .alreadyTerminated, m)
  dispatch : ∀ fuel ev, dispatch c u fuel ev m = .ok (.error .alreadyTerminated, m)
  run : ∀ k now wakes, run c u k now wakes m = .ok (.returned (.error .alreadyTerminated) m)

theorem halted_of_terminated {m : Machine Ev Ctx qn tn} (h : m.terminated = true) :
    Halted c u m where
  terminated := h
  step elapsed := by unfold Hsmc.step; rw [if_pos h]
  send ev := by unfold Machine.send; rw [if_pos h]
  dispatch fuel ev := by unfold Hsmc.dispatch; rw [if_pos h]
  run k now wakes := by
    unfold Hsmc.run runStart
    rw [if_pos h, Except.ok_bind_eq]
    unfold runLoop
    rfl

variable (c u) in
/-- The machines that later calls of `step`, `send`, `dispatch` and `run` lead to. A `run` may
    be dropped while it is still in its loop. -/
inductive Later (m : Machine Ev Ctx qn tn) : Machine Ev Ctx qn tn → Prop where
  | refl : Later m m
  | step {m₁ m₂ : Machine Ev Ctx qn tn} {elapsed : Nat} {next : Option Nat} :
      Later m m₁ → step c u m₁ elapsed = .ok (next, m₂) → Later m m₂
  | send {m₁ : Machine Ev Ctx qn tn} (ev : Ev) : Later m m₁ → Later m (m₁.send ev).2
  | dispatch {m₁ m₂ : Machine Ev Ctx qn tn} {fuel : Nat} {ev : Ev}
      {result : Except HsmcError Unit} :
      Later m m₁ → dispatch c u fuel ev m₁ = .ok (result, m₂) → Later m m₂
  | returned {m₁ m₂ : Machine Ev Ctx qn tn} {k : RunKind} {now : Nat} {wakes : List (Wake Ev Ctx)}
      {result : Except HsmcError Unit} :
      Later m m₁ → run c u k now wakes m₁ = .ok (.returned result m₂) → Later m m₂
  | dropped {m₁ : Machine Ev Ctx qn tn} {k : RunKind} {now : Nat} {wakes : List (Wake Ev Ctx)}
      {s : RunState Ev Ctx qn tn} :
      Later m m₁ → run c u k now wakes m₁ = .ok (.looping s) → Later m s.machine

/-- A terminated machine stays as it is. -/
theorem Halted.later {m m' : Machine Ev Ctx qn tn} (h : Halted c u m) (hl : Later c u m m') :
    m' = m := by
  induction hl with
  | refl => rfl
  | step _ hs ih =>
      subst ih
      rw [h.step] at hs
      cases hs
      rfl
  | send ev _ ih =>
      subst ih
      rw [h.send]
  | dispatch _ hd ih =>
      subst ih
      rw [h.dispatch] at hd
      cases hd
      rfl
  | returned _ hr ih =>
      subst ih
      rw [h.run] at hr
      cases hr
      rfl
  | dropped _ hr ih =>
      subst ih
      rw [h.run] at hr
      cases hr

/-! ## The terminating step -/

/-- What is left of a machine whose step popped the terminate event. -/
structure Shutdown (c : Chart) (cur : Nat) (m m' : Machine Ev Ctx qn tn) : Prop where
  terminated : m'.isTerminated = true
  current : m'.current = none
  queue : m'.queue.items = []
  timers : m'.timers.entries.items = []
  exits : ∃ w, m'.journal = m.journal ++ w ∧ nestingOps w = (c.pathToRoot cur).map .leave

theorem step_terminate (S : c.Sound) {m m' : Machine Ev Ctx qn tn} {elapsed cur : Nat} {ev : Ev}
    {queue : Bounded Ev qn} {next : Option Nat} (hv : m.Valid c) (hok : (m.core c).TimersOk c)
    (ht : m.terminated = false) (hcur : m.current = some cur)
    (hpop : popTimer c (decrementTimers c elapsed m) = none)
    (hq : m.queue.popFront = some (ev, queue)) (hterm : checkTerminate c u ev = true)
    (h : step c u m elapsed = .ok (next, m')) : next = none ∧ Shutdown c cur m m' := by
  obtain ⟨next', m'', h', hnone, hs⟩ :=
    step_terminated S ht hcur (hv.current_lt cur hcur) hpop hq hterm
  rw [h] at h'
  cases h'
  have hacts : stepActs c u m elapsed = .tick elapsed :: (c.pathToRoot cur).map .leave := by
    unfold stepActs workActs eventActs
    simp only [ht, hcur, hpop, queue_decrementTimers, hq, hterm, Bool.false_eq_true, ↓reduceIte]
  cases hs.outcome with
  | terminated ev' queue' _ _ _ _ _ ht' hcur' hq' _ =>
      refine ⟨hnone, ht', hcur', by rw [hq']; rfl, (hs.timersOk S hok).items_eq_nil hcur', ?_⟩
      obtain ⟨w, hw, hops⟩ := hs.run.nestingOps_eq
      refine ⟨w, hw, ?_⟩
      rw [hops, hacts, List.filterMap_cons, List.filterMap_map]
      exact List.filterMap_eq_map ▸ rfl
  | halted ht' _ => rw [ht] at ht'; cases ht'
  | started _ hcur' => rw [hcur] at hcur'; cases hcur'
  | fired _ _ _ _ _ hpop' => rw [hpop] at hpop'; cases hpop'
  | idle _ _ _ hq' => rw [hq] at hq'; cases hq'
  | handled ev' queue' _ _ _ hq' hterm' =>
      rw [hq] at hq'
      cases hq'
      rw [hterm] at hterm'
      cases hterm'

/-- Termination is complete and final: the step that pops the terminate event exits the states
    of the active path once each, from the innermost to the root, and leaves no state, no event
    and no timer behind; and no later sequence of calls changes anything. -/
theorem termination_final {input : StatechartInput} (hc : statechartImpl input = .ok c)
    {m m' : ChartMachine c Ev Ctx qn} (h : Reachable c u m) {elapsed cur : Nat} {ev : Ev}
    {queue : Bounded Ev qn} {next : Option Nat} (ht : m.terminated = false)
    (hcur : m.current = some cur) (hpop : popTimer c (decrementTimers c elapsed m) = none)
    (hq : m.queue.popFront = some (ev, queue)) (hterm : checkTerminate c u ev = true)
    (hstep : step c u m elapsed = .ok (next, m')) :
    next = none ∧ (c.pathToRoot cur).Nodup ∧ Shutdown c cur m m' ∧
      ∀ m'', Later c u m' m'' → m'' = m' ∧ Halted c u m'' := by
  obtain ⟨S⟩ := sound hc
  have hv := h.valid S
  obtain ⟨hnext, hdown⟩ := step_terminate S hv (h.timers_on_path S) ht hcur hpop hq hterm hstep
  have hhalt : Halted c u m' := halted_of_terminated hdown.terminated
  refine ⟨hnext, ?_, hdown, ?_⟩
  · rw [S.pathToRoot_eq (hv.current_lt cur hcur)]
    exact S.tree.nodup_up cur
  · intro m'' hl
    have he := hhalt.later hl
    exact ⟨he, he ▸ hhalt⟩

/-- The lamp, told to stop. -/
def lampStopping : ChartMachine lampChart Ident Nat 4 := (lampOn.send "Stop").2

theorem lampStopping_isOk : (step lampChart countCode lampStopping 0).isOk = true := by
  decide +kernel

def lampStopped : Option Nat × ChartMachine lampChart Ident Nat 4 :=
  Except.get _ lampStopping_isOk

theorem termination_final_lamp : lampStopped.1 = none ∧ (lampChart.pathToRoot 2).Nodup ∧
    Shutdown lampChart 2 lampStopping lampStopped.2 ∧
    ∀ m'', Later lampChart countCode lampStopped.2 m'' →
      m'' = lampStopped.2 ∧ Halted lampChart countCode m'' :=
  have hq : lampStopping.queue.popFront = some ("Stop", Bounded.empty) := by decide +kernel
  termination_final lamp_accepted (lampOn_reachable.send "Stop") (by decide +kernel)
    (by decide +kernel) (by decide +kernel) hq (by decide +kernel)
    (Except.eq_ok_get _ lampStopping_isOk)

end Hsmc
