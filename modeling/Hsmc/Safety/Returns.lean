import Hsmc.Link.Emits
import Hsmc.Safety.Timers

/-
  `dispatch` returns, within a bound on its steps.

  Queued events and expired timers are the work that waits for a machine. If no timer has run
  out when it starts, a step without time takes one piece of work and adds no more than it
  emits (`step_work`), whichever of the two it takes.

  * `length_dispatchSteps_le`: the steps of the call are bounded by the work at its start and
    the emits of these steps.
  * `dispatch_returns`: so the call returns.
-/

open Computability

namespace Hsmc

open Machine

variable {Ev Ctx Val : Type} {qn tn : Nat} {c : Chart} {u : UserCode Ev Ctx Val}

/-! ## Timers that run for a while -/

variable (c u) in
/-- The timers of the chart run for more than no time and less than `2^64` nanoseconds. -/
def TimersRun : Prop :=
  ∀ s, ∀ t ∈ c.ownedTimers s, 0 < durationFor c u t ∧ durationFor c u t < 2 ^ 64

theorem TimersRun.asU64_ne_zero (h : TimersRun c u) {s t : Nat} (ht : t ∈ c.ownedTimers s) :
    asU64 (durationFor c u t) ≠ 0 := by
  obtain ⟨hpos, hlt⟩ := h s t ht
  unfold asU64
  rw [Nat.mod_eq_of_lt hlt]
  omega

theorem length_expired_starts_le (s : Nat) : ∀ {l : List Nat} {tt : TimerTable tn},
    (∀ t ∈ l, asU64 (durationFor c u t) ≠ 0) →
    (l.foldl (fun tt t => tt.start s t (durationFor c u t)) tt).expired.length ≤
      tt.expired.length
  | [], _, _ => Nat.le_refl _
  | t :: l, tt, h => by
      rw [List.foldl_cons]
      refine (length_expired_starts_le s fun t' ht' => ?_).trans
        (TimerTable.length_expired_start_le (h t List.mem_cons_self))
      exact h t' (List.mem_cons_of_mem _ ht')

/-- How many timers an act fires. -/
def Act.fires : Act → Nat
  | .fire .. => 1
  | _ => 0

/-- While no time passes, nothing expires, and what fires is no longer expired. -/
theorem Core.Step.expired_le (hd : TimersRun c u) {x : Act} {a b : Core tn}
    (h : Core.Step c u x a b) (hok : a.TimersOk c) (hx : ∀ e, x = .tick e → e = 0) :
    b.timers.expired.length + x.fires ≤ a.timers.expired.length := by
  cases h with
  | enter _ _ _ => exact length_expired_starts_le _ fun t ht => hd.asU64_ne_zero ht
  | leave _ =>
      simp only [cancelOwned, Act.fires]
      split
      · exact TimerTable.length_expired_cancelState_le _
      · exact Nat.le_refl _
  | @tick elapsed st tt j =>
      rw [hx elapsed rfl, TimerTable.decrement_zero, ite_self]
      exact Nat.le_refl _
  | @fire s t st tt tt' j hpop =>
      have hlen := TimerTable.length_expired_popExpired hpop
      have howned := (hok.owned (s, t)
        ((TimerTable.perm_keys_popExpired hpop).subset List.mem_cons_self)).2
      show (rearm c u s t tt').expired.length + 1 ≤ tt.expired.length
      rw [← hlen]
      unfold rearm
      split
      · exact Nat.succ_le_succ (TimerTable.length_expired_start_le (hd.asU64_ne_zero howned))
      · exact Nat.le_refl _

theorem Core.Run.expired_le (S : c.Sound) (hd : TimersRun c u) {acts : List Act} {a b : Core tn}
    (h : Core.Run c u acts a b) (hacts : ∀ x ∈ acts, ∀ e, x = .tick e → e = 0)
    (hok : a.TimersOk c) :
    b.timers.expired.length + (acts.map Act.fires).sum ≤ a.timers.expired.length := by
  induction h with
  | refl => exact Nat.le_refl _
  | note _ _ ih => exact ih hacts ⟨hok.nodup, hok.owned⟩
  | @act x acts a b d hx _ ih =>
      have h₁ := hx.expired_le hd hok (hacts x List.mem_cons_self)
      have h₂ := ih (fun y hy => hacts y (List.mem_cons_of_mem _ hy)) (hx.timersOk S hok)
      rw [List.map_cons, List.sum_cons]
      omega

/-! ## The work that waits -/

/-- Queued events and expired timers. -/
def Machine.work (m : Machine Ev Ctx qn tn) : Nat :=
  m.queue.items.length + m.timers.expired.length

theorem StepSpec.expired_le (S : c.Sound) (hd : TimersRun c u) {m m' : Machine Ev Ctx qn tn}
    (hs : StepSpec c u m 0 m') (hok : (m.core c).TimersOk c) :
    m'.timers.expired.length + ((stepActs c u m 0).map Act.fires).sum ≤
      m.timers.expired.length := by
  refine hs.run.expired_le S hd ?_ hok
  obtain ⟨acts, hacts, he | he⟩ := stepActs_cases c u m 0
  · rw [he]
    exact fun x hx e hxe => absurd hxe (hacts x hx e)
  · rw [he]
    refine List.forall_mem_cons.mpr ⟨fun e hxe => ?_, fun x hx e hxe => absurd hxe (hacts x hx e)⟩
    cases hxe
    rfl

/-- A step of a machine with something queued gets one piece of work done, unless it starts the
    machine. -/
theorem step_work (S : c.Sound) (hd : TimersRun c u) {m m' : Machine Ev Ctx qn tn}
    {next : Option Nat} (hv : m.Valid c) (hok : (m.core c).TimersOk c)
    (ht : m.terminated = false) (hq : m.queue.items ≠ [])
    (h : step c u m 0 = .ok (next, m')) (ht' : m'.terminated = false) :
    m'.current.isSome ∧ m'.work + 1 ≤
      m.work + (stepEmits c u m 0).length + if m.current.isNone then 1 else 0 := by
  have hs := step_spec_of_ok S hv h
  have hle := hs.expired_le S hd hok
  obtain ⟨rest, acc, ref, hserves⟩ := step_serves S hv ht h
  have hpops := congrArg List.length hserves.pops
  have hqueue := congrArg List.length hserves.queue
  rw [ht', if_neg (by decide), List.length_append] at hqueue
  have hemits : acc.length ≤ (stepEmits c u m 0).length := by
    rw [hserves.emits]
    simp [answered]
  rw [List.length_append] at hpops
  unfold Machine.work
  cases hs.outcome with
  | halted ht'' _ =>
      rw [ht] at ht''
      cases ht''
  | started _ hcur _ hcur' _ =>
      refine ⟨hcur', ?_⟩
      rw [hcur, Option.isNone_none, if_pos rfl]
      omega
  | fired s t tt _ hcur hpop _ _ hcur' _ =>
      refine ⟨hcur', ?_⟩
      have hnil : stepPops c m 0 = [] := by
        simp [stepPops, ht, Option.isSome_iff_ne_none.mp hcur, hpop]
      have hfires : 1 ≤ ((stepActs c u m 0).map Act.fires).sum := by
        obtain ⟨cur, hcur⟩ := Option.isSome_iff_exists.mp hcur
        simp [stepActs, ht, hcur, workActs, hpop, Act.fires]
      rw [hnil, List.length_nil] at hpops
      omega
  | idle _ _ _ hq' _ => exact absurd (Bounded.popFront_eq_none_iff.mp hq') hq
  | handled ev queue _ hcur hpop hq' _ _ _ hcur' _ =>
      refine ⟨hcur', ?_⟩
      have hone : stepPops c m 0 = [ev] := by
        simp [stepPops, ht, Option.isSome_iff_ne_none.mp hcur, hpop, hq']
      rw [hone, List.length_singleton] at hpops
      omega
  | terminated _ _ _ _ _ _ _ ht'' _ _ _ =>
      rw [ht'] at ht''
      cases ht''

/-! ## The draining loop -/

variable (c u) in
/-- The machines that a turn of the loop and the turns after it step. -/
def turnSteps (fuel : Nat) (m : Machine Ev Ctx qn tn) : List (Machine Ev Ctx qn tn) :=
  m :: match step c u m 0 with
    | .error _ => []
    | .ok (_, m₁) =>
        if m₁.overflow || m₁.terminated then [] else drainSteps c u fuel m₁.takeOverflow.2

variable (c u) in
/-- What the steps on these machines emit. -/
def emitted (ms : List (Machine Ev Ctx qn tn)) : List (Ev × Except HsmcError Unit) :=
  ms.flatMap fun x => stepEmits c u x 0

theorem length_turnSteps_le (S : c.Sound) (hd : TimersRun c u) {fuel : Nat}
    (hdrain : ∀ m : ChartMachine c Ev Ctx qn, Reachable c u m → m.terminated = false →
      m.current.isSome → (drainSteps c u fuel m).length ≤
        m.work + (emitted c u (drainSteps c u fuel m)).length)
    {m : ChartMachine c Ev Ctx qn} (h : Reachable c u m) (ht : m.terminated = false)
    (hq : m.queue.items ≠ []) :
    (turnSteps c u fuel m).length ≤
      m.work + (emitted c u (turnSteps c u fuel m)).length + if m.current.isNone then 1 else 0 := by
  obtain ⟨next, m₁, h₁, -⟩ := step_spec (u := u) S (h.valid S) 0
  have hpos : 1 ≤ m.work := by
    have := List.length_pos_iff.mpr hq
    unfold Machine.work
    omega
  unfold turnSteps emitted
  rw [List.flatMap_cons, List.length_append, List.length_cons]
  simp only [h₁]
  cases hstop : m₁.overflow || m₁.terminated with
  | true =>
      rw [if_pos rfl, List.length_nil]
      omega
  | false =>
      rw [if_neg (by decide)]
      obtain ⟨-, ht₁⟩ := Bool.or_eq_false_iff.mp hstop
      obtain ⟨hcur₁, hwork⟩ := step_work S hd (h.valid S) (h.timers_on_path S) ht hq h₁ ht₁
      have hrest := hdrain m₁.takeOverflow.2 (h.step h₁).takeOverflow ht₁ hcur₁
      have hsame : m₁.takeOverflow.2.work = m₁.work := rfl
      unfold emitted at hrest
      omega

theorem length_drainSteps_le (S : c.Sound) (hd : TimersRun c u) : ∀ (fuel : Nat)
    (m : ChartMachine c Ev Ctx qn), Reachable c u m → m.terminated = false → m.current.isSome →
    (drainSteps c u fuel m).length ≤ m.work + (emitted c u (drainSteps c u fuel m)).length
  | 0, _, _, _, _ => Nat.zero_le _
  | fuel + 1, m, h, ht, hcur => by
      unfold drainSteps
      by_cases hq : m.queue.items.isEmpty
      · rw [if_pos hq]
        exact Nat.zero_le _
      · rw [if_neg hq]
        have := length_turnSteps_le S hd (length_drainSteps_le S hd fuel) h ht (by simpa using hq)
        rwa [Option.isNone_eq_false_iff.mpr hcur, if_neg (by decide)] at this

theorem length_dispatchSteps_le (S : c.Sound) (hd : TimersRun c u) {m : ChartMachine c Ev Ctx qn}
    (h : Reachable c u m) (fuel : Nat) (ev : Ev) :
    (dispatchSteps c u fuel ev m).length ≤ (m.queue.items.length + 1) + m.timers.expired.length +
      (emitted c u (dispatchSteps c u fuel ev m)).length + if m.current.isNone then 1 else 0 := by
  unfold dispatchSteps
  split
  · exact Nat.zero_le _
  · rename_i ht
    have ht : m.terminated = false := by simpa using ht
    cases hpush : m.queue.push ev with
    | none => exact Nat.zero_le _
    | some queue =>
        have hm₁ : Reachable c u ({ m with queue } : ChartMachine c Ev Ctx qn) := by
          have := h.send ev
          rwa [send_of_push ht hpush] at this
        have hitems := Bounded.items_of_push hpush
        have hwork : ({ m with queue } : ChartMachine c Ev Ctx qn).work =
            (m.queue.items.length + 1) + m.timers.expired.length := by
          unfold Machine.work
          rw [hitems, List.length_append, List.length_singleton]
        rw [← hwork]
        simp only
        split
        · rename_i hcur
          have := length_turnSteps_le S hd (length_drainSteps_le S hd fuel) hm₁ ht
            (by rw [hitems]; simp)
          rwa [if_pos hcur] at this
        · rename_i hcur
          rw [Nat.add_zero]
          exact length_drainSteps_le S hd fuel _ hm₁ ht
            (by simpa [Option.isSome_iff_ne_none] using hcur)

/-! ## The loop returns -/

/-- What follows the step of a turn returns, if the turns after it do. -/
theorem turn_returns {fuel : Nat} {m₁ : Machine Ev Ctx qn tn}
    (hrest : (drainSteps c u fuel m₁.takeOverflow.2).length < fuel →
      ∃ r, drain c u fuel m₁.takeOverflow.2 = .ok r)
    (h : (if m₁.overflow || m₁.terminated then []
      else drainSteps c u fuel m₁.takeOverflow.2).length < fuel) :
    ∃ r, (if m₁.overflow then .ok (.error .queueFull, m₁.takeOverflow.2)
      else if m₁.terminated then .ok (.ok (), m₁.takeOverflow.2)
      else drain c u fuel m₁.takeOverflow.2) = .ok r := by
  split
  · exact ⟨_, rfl⟩
  · rename_i ho
    split
    · exact ⟨_, rfl⟩
    · rename_i ht
      rw [if_neg (by simp [ho, ht])] at h
      exact hrest h

/-- A loop that makes fewer steps than it has fuel for has come to its end. -/
theorem drain_returns (S : c.Sound) : ∀ (fuel : Nat) {m : Machine Ev Ctx qn tn}, m.Valid c →
    (drainSteps c u fuel m).length < fuel → ∃ r, drain c u fuel m = .ok r
  | 0, _, _, h => by omega
  | fuel + 1, m, hv, h => by
      unfold drainSteps at h
      unfold drain
      by_cases hq : m.queue.items.isEmpty
      · rw [if_pos hq]
        exact ⟨_, rfl⟩
      · rw [if_neg hq] at h ⊢
        obtain ⟨next, m₁, h₁, hs⟩ := step_spec (u := u) S hv 0
        simp only [h₁, List.length_cons] at h
        simp only [h₁, Except.ok_bind_eq]
        exact turn_returns
          (drain_returns S fuel ((sameCore_takeOverflow m₁).valid hs.valid))
          (Nat.lt_of_succ_lt_succ h)

theorem dispatch_returns_of_lt (S : c.Sound) {m : Machine Ev Ctx qn tn} (hv : m.Valid c)
    {fuel : Nat} {ev : Ev} (h : (dispatchSteps c u fuel ev m).length < fuel) :
    ∃ r, dispatch c u fuel ev m = .ok r := by
  unfold dispatchSteps at h
  unfold dispatch
  split
  · exact ⟨_, rfl⟩
  · rename_i ht
    rw [if_neg ht] at h
    cases hpush : m.queue.push ev with
    | none => exact ⟨_, rfl⟩
    | some queue =>
        have hv₁ : ({ m with queue } : Machine Ev Ctx qn tn).Valid c := ⟨hv.current_lt, hv.halted⟩
        simp only [hpush] at h ⊢
        split
        · rename_i hcur
          rw [if_pos hcur] at h
          obtain ⟨next, m₁, h₁, hs⟩ := step_spec (u := u) S hv₁ 0
          simp only [h₁, List.length_cons] at h
          simp only [h₁, Except.ok_bind_eq]
          exact turn_returns (drain_returns S fuel ((sameCore_takeOverflow m₁).valid hs.valid))
            (Nat.lt_of_succ_lt h)
        · rename_i hcur
          rw [if_neg hcur] at h
          exact drain_returns S fuel hv₁ h

/-- `dispatch` returns. With `q` events queued, the new one among them, and `x` timers expired,
    it makes at most `q + x` steps and one for each of the `K` events that are emitted
    meanwhile, and one more if it has to start the machine. -/
theorem dispatch_returns {input : StatechartInput} (hc : statechartImpl input = .ok c)
    (hd : TimersRun c u) {m : ChartMachine c Ev Ctx qn} (h : Reachable c u m) {fuel K : Nat}
    {ev : Ev} (hK : (emitted c u (dispatchSteps c u fuel ev m)).length ≤ K) :
    let bound := (m.queue.items.length + 1) + m.timers.expired.length + K +
      if m.current.isNone then 1 else 0
    (dispatchSteps c u fuel ev m).length ≤ bound ∧
      (bound < fuel → ∃ result m', dispatch c u fuel ev m = .ok (result, m')) := by
  obtain ⟨S⟩ := sound hc
  have hlen := length_dispatchSteps_le S hd h fuel ev
  intro bound
  have hle : (dispatchSteps c u fuel ev m).length ≤ bound := by
    show _ ≤ (m.queue.items.length + 1) + m.timers.expired.length + K + _
    omega
  refine ⟨hle, fun hfuel => ?_⟩
  obtain ⟨⟨result, m'⟩, hr⟩ := dispatch_returns_of_lt S (h.valid S) (hle.trans_lt hfuel)
  exact ⟨result, m', hr⟩

theorem lamp_timersRun : TimersRun lampChart countCode := by
  have harms : lampChart.ownedTimersArms = [(0, []), (1, []), (2, [0])] := by decide +kernel
  intro s t ht
  unfold Chart.ownedTimers Chart.arm at ht
  rw [harms] at ht
  match s, ht with
  | 2, ht =>
      cases List.mem_singleton.mp ht
      decide +kernel

theorem dispatch_returns_lamp :
    ∃ result m', dispatch lampChart countCode 4 "Toggle" lampOn = .ok (result, m') :=
  (dispatch_returns lamp_accepted lamp_timersRun lampOn_reachable (K := 0)
    (by decide +kernel)).2 (by decide +kernel)

end Hsmc
