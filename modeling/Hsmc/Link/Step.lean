import Hsmc.Link.Moves

/-
  A step of the machine is a run of the abstract machine, by the acts planned before it.

  * `fireTimer_eq`, `handleEvent_eq`: what an expired timer and an event are turned into.
  * `step_spec`: on a valid machine a step returns, keeps validity, performs `stepActs` and is
    one of six cases (`Outcome`), each with the word it journals.
-/

open Computability

namespace Hsmc

open Machine

variable {Ev Ctx Val : Type} {qn tn : Nat} {c : Chart} {u : UserCode Ev Ctx Val}

/-- The machine as the abstract machine sees it at a call boundary. -/
def Machine.core (c : Chart) (m : Machine Ev Ctx qn tn) : Core tn :=
  ⟨c.activePath m.current, m.timers, m.journal⟩

/-- What holds of the configuration at every call boundary. -/
structure Machine.Valid (c : Chart) (m : Machine Ev Ctx qn tn) : Prop where
  current_lt : ∀ s, m.current = some s → s < c.nStates
  halted : m.terminated = true → m.current = none

theorem valid_new (ctx : Ctx) : (Machine.new ctx : Machine Ev Ctx qn tn).Valid c :=
  ⟨fun _ h => (nomatch h), fun h => (nomatch h)⟩

theorem valid_of_running {m : Machine Ev Ctx qn tn} {cur : Nat} (ht : m.terminated = false)
    (hcur : m.current = some cur) (hlt : cur < c.nStates) : m.Valid c := by
  refine ⟨?_, ?_⟩
  · intro s hs
    rw [hcur] at hs
    cases hs
    exact hlt
  · intro h
    rw [ht] at h
    cases h

theorem core_of_current (S : c.Sound) {m : Machine Ev Ctx qn tn} {cur : Nat}
    (hcur : m.current = some cur) (hlt : cur < c.nStates) :
    m.core c = ⟨S.tree.up cur, m.timers, m.journal⟩ := by
  simp [Machine.core, hcur, Chart.activePath, S.pathToRoot_eq hlt]

/-- A machine at a call boundary is nested. -/
theorem Machine.Valid.nested (S : c.Sound) {m : Machine Ev Ctx qn tn} (hv : m.Valid c) :
    (m.core c).Nested S := by
  cases hcur : m.current with
  | none => exact Or.inl (by simp [Machine.core, hcur, Chart.activePath])
  | some s =>
      have hlt := hv.current_lt s hcur
      rw [core_of_current S hcur hlt]
      exact Or.inr ⟨s, hlt, rfl⟩

/-! ## Timers -/

@[simp] theorem current_decrementTimers (elapsed : Nat) (m : Machine Ev Ctx qn tn) :
    (decrementTimers c elapsed m).current = m.current := by
  unfold decrementTimers; split <;> rfl

@[simp] theorem queue_decrementTimers (elapsed : Nat) (m : Machine Ev Ctx qn tn) :
    (decrementTimers c elapsed m).queue = m.queue := by
  unfold decrementTimers; split <;> rfl

@[simp] theorem terminated_decrementTimers (elapsed : Nat) (m : Machine Ev Ctx qn tn) :
    (decrementTimers c elapsed m).terminated = m.terminated := by
  unfold decrementTimers; split <;> rfl

@[simp] theorem journal_decrementTimers (elapsed : Nat) (m : Machine Ev Ctx qn tn) :
    (decrementTimers c elapsed m).journal = m.journal := by
  unfold decrementTimers; split <;> rfl

theorem timers_decrementTimers (elapsed : Nat) (m : Machine Ev Ctx qn tn) :
    (decrementTimers c elapsed m).timers =
      if c.hasTimers then m.timers.decrement elapsed else m.timers := by
  unfold decrementTimers; split <;> rfl

theorem popExpired_of_popTimer {m : Machine Ev Ctx qn tn} {k : Nat × Nat} {tt : TimerTable tn}
    (h : popTimer c m = some (k, tt)) : m.timers.popExpired c.depth = some (k, tt) := by
  unfold popTimer at h
  split at h
  · exact h
  · cases h

/-- The machine once a popped timer is journaled and, for `every`, armed again. -/
def firedMachine (c : Chart) (u : UserCode Ev Ctx Val) (s t : Nat) (m : Machine Ev Ctx qn tn) :
    Machine Ev Ctx qn tn :=
  { m with timers := rearm c u s t m.timers, journal := m.journal ++ fireWord c u s t }

theorem fireTimer_eq (s t : Nat) (m : Machine Ev Ctx qn tn) :
    fireTimer c u s t m = dispatchTrigger c u s 1 t (firedMachine c u s t m) := by
  unfold fireTimer firedMachine rearm fireWord
  by_cases h : c.durationRepeats t
  · simp [h, startTimer, Machine.observe, armedEvent]
  · simp [h, Machine.observe]

/-! ## The branches of `step` -/

section

variable {m : Machine Ev Ctx qn tn} {elapsed cur : Nat}

theorem step_of_terminated (ht : m.terminated = true) : step c u m elapsed = .ok (none, m) := by
  unfold step
  rw [if_pos ht]

theorem step_of_fresh (ht : m.terminated = false) (hcur : m.current = none) :
    step c u m elapsed = (enterPath c u 0 (m.observe (.started c.chartHash))) >>=
      fun m' => .ok (minRemaining c m', m') := by
  unfold step
  simp [ht, hcur]

theorem step_of_timer {s t : Nat} {tt : TimerTable tn} (ht : m.terminated = false)
    (hcur : m.current = some cur)
    (hpop : popTimer c (decrementTimers c elapsed m) = some ((s, t), tt)) :
    step c u m elapsed = (fireTimer c u s t { decrementTimers c elapsed m with timers := tt }) >>=
      fun m' => .ok (m'.timers.minRemaining, m') := by
  unfold step
  simp [ht, hcur, hpop]

theorem step_of_idle (ht : m.terminated = false) (hcur : m.current = some cur)
    (hpop : popTimer c (decrementTimers c elapsed m) = none) (hq : m.queue.popFront = none) :
    step c u m elapsed =
      .ok (minRemaining c (decrementTimers c elapsed m), decrementTimers c elapsed m) := by
  unfold step
  simp [ht, hcur, hpop, hq]

theorem step_of_event {ev : Ev} {queue : Bounded Ev qn} (ht : m.terminated = false)
    (hcur : m.current = some cur) (hpop : popTimer c (decrementTimers c elapsed m) = none)
    (hq : m.queue.popFront = some (ev, queue)) (hterm : checkTerminate c u ev = false) :
    step c u m elapsed = (handleEvent c u ev ({ decrementTimers c elapsed m with queue }.observe
      (.eventReceived (eventToId c u ev)))) >>= fun m' => .ok (minRemaining c m', m') := by
  unfold step
  simp [ht, hcur, hpop, hq, hterm]

theorem step_of_terminate {ev : Ev} {queue : Bounded Ev qn} (ht : m.terminated = false)
    (hcur : m.current = some cur) (hpop : popTimer c (decrementTimers c elapsed m) = none)
    (hq : m.queue.popFront = some (ev, queue)) (hterm : checkTerminate c u ev = true) :
    step c u m elapsed = (doTerminate c u (({ decrementTimers c elapsed m with queue }.observe
      (.eventReceived (eventToId c u ev))).observe (.terminateRequested (eventToId c u ev)))) >>=
      fun m' => .ok (none, m') := by
  unfold step
  simp [ht, hcur, hpop, hq, hterm]

end

variable (S : c.Sound)
include S

theorem fireTimer_goes {cur : Nat} (hlt : cur < c.nStates) (s t : Nat)
    {m : Machine Ev Ctx qn tn} (hcur : m.current = some cur) (ht : m.terminated = false) :
    ∃ m' cur', fireTimer c u s t m = .ok m' ∧ m'.current = some cur' ∧ cur' < c.nStates ∧
      Goes c u (c.handlerActs cur ((c.handlerLookup s 1 t).bind (·.2)))
        (handlerWords s (.timer s t)) (S.tree.up cur) (firedMachine c u s t m)
        (S.tree.up cur') m' := by
  rw [fireTimer_eq]
  unfold dispatchTrigger
  cases hlook : c.handlerLookup s 1 t with
  | none =>
      refine ⟨_, cur, rfl, hcur, hlt, ?_⟩
      have hword : (1 : Language TraceEvent) ≤ handlerWords s (.timer s t) := by
        rintro w rfl
        exact Language.append_mem_mul (Language.nil_mem_kstar _) Language.nil_mem_one_add
      exact (Goes.refl _ _).mono hword
  | some g =>
      obtain ⟨aids, target⟩ := g
      exact runHandlers_goes (u := u) S hlt s aids (fun t' h => S.handler_target_lt hlook h) none
        (.timer s t) (m := firedMachine c u s t m) hcur ht

/-! ## Events -/

theorem eventToId_cases (ev : Ev) : eventToId c u ev = u16Max ∨ eventToId c u ev < c.nEvents := by
  unfold eventToId Chart.arm
  cases h : c.eventVariantArms.lookup (u.variant ev) with
  | none => exact Or.inl rfl
  | some v => exact Or.inr (S.eventId_lt h)

/-- An event without an id is handled nowhere. -/
theorem bubbleUp_u16Max {s : Nat} (hs : s < c.nStates) : c.bubbleUp s u16Max = none := by
  cases h : c.bubbleUp s u16Max with
  | none => rfl
  | some p =>
      obtain ⟨h', g⟩ := p
      have := S.handler_event_lt (S.bubbleUp_some hs h).2.2
      have := S.nEvents_le
      omega

/-- The event block of `step` is the bubbling search: an event nobody on the path handles is
    dropped, and any other is run by the innermost state that handles it. -/
theorem handleEvent_eq {cur : Nat} (hlt : cur < c.nStates) (ev : Ev)
    {m : Machine Ev Ctx qn tn} (hcur : m.current = some cur) :
    handleEvent c u ev m = match c.bubbleUp cur (eventToId c u ev) with
      | none => .ok (m.observe (.eventDropped (eventToId c u ev)))
      | some (h, g) => runHandlers c u h g.1 g.2 (some ev) (.event (eventToId c u ev))
          (m.observe (.eventDelivered h (eventToId c u ev))) := by
  unfold handleEvent
  rcases eventToId_cases (u := u) S ev with hid | hid
  · simp only [hid, ↓reduceIte, bubbleUp_u16Max S hlt]
  · have hne : eventToId c u ev ≠ u16Max := by
      have := S.nEvents_le
      omega
    simp only [if_neg hne, hcur, getUnchecked_of_some (S.dispatch_eq hlt hid), Except.ok_bind_eq]
    cases hb : c.bubbleUp cur (eventToId c u ev) with
    | none => simp
    | some p =>
        obtain ⟨h, g⟩ := p
        have hh : h ≠ u16Max := by
          have := (S.bubbleUp_some hlt hb).2.1
          have := S.nStates_le
          unfold u16Max
          omega
        simp [hh]

/-- What an event that does not terminate the machine journals after it was received. -/
def eventWords (v : Nat) : Language TraceEvent :=
  evt (.eventDropped v) + ⨆ h, evt (.eventDelivered h v) * handlerWords h (.event v)

theorem handleEvent_goes {cur : Nat} (hlt : cur < c.nStates) (ev : Ev)
    {m : Machine Ev Ctx qn tn} (hcur : m.current = some cur) (ht : m.terminated = false) :
    ∃ m' cur', handleEvent c u ev m = .ok m' ∧ m'.current = some cur' ∧ cur' < c.nStates ∧
      Goes c u (match c.bubbleUp cur (eventToId c u ev) with
        | some (_, _, target) => c.handlerActs cur target
        | none => []) (eventWords (eventToId c u ev)) (S.tree.up cur) m (S.tree.up cur') m' := by
  rw [handleEvent_eq S hlt ev hcur]
  cases hb : c.bubbleUp cur (eventToId c u ev) with
  | none =>
      refine ⟨_, cur, rfl, hcur, hlt, ?_⟩
      have hpl : Core.Plain c (.eventDropped (eventToId c u ev)) := trivial
      exact (Goes.observe (u := u) hpl _ _).mono le_self_add
  | some p =>
      obtain ⟨h, aids, target⟩ := p
      obtain ⟨-, -, hlook⟩ := S.bubbleUp_some hlt hb
      obtain ⟨m', cur', hm', hcur', hlt', hg⟩ := runHandlers_goes (u := u) S hlt h aids
        (fun t h' => S.handler_target_lt hlook h') (some ev) (.event (eventToId c u ev))
        (m := m.observe (.eventDelivered h (eventToId c u ev))) hcur ht
      refine ⟨m', cur', hm', hcur', hlt', ?_⟩
      have hpl : Core.Plain c (.eventDelivered h (eventToId c u ev)) := trivial
      have := (Goes.observe (u := u) hpl (S.tree.up cur) m).trans hg
      rw [List.nil_append] at this
      exact this.mono (le_trans (le_iSup (fun h => evt (.eventDelivered h (eventToId c u ev)) *
        handlerWords h (.event (eventToId c u ev))) h) le_add_self)

/-! ## The step -/

/-- The six things a step can turn out to be. -/
inductive Outcome (c : Chart) (u : UserCode Ev Ctx Val) (m : Machine Ev Ctx qn tn) (elapsed : Nat)
    (m' : Machine Ev Ctx qn tn) : Prop where
  | halted (ht : m.terminated = true) (he : m' = m)
  | started (ht : m.terminated = false) (hcur : m.current = none)
      (ht' : m'.terminated = false) (hcur' : m'.current.isSome)
      (hj : Appends (startWords c.chartHash) m.journal m'.journal)
  | fired (s t : Nat) (tt : TimerTable tn) (ht : m.terminated = false) (hcur : m.current.isSome)
      (hpop : popTimer c (decrementTimers c elapsed m) = some ((s, t), tt))
      (hfire : fireTimer c u s t { decrementTimers c elapsed m with timers := tt } = .ok m')
      (ht' : m'.terminated = false) (hcur' : m'.current.isSome)
      (hj : Appends timerUnit m.journal m'.journal)
  | idle (ht : m.terminated = false) (hcur : m.current.isSome)
      (hpop : popTimer c (decrementTimers c elapsed m) = none)
      (hq : m.queue.popFront = none) (he : m' = decrementTimers c elapsed m)
  | handled (ev : Ev) (queue : Bounded Ev qn) (ht : m.terminated = false)
      (hcur : m.current.isSome)
      (hpop : popTimer c (decrementTimers c elapsed m) = none)
      (hq : m.queue.popFront = some (ev, queue)) (hterm : checkTerminate c u ev = false)
      (hhandle : handleEvent c u ev ({ decrementTimers c elapsed m with queue }.observe
        (.eventReceived (eventToId c u ev))) = .ok m')
      (ht' : m'.terminated = false) (hcur' : m'.current.isSome)
      (hj : Appends eventUnit m.journal m'.journal)
  | terminated (ev : Ev) (queue : Bounded Ev qn) (ht : m.terminated = false)
      (hcur : m.current.isSome)
      (hpop : popTimer c (decrementTimers c elapsed m) = none)
      (hq : m.queue.popFront = some (ev, queue)) (hterm : checkTerminate c u ev = true)
      (ht' : m'.terminated = true) (hcur' : m'.current = none) (hq' : m'.queue = Bounded.empty)
      (hj : Appends terminateUnit m.journal m'.journal)

structure StepSpec (c : Chart) (u : UserCode Ev Ctx Val) (m : Machine Ev Ctx qn tn)
    (elapsed : Nat) (m' : Machine Ev Ctx qn tn) : Prop where
  valid : m'.Valid c
  run : Core.Run c u (stepActs c u m elapsed) (m.core c) (m'.core c)
  outcome : Outcome c u m elapsed m'

/-- The acts of a running machine's step begin with the time that passed. -/
theorem run_of_work {m m₁ m' : Machine Ev Ctx qn tn} {elapsed cur cur' : Nat}
    (ht : m.terminated = false) (hcur : m.current = some cur) (hlt : cur < c.nStates)
    (hcur' : m'.current = some cur') (hlt' : cur' < c.nStates)
    (hm₁ : m₁ = decrementTimers c elapsed m)
    (h : Core.Run c u (workActs c u cur m₁) ⟨S.tree.up cur, m₁.timers, m₁.journal⟩
      ⟨S.tree.up cur', m'.timers, m'.journal⟩) :
    Core.Run c u (stepActs c u m elapsed) (m.core c) (m'.core c) := by
  rw [core_of_current S hcur hlt, core_of_current S hcur' hlt']
  unfold stepActs
  rw [ht, hcur]
  subst hm₁
  rw [timers_decrementTimers, journal_decrementTimers] at h
  exact .act .tick h

theorem step_started {m : Machine Ev Ctx qn tn} (elapsed : Nat) (ht : m.terminated = false)
    (hcur : m.current = none) :
    ∃ next m', step c u m elapsed = .ok (next, m') ∧ StepSpec c u m elapsed m' := by
  obtain ⟨m', cur', hm', hcur', hlt', hg⟩ :=
    enterPath_goes (u := u) S (m := m.observe (.started c.chartHash)) ht
  have ht' : m'.terminated = false := hg.terminated.trans ht
  refine ⟨minRemaining c m', m', ?_, valid_of_running ht' hcur' hlt', ?_, ?_⟩
  · rw [step_of_fresh ht hcur]
    exact Except.bind_eq_ok.mpr ⟨m', hm', rfl⟩
  · rw [core_of_current S hcur' hlt']
    unfold stepActs Machine.core
    rw [ht, hcur]
    have hpl : ∀ e ∈ [TraceEvent.started c.chartHash], Core.Plain c e := by simp [Core.Plain]
    exact .note hpl hg.run
  · refine .started ht hcur ht' (by rw [hcur']; rfl) ?_
    have := (Appends.of_mem (mem_evt (.started c.chartHash)) m.journal).trans hg.journal
    rwa [← mul_assoc] at this

theorem step_fired {m : Machine Ev Ctx qn tn} {elapsed cur s t : Nat} {tt : TimerTable tn}
    (ht : m.terminated = false) (hcur : m.current = some cur) (hlt : cur < c.nStates)
    (hpop : popTimer c (decrementTimers c elapsed m) = some ((s, t), tt)) :
    ∃ next m', step c u m elapsed = .ok (next, m') ∧ StepSpec c u m elapsed m' := by
  have hpop' := popExpired_of_popTimer hpop
  obtain ⟨m', cur', hm', hcur', hlt', hg⟩ := fireTimer_goes (u := u) S hlt s t
    (m := { decrementTimers c elapsed m with timers := tt }) (by simpa using hcur)
    (by simpa using ht)
  have ht' : m'.terminated = false := by
    rw [hg.terminated]
    simpa [firedMachine] using ht
  have hstep : Core.Step c u (.fire s t)
      ⟨S.tree.up cur, (decrementTimers c elapsed m).timers, (decrementTimers c elapsed m).journal⟩
      _ := .fire hpop'
  refine ⟨m'.timers.minRemaining, m', ?_, valid_of_running ht' hcur' hlt', ?_, ?_⟩
  · rw [step_of_timer ht hcur hpop]
    exact Except.bind_eq_ok.mpr ⟨m', hm', rfl⟩
  · refine run_of_work S ht hcur hlt hcur' hlt' rfl ?_
    unfold workActs
    rw [hpop]
    exact .act hstep hg.run
  · refine .fired s t tt ht (by rw [hcur]; rfl) hpop hm' ht' (by rw [hcur']; rfl) ?_
    have := (Appends.of_mem (fireWord_mem c u s t) m.journal).trans
      (by simpa [firedMachine] using hg.journal)
    exact this.mono (le_iSup_of_le s (le_iSup_of_le t le_rfl))

theorem step_idle {m : Machine Ev Ctx qn tn} {elapsed cur : Nat}
    (ht : m.terminated = false) (hcur : m.current = some cur) (hlt : cur < c.nStates)
    (hpop : popTimer c (decrementTimers c elapsed m) = none) (hq : m.queue.popFront = none) :
    ∃ next m', step c u m elapsed = .ok (next, m') ∧ StepSpec c u m elapsed m' := by
  refine ⟨minRemaining c (decrementTimers c elapsed m), decrementTimers c elapsed m,
    step_of_idle ht hcur hpop hq,
    valid_of_running (by simpa using ht) (by simpa using hcur) hlt, ?_,
    .idle ht (by rw [hcur]; rfl) hpop hq rfl⟩
  refine run_of_work S ht hcur hlt (by simpa using hcur) hlt rfl ?_
  unfold workActs
  simp only [hpop, queue_decrementTimers, hq]
  exact .refl

theorem step_handled {m : Machine Ev Ctx qn tn} {elapsed cur : Nat} {ev : Ev}
    {queue : Bounded Ev qn} (ht : m.terminated = false) (hcur : m.current = some cur)
    (hlt : cur < c.nStates) (hpop : popTimer c (decrementTimers c elapsed m) = none)
    (hq : m.queue.popFront = some (ev, queue)) (hterm : checkTerminate c u ev = false) :
    ∃ next m', step c u m elapsed = .ok (next, m') ∧ StepSpec c u m elapsed m' := by
  obtain ⟨m', cur', hm', hcur', hlt', hg⟩ := handleEvent_goes (u := u) S hlt ev
    (m := { decrementTimers c elapsed m with queue }.observe (.eventReceived (eventToId c u ev)))
    (by simpa using hcur) (by simpa using ht)
  have ht' : m'.terminated = false := by
    rw [hg.terminated]
    simpa using ht
  have hpl : ∀ e ∈ [TraceEvent.eventReceived (eventToId c u ev)], Core.Plain c e := by
    simp [Core.Plain]
  refine ⟨minRemaining c m', m', ?_, valid_of_running ht' hcur' hlt', ?_, ?_⟩
  · rw [step_of_event ht hcur hpop hq hterm]
    exact Except.bind_eq_ok.mpr ⟨m', hm', rfl⟩
  · refine run_of_work S ht hcur hlt hcur' hlt' rfl ?_
    unfold workActs eventActs
    simp only [hpop, queue_decrementTimers, hq, hterm, Bool.false_eq_true, ↓reduceIte]
    exact .note hpl hg.run
  · refine .handled ev queue ht (by rw [hcur]; rfl) hpop hq hterm hm' ht' (by rw [hcur']; rfl) ?_
    have := (Appends.of_mem (mem_evt (.eventReceived (eventToId c u ev))) m.journal).trans
      (by simpa using hg.journal)
    exact this.mono (le_iSup_of_le (eventToId c u ev) le_rfl)

theorem step_terminated {m : Machine Ev Ctx qn tn} {elapsed cur : Nat} {ev : Ev}
    {queue : Bounded Ev qn} (ht : m.terminated = false) (hcur : m.current = some cur)
    (hlt : cur < c.nStates) (hpop : popTimer c (decrementTimers c elapsed m) = none)
    (hq : m.queue.popFront = some (ev, queue)) (hterm : checkTerminate c u ev = true) :
    ∃ next m', step c u m elapsed = .ok (next, m') ∧ next = none ∧ StepSpec c u m elapsed m' := by
  obtain ⟨m', hm', ht', hcur', hq', hrun, hj⟩ := doTerminate_goes (u := u) S hlt
    (m := ({ decrementTimers c elapsed m with queue }.observe
      (.eventReceived (eventToId c u ev))).observe (.terminateRequested (eventToId c u ev)))
    (by simpa using hcur) (by simpa using ht)
  have hpl : ∀ e ∈ [TraceEvent.eventReceived (eventToId c u ev),
      TraceEvent.terminateRequested (eventToId c u ev)], Core.Plain c e := by
    simp [Core.Plain]
  refine ⟨none, m', ?_, rfl, ⟨by simp [hcur'], fun _ => hcur'⟩, ?_, ?_⟩
  · rw [step_of_terminate ht hcur hpop hq hterm]
    exact Except.bind_eq_ok.mpr ⟨m', hm', rfl⟩
  · rw [core_of_current S hcur hlt]
    unfold stepActs workActs eventActs Machine.core
    simp only [ht, hcur, hpop, queue_decrementTimers, hq, hterm, hcur', Chart.activePath,
      Bool.false_eq_true, ↓reduceIte]
    refine .act .tick (.note hpl ?_)
    simpa [timers_decrementTimers] using hrun
  · refine .terminated ev queue ht (by rw [hcur]; rfl) hpop hq hterm ht' hcur' hq' ?_
    have := ((Appends.of_mem (mem_evt (.eventReceived (eventToId c u ev))) m.journal).trans
      (Appends.of_mem (mem_evt (.terminateRequested (eventToId c u ev))) _)).trans
      (by simpa using hj)
    rw [← mul_assoc] at this
    exact this.mono (le_iSup_of_le (eventToId c u ev) le_rfl)

/-- On a valid machine a step returns, and does what was planned. -/
theorem step_spec {m : Machine Ev Ctx qn tn} (hv : m.Valid c) (elapsed : Nat) :
    ∃ next m', step c u m elapsed = .ok (next, m') ∧ StepSpec c u m elapsed m' := by
  cases ht : m.terminated with
  | true =>
      refine ⟨none, m, step_of_terminated ht, hv, ?_, .halted ht rfl⟩
      unfold stepActs
      rw [ht]
      exact .refl
  | false =>
      cases hcur : m.current with
      | none => exact step_started S elapsed ht hcur
      | some cur =>
          have hlt := hv.current_lt cur hcur
          cases hpop : popTimer c (decrementTimers c elapsed m) with
          | some p =>
              obtain ⟨⟨s, t⟩, tt⟩ := p
              exact step_fired S ht hcur hlt hpop
          | none =>
              cases hq : m.queue.popFront with
              | none => exact step_idle S ht hcur hlt hpop hq
              | some p =>
                  obtain ⟨ev, queue⟩ := p
                  cases hterm : checkTerminate c u ev with
                  | true =>
                      obtain ⟨next, m', h, -, hs⟩ := step_terminated S ht hcur hlt hpop hq hterm
                      exact ⟨next, m', h, hs⟩
                  | false => exact step_handled S ht hcur hlt hpop hq hterm

theorem step_spec_of_ok {m m' : Machine Ev Ctx qn tn} (hv : m.Valid c) {elapsed : Nat}
    {next : Option Nat} (h : step c u m elapsed = .ok (next, m')) : StepSpec c u m elapsed m' := by
  obtain ⟨next', m'', h', hs⟩ := step_spec (u := u) S hv elapsed
  rw [h] at h'
  cases h'
  exact hs

end Hsmc
