import Hsmc.Link.Granted

/-
  Emits of the shutdown.

  `do_terminate` runs the exit actions first and sets the terminated flag after them, so `emit`
  does not refuse there. `shutdown_refuses_iff`: the shutdown keeps the promise of `emit`
  (`AlreadyTerminated` if the machine is shutting down) exactly when its exit actions emit
  nothing.
-/

namespace Hsmc

open Machine

variable {Ev Ctx Val : Type} {qn tn : Nat} {c : Chart} {u : UserCode Ev Ctx Val}

/-- Once `TerminateRequested` is journaled every emit is refused as terminated: none changes the
    queue that the exits run on, none is journaled as queued and none is discarded. -/
structure ShutdownRefuses (c : Chart) (u : UserCode Ev Ctx Val) (m : Machine Ev Ctx qn tn)
    (elapsed : Nat) (ev : Ev) (queue : Bounded Ev qn) (cur : Nat) (m' : Machine Ev Ctx qn tn) :
    Prop where
  answers : ∀ e ∈ stepEmits c u m elapsed, e.2 = .error .alreadyTerminated
  unchanged : (exitAll c u cur (terminating c u elapsed ev queue m)).queue.items = queue.items
  journal : ∃ w, m'.journal = (terminating c u elapsed ev queue m).journal ++ w ∧
    ∀ v, .emitQueued v ∉ w
  kept : accepted (stepEmits c u m elapsed) = []

theorem not_mem_of_filter_eq_nil {w : List TraceEvent} (h : w.filter TraceEvent.isEmit = [])
    (v : Nat) : .emitQueued v ∉ w := by
  intro hv
  have := List.filter_eq_nil_iff.mp h _ hv
  exact this rfl

/-- Emits of a step are answered `Ok` or `QueueFull`. -/
theorem eq_nil_of_answered {acc ref : List Ev}
    (h : ∀ e ∈ answered acc ref, e.2 = .error .alreadyTerminated) : answered acc ref = [] := by
  rw [List.eq_nil_iff_forall_not_mem]
  intro e he
  have hans := h e he
  unfold answered at he
  rcases List.mem_append.mp he with he | he
  · obtain ⟨x, -, rfl⟩ := List.mem_map.mp he
    cases hans
  · obtain ⟨x, -, rfl⟩ := List.mem_map.mp he
    cases hans

section

variable {m m' : Machine Ev Ctx qn tn} {elapsed cur : Nat} {ev : Ev} {queue : Bounded Ev qn}
  {next : Option Nat}

theorem filter_terminating : (terminating c u elapsed ev queue m).journal.filter
    TraceEvent.isEmit = m.journal.filter TraceEvent.isEmit := by
  simp [terminating, TraceEvent.isEmit]

/-- A step that pops the terminate event refuses its emits exactly when there are none. -/
theorem step_refuses_iff (S : c.Sound) (ht : m.terminated = false) (hcur : m.current = some cur)
    (hlt : cur < c.nStates) (hpop : popTimer c (decrementTimers c elapsed m) = none)
    (hq : m.queue.popFront = some (ev, queue)) (hterm : checkTerminate c u ev = true)
    (h : step c u m elapsed = .ok (next, m')) :
    ShutdownRefuses c u m elapsed ev queue cur m' ↔
      exitEmits c u (c.pathToRoot cur) m.ctx = [] := by
  rw [← exits_emits_eq_nil_iff S ht hcur hlt hpop hq hterm h]
  obtain ⟨acc, ref, hs, hqueue⟩ := serves_terminate S ht hcur hlt hpop hq hterm h
  constructor
  · intro hr
    have := hr.answers
    rw [hs.emits] at this ⊢
    exact eq_nil_of_answered this
  · intro hnil
    have hacc : acc = [] := by
      have := congrArg accepted (hs.emits.symm.trans hnil)
      rwa [accepted_answered] at this
    refine ⟨by simp [hnil], by rw [hqueue, hacc, List.append_nil], ?_, by rw [hnil]; rfl⟩
    rw [step_terminate_eq S ht hcur hlt hpop hq hterm] at h
    have hprefix : (terminating c u elapsed ev queue m).journal <+: m'.journal := by
      cases h
      obtain ⟨-, hg⟩ := exitStates_goes (c := c) (u := u) (c.pathToRoot cur) []
        (m := terminating c u elapsed ev queue m) (by simpa [terminating] using ht)
      exact (hg.run.journal_prefix).trans ⟨[.terminated], rfl⟩
    obtain ⟨w, hw⟩ := hprefix
    refine ⟨w, hw.symm, fun v => not_mem_of_filter_eq_nil ?_ v⟩
    have hj := hs.journal
    rw [hnil, ← hw, List.filter_append, filter_terminating] at hj
    simpa using hj

end

/-- In every run, a step that pops the terminate event keeps emit's promise exactly when the
    exit actions of the active path emit nothing. -/
theorem shutdown_refuses_iff {input : StatechartInput} (hc : statechartImpl input = .ok c)
    {m m' : ChartMachine c Ev Ctx qn} (hm : Reachable c u m) {elapsed cur : Nat} {ev : Ev}
    {queue : Bounded Ev qn} {next : Option Nat} (ht : m.terminated = false)
    (hcur : m.current = some cur) (hpop : popTimer c (decrementTimers c elapsed m) = none)
    (hq : m.queue.popFront = some (ev, queue)) (hterm : checkTerminate c u ev = true)
    (h : step c u m elapsed = .ok (next, m')) :
    m' = (exitAll c u cur (terminating c u elapsed ev queue m)).halt ∧
    (ShutdownRefuses c u m elapsed ev queue cur m' ↔
      exitEmits c u (c.pathToRoot cur) m.ctx = []) := by
  obtain ⟨S⟩ := sound hc
  have hlt := (hm.valid S).current_lt cur hcur
  refine ⟨?_, step_refuses_iff S ht hcur hlt hpop hq hterm h⟩
  rw [step_terminate_eq S ht hcur hlt hpop hq hterm] at h
  cases h
  rfl

/-! ## The relay -/

theorem relayStart_isOk : (step relayChart (relayCode 0 1)
    (.new () : ChartMachine relayChart Ident Unit 4) 0).isOk = true := by
  decide +kernel

/-- The relay at rest, told to stop. -/
def relayStopping : ChartMachine relayChart Ident Unit 4 :=
  ((Except.get _ relayStart_isOk).2.send "Stop").2

theorem relayStopping_reachable : Reachable relayChart (relayCode 0 1) relayStopping :=
  .send "Stop" (.step (.new ()) (Except.eq_ok_get _ relayStart_isOk))

theorem relayStopping_isOk : (step relayChart (relayCode 0 1) relayStopping 0).isOk = true := by
  decide +kernel

def relayStopped : ChartMachine relayChart Ident Unit 4 := (Except.get _ relayStopping_isOk).2

theorem shutdown_refuses_iff_relay :
    relayStopped =
      (exitAll relayChart (relayCode 0 1) 1
        (terminating relayChart (relayCode 0 1) 0 "Stop" Bounded.empty relayStopping)).halt ∧
    (ShutdownRefuses relayChart (relayCode 0 1) relayStopping 0 "Stop" Bounded.empty 1
        relayStopped ↔
      exitEmits relayChart (relayCode 0 1) (relayChart.pathToRoot 1) relayStopping.ctx = []) :=
  have hq : relayStopping.queue.popFront = some ("Stop", Bounded.empty) := by decide +kernel
  shutdown_refuses_iff relay_accepted relayStopping_reachable (by decide +kernel)
    (by decide +kernel) (by decide +kernel) hq (by decide +kernel)
    (Except.eq_ok_get _ relayStopping_isOk)

/-- Parting emits once: the emit is accepted, journaled as queued after `TerminateRequested`,
    and then discarded. -/
theorem shutdown_accepts_emit : statechartImpl relay = .ok relayChart ∧
    Reachable relayChart (relayCode 0 1) relayStopping ∧
    (∃ next, step relayChart (relayCode 0 1) relayStopping 0 = .ok (next, relayStopped)) ∧
    stepEmits relayChart (relayCode 0 1) relayStopping 0 = [("Ping", .ok ())] ∧
    relayStopped.journal = relayStopping.journal ++ [.eventReceived 1, .terminateRequested 1,
      .exitBegan 1, .actionInvoked 1 1 .exit, .emitQueued 0, .exited 1, .exitBegan 0, .exited 0,
      .terminated] ∧
    relayStopped.queue.items = [] ∧
    ¬ ShutdownRefuses relayChart (relayCode 0 1) relayStopping 0 "Stop" Bounded.empty 1
      relayStopped := by
  have hemits : stepEmits relayChart (relayCode 0 1) relayStopping 0 = [("Ping", .ok ())] := by
    decide +kernel
  refine ⟨relay_accepted, relayStopping_reachable, ⟨_, Except.eq_ok_get _ relayStopping_isOk⟩,
    hemits, by decide +kernel, by decide +kernel, ?_⟩
  intro hr
  have := hr.kept
  rw [hemits] at this
  cases this

end Hsmc
