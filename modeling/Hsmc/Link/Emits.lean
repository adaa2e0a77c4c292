import Hsmc.Lib.Offers
import Hsmc.Link.Reach
import Hsmc.Link.Simulate
import Hsmc.Runtime.Emits

/-
  The emits of a step, and what they do to the queue.

  A step of the recording machine is a step of the machine (`Records`), and what it recorded is
  a round of offers to the queue the step left after its pop: first the emits that were
  accepted, then those refused, each with its journal entry.
-/

open Computability

namespace Hsmc

open Machine

variable {Ev Ctx Val : Type} {qn tn : Nat} {c : Chart} {u : UserCode Ev Ctx Val}

/-- Emits that were answered: `acc` was accepted, then `ref` refused. -/
def answered (acc ref : List Ev) : List (Ev × Except HsmcError Unit) :=
  acc.map (fun ev => (ev, .ok ())) ++ ref.map (fun ev => (ev, .error .queueFull))

@[simp] theorem accepted_answered (acc ref : List Ev) : accepted (answered acc ref) = acc := by
  simp [accepted, answered, List.filterMap_append, List.filterMap_map]

theorem answered_append_accept (acc : List Ev) (ev : Ev) :
    answered acc [] ++ [(ev, .ok ())] = answered (acc ++ [ev]) [] := by
  simp [answered]

theorem answered_append_refuse (acc ref : List Ev) (ev : Ev) :
    answered acc ref ++ [(ev, .error .queueFull)] = answered acc (ref ++ [ev]) := by
  simp [answered]

theorem emitFails_answered {acc ref : List Ev} : EmitFails (answered acc ref) ↔ ref ≠ [] := by
  unfold EmitFails answered
  constructor
  · rintro ⟨e, he, hfail⟩ rfl
    rw [List.map_nil, List.append_nil] at he
    obtain ⟨ev, -, rfl⟩ := List.mem_map.mp he
    cases hfail
  · intro hne
    obtain ⟨ev, hev⟩ := List.exists_mem_of_ne_nil ref hne
    exact ⟨_, List.mem_append_right _ (List.mem_map.mpr ⟨ev, hev, rfl⟩), rfl⟩

/-- The journal entry of an answered emit. -/
def emitEntry (c : Chart) (u : UserCode Ev Ctx Val) (e : Ev × Except HsmcError Unit) :
    TraceEvent :=
  match e.2 with
  | .ok () => .emitQueued (eventToId c u e.1)
  | .error _ => .emitFailed (eventToId c u e.1)

theorem filter_emit {j : List TraceEvent} {e : TraceEvent} (he : e.isEmit = true) :
    (j ++ [e]).filter TraceEvent.isEmit = j.filter TraceEvent.isEmit ++ [e] := by
  rw [List.filter_append, List.filter_cons_of_pos he, List.filter_nil]

/-! ## The recording machine beside the machine -/

/-- The two machines are the same up to the context. `log` is what was emitted since the queue
    was `q`, the overflow flag `shut` and the emits in the journal `j`. -/
structure Noted (c : Chart) (u : UserCode Ev Ctx Val) (q : List Ev) (shut : Bool)
    (j : List TraceEvent) (log : List (Ev × Except HsmcError Unit)) (m : Machine Ev Ctx qn tn)
    (r : Machine Ev (Recorded Ev Ctx) qn tn) : Prop where
  same : m = { r with ctx := m.ctx }
  running : m.terminated = false
  offered : ∃ acc ref, log = answered acc ref ∧
    Offered qn q shut acc ref m.queue.items m.overflow
  journal : m.journal.filter TraceEvent.isEmit = j ++ log.map (emitEntry c u)

theorem emit_noted {q : List Ev} {shut : Bool} {j : List TraceEvent}
    {log : List (Ev × Except HsmcError Unit)} {m : Machine Ev Ctx qn tn}
    {r : Machine Ev (Recorded Ev Ctx) qn tn} (ev : Ev) (h : Noted c u q shut j log m r) :
    (emit c u.recording ev r).1 = (emit c u ev m).1 ∧
      Noted c u q shut j (log ++ [(ev, (emit c u ev m).1)]) (emit c u ev m).2
        (emit c u.recording ev r).2 := by
  obtain ⟨acc, ref, rfl, hoff⟩ := h.offered
  have hj := h.journal
  have hqueue : m.queue = r.queue := congrArg Machine.queue h.same
  have hoverflow : m.overflow = r.overflow := congrArg Machine.overflow h.same
  have htr : r.terminated = false := (congrArg Machine.terminated h.same).symm.trans h.running
  have hid : eventToId c u.recording ev = eventToId c u ev := rfl
  rcases emit_cases ev m with ⟨ho, queue, hpush⟩ | hrefused
  · rw [ho] at hoff
    obtain ⟨-, rfl⟩ := hoff.ref_eq_nil
    rw [emit_of_push h.running ho hpush,
      emit_of_push htr (hoverflow.symm.trans ho) (by rw [← hpush, hqueue]), hid]
    refine ⟨rfl, ?_, h.running, ⟨acc ++ [ev], [], answered_append_accept acc ev, ?_⟩, ?_⟩
    · rw [h.same]
      rfl
    · rw [queue_observe, Bounded.items_of_push hpush, overflow_observe, ho]
      exact hoff.accept ev (Bounded.lt_of_push hpush)
    · rw [journal_observe, filter_emit rfl, hj]
      simp [emitEntry]
  · have hrefused' : r.overflow = true ∨ r.queue.push ev = none := by
      rwa [hoverflow, hqueue] at hrefused
    rw [emit_of_refused h.running hrefused, emit_of_refused htr hrefused', hid]
    refine ⟨rfl, ?_, h.running, ⟨acc, ref ++ [ev], answered_append_refuse acc ref ev,
      hoff.refuse ev (hrefused.imp id Bounded.le_of_push_eq_none)⟩, ?_⟩
    · rw [h.same]
      rfl
    · rw [journal_observe, filter_emit rfl, hj]
      simp [emitEntry]

/-- The recording machine, between two actions. -/
structure Records (c : Chart) (u : UserCode Ev Ctx Val) (q : List Ev) (shut : Bool)
    (j : List TraceEvent) (m : Machine Ev Ctx qn tn) (r : Machine Ev (Recorded Ev Ctx) qn tn) :
    Prop where
  noted : Noted c u q shut j r.ctx.emits m r
  ctx : r.ctx.ctx = m.ctx

theorem runBody_records {q : List Ev} {shut : Bool} {j : List TraceEvent} (b : Body Ev Ctx) :
    ∀ {log : List (Ev × Except HsmcError Unit)} {m : Machine Ev Ctx qn tn}
      {r : Machine Ev (Recorded Ev Ctx) qn tn}, Noted c u q shut j log m r →
      Records c u q shut j (runBody c u b m) (runBody c u.recording (b.record log) r) := by
  induction b with
  | done ctx =>
      intro log m r h
      refine ⟨⟨?_, h.running, h.offered, h.journal⟩, rfl⟩
      have hs := h.same
      unfold runBody Body.record
      rw [hs]
  | emit ev next ih =>
      intro log m r h
      obtain ⟨he, h'⟩ := emit_noted ev h
      unfold Body.record runBody
      simp only [he]
      exact ih _ h'

theorem runAction_records {q : List Ev} {shut : Bool} {j : List TraceEvent}
    {m : Machine Ev Ctx qn tn} {r : Machine Ev (Recorded Ev Ctx) qn tn} (aid : Nat)
    (event : Option Ev) (h : Records c u q shut j m r) :
    Records c u q shut j (runAction c u aid event m) (runAction c u.recording aid event r) := by
  have hbody : ∀ name args, Records c u q shut j (runBody c u (u.method name args m.ctx) m)
      (runBody c u.recording (u.recording.method name args r.ctx) r) := by
    intro name args
    have := runBody_records (u.method name args m.ctx) h.noted
    rwa [← h.ctx] at this ⊢
  unfold runAction
  cases c.actionArms.lookup aid with
  | none => exact h
  | some a =>
      simp only
      split
      · exact hbody a.name []
      · cases event with
        | none => exact h
        | some ev =>
            have hv : u.recording.variant ev = u.variant ev := rfl
            simp only [hv]
            cases a.boundVariants.find? fun bv => bv.name == u.variant ev with
            | none => exact h
            | some bv => exact hbody a.name (payloadArgs u a.params bv.kind ev)

theorem records_simulation (q : List Ev) (shut : Bool) (j : List TraceEvent) :
    Simulation c u u.recording
      (Records c u q shut j :
        Machine Ev Ctx qn tn → Machine Ev (Recorded Ev Ctx) qn tn → Prop) where
  variant := rfl
  duration := rfl
  running h := by
    have hs := congrArg Machine.terminated h.noted.same
    exact ⟨h.noted.running, hs.symm.trans h.noted.running⟩
  current h := (congrArg Machine.current h.noted.same).symm
  timers h := (congrArg Machine.timers h.noted.same).symm
  observe e he h := by
    refine ⟨⟨?_, h.noted.running, h.noted.offered, ?_⟩, h.ctx⟩
    · have hs := h.noted.same
      unfold Machine.observe
      rw [hs]
    · rw [journal_observe, List.filter_append, h.noted.journal]
      simp [he, Machine.observe]
  setCurrent cur h := by
    refine ⟨⟨?_, h.noted.running, h.noted.offered, h.noted.journal⟩, h.ctx⟩
    have hs := h.noted.same
    rw [hs]
  setTimers tt h := by
    refine ⟨⟨?_, h.noted.running, h.noted.offered, h.noted.journal⟩, h.ctx⟩
    have hs := h.noted.same
    rw [hs]
  runAction aid event h := runAction_records aid event h

/-! ## One step -/

@[simp] theorem decrementTimers_recorded (elapsed : Nat) (m : Machine Ev Ctx qn tn) :
    decrementTimers c elapsed m.recorded = (decrementTimers c elapsed m).recorded := by
  unfold decrementTimers; split <;> rfl

@[simp] theorem overflow_decrementTimers (elapsed : Nat) (m : Machine Ev Ctx qn tn) :
    (decrementTimers c elapsed m).overflow = m.overflow := by
  unfold decrementTimers; split <;> rfl

@[simp] theorem ctx_decrementTimers (elapsed : Nat) (m : Machine Ev Ctx qn tn) :
    (decrementTimers c elapsed m).ctx = m.ctx := by
  unfold decrementTimers; split <;> rfl

/-- Recording starts from any machine that runs. -/
theorem records_recorded {m : Machine Ev Ctx qn tn} {q : List Ev} {shut : Bool}
    {j : List TraceEvent} (ht : m.terminated = false) (hq : m.queue.items = q)
    (ho : m.overflow = shut) (hj : m.journal.filter TraceEvent.isEmit = j) :
    Records c u q shut j m m.recorded := by
  subst hq ho hj
  exact ⟨⟨rfl, ht, ⟨[], [], rfl, .refl m.queue.length_le⟩, by simp [Machine.recorded]⟩, rfl⟩

/-- What a step does to the queue: it takes `stepPops` from the front and leaves `rest`, to
    which its emits are offered; `acc` is accepted and `ref` refused. -/
structure Serves (c : Chart) (u : UserCode Ev Ctx Val) (m : Machine Ev Ctx qn tn) (elapsed : Nat)
    (m' : Machine Ev Ctx qn tn) (rest acc ref : List Ev) : Prop where
  pops : m.queue.items = stepPops c m elapsed ++ rest
  emits : stepEmits c u m elapsed = answered acc ref
  offered : Offered qn rest m.overflow acc ref (rest ++ acc) m'.overflow
  queue : m'.queue.items = if m'.terminated then [] else rest ++ acc
  journal : m'.journal.filter TraceEvent.isEmit =
    m.journal.filter TraceEvent.isEmit ++ (stepEmits c u m elapsed).map (emitEntry c u)

/-- A step whose computation the recording machine follows serves the queue. -/
theorem serves_of_rel {m m' : Machine Ev Ctx qn tn} {elapsed : Nat} {rest : List Ev}
    {x : Except Fault (Machine Ev Ctx qn tn)}
    {y : Except Fault (Machine Ev (Recorded Ev Ctx) qn tn)}
    (hrel : Except.Rel (Records c u rest m.overflow (m.journal.filter TraceEvent.isEmit)) x y)
    (hx : x = .ok m') (hpops : m.queue.items = stepPops c m elapsed ++ rest)
    (hstep : ∀ r, y = .ok r → ∃ next, step c u.recording m.recorded elapsed = .ok (next, r)) :
    ∃ acc ref, Serves c u m elapsed m' rest acc ref := by
  subst hx
  obtain ⟨r, hr, hrec⟩ := hrel.of_ok
  obtain ⟨next, hnext⟩ := hstep r hr
  have hemits : stepEmits c u m elapsed = r.ctx.emits := by
    unfold stepEmits
    rw [hnext]
  obtain ⟨acc, ref, hlog, hoff⟩ := hrec.noted.offered
  refine ⟨acc, ref, hpops, hemits.trans hlog, ?_, ?_, ?_⟩
  · have hq := hoff.items
    rwa [hq] at hoff
  · rw [hrec.noted.running, hoff.items]
    rfl
  · rw [hrec.noted.journal, hemits]

section

variable {m m' : Machine Ev Ctx qn tn} {elapsed cur : Nat} {next : Option Nat}

theorem serves_fresh (ht : m.terminated = false) (hcur : m.current = none)
    (h : step c u m elapsed = .ok (next, m')) :
    ∃ acc ref, Serves c u m elapsed m' m.queue.items acc ref := by
  rw [step_of_fresh ht hcur, Except.bind_eq_ok] at h
  obtain ⟨m₁, h₁, he⟩ := h
  cases he
  refine serves_of_rel ((records_simulation _ _ _).enterPath 0
    (records_recorded (m := m.observe (.started c.chartHash)) ht rfl rfl ?_)) h₁ ?_ ?_
  · simp [TraceEvent.isEmit]
  · simp [stepPops, hcur]
  · intro r hr
    refine ⟨minRemaining c r, ?_⟩
    rw [step_of_fresh (m := m.recorded) ht hcur]
    exact Except.bind_eq_ok.mpr ⟨r, hr, rfl⟩

theorem serves_timer {s t : Nat} {tt : TimerTable tn} (ht : m.terminated = false)
    (hcur : m.current = some cur)
    (hpop : popTimer c (decrementTimers c elapsed m) = some ((s, t), tt))
    (h : step c u m elapsed = .ok (next, m')) :
    ∃ acc ref, Serves c u m elapsed m' m.queue.items acc ref := by
  rw [step_of_timer ht hcur hpop, Except.bind_eq_ok] at h
  obtain ⟨m₁, h₁, he⟩ := h
  cases he
  refine serves_of_rel ((records_simulation _ _ _).fireTimer s t
    (records_recorded (m := { decrementTimers c elapsed m with timers := tt })
      (by simpa using ht) (by simp) (by simp) (by simp))) h₁ ?_ ?_
  · simp [stepPops, ht, hcur, hpop]
  · intro r hr
    refine ⟨r.timers.minRemaining, ?_⟩
    rw [step_of_timer (m := m.recorded) ht hcur (by rw [decrementTimers_recorded]; exact hpop),
      decrementTimers_recorded]
    exact Except.bind_eq_ok.mpr ⟨r, hr, rfl⟩

theorem serves_idle (ht : m.terminated = false) (hcur : m.current = some cur)
    (hpop : popTimer c (decrementTimers c elapsed m) = none) (hq : m.queue.popFront = none)
    (h : step c u m elapsed = .ok (next, m')) :
    ∃ acc ref, Serves c u m elapsed m' m.queue.items acc ref := by
  rw [step_of_idle ht hcur hpop hq] at h
  cases h
  refine serves_of_rel (.ok (records_recorded (m := decrementTimers c elapsed m)
    (by simpa using ht) (by simp) (by simp) (by simp))) rfl ?_ ?_
  · simp [stepPops, ht, hcur, hpop, hq]
  · intro r hr
    cases hr
    refine ⟨minRemaining c (decrementTimers c elapsed m.recorded), ?_⟩
    rw [step_of_idle (m := m.recorded) ht hcur (by rw [decrementTimers_recorded]; exact hpop) hq,
      decrementTimers_recorded]

/-- The machine whose popped event is journaled. -/
theorem records_popped {ev : Ev} {queue : Bounded Ev qn} (ht : m.terminated = false) :
    Records c u queue.items m.overflow (m.journal.filter TraceEvent.isEmit)
      ({ decrementTimers c elapsed m with queue }.observe (.eventReceived (eventToId c u ev)))
      (({ decrementTimers c elapsed m with queue }.observe
        (.eventReceived (eventToId c u ev))).recorded) :=
  records_recorded (by simpa using ht) rfl (by simp) (by simp [TraceEvent.isEmit])

theorem serves_event {ev : Ev} {queue : Bounded Ev qn} (ht : m.terminated = false)
    (hcur : m.current = some cur) (hpop : popTimer c (decrementTimers c elapsed m) = none)
    (hq : m.queue.popFront = some (ev, queue)) (hterm : checkTerminate c u ev = false)
    (h : step c u m elapsed = .ok (next, m')) :
    ∃ acc ref, Serves c u m elapsed m' queue.items acc ref := by
  rw [step_of_event ht hcur hpop hq hterm, Except.bind_eq_ok] at h
  obtain ⟨m₁, h₁, he⟩ := h
  cases he
  refine serves_of_rel ((records_simulation _ _ _).handleEvent ev (records_popped ht)) h₁ ?_ ?_
  · simp [stepPops, ht, hcur, hpop, hq, Bounded.items_of_popFront hq]
  · intro r hr
    refine ⟨minRemaining c r, ?_⟩
    rw [step_of_event (m := m.recorded) ht hcur (by rw [decrementTimers_recorded]; exact hpop) hq
      hterm, decrementTimers_recorded]
    exact Except.bind_eq_ok.mpr ⟨r, hr, rfl⟩

/-- The machine on which the exits of the shutdown begin. -/
def terminating (c : Chart) (u : UserCode Ev Ctx Val) (elapsed : Nat) (ev : Ev)
    (queue : Bounded Ev qn) (m : Machine Ev Ctx qn tn) : Machine Ev Ctx qn tn :=
  ({ decrementTimers c elapsed m with queue }.observe
    (.eventReceived (eventToId c u ev))).observe (.terminateRequested (eventToId c u ev))

/-- The shutdown's exits, innermost state first. -/
def exitAll (c : Chart) (u : UserCode Ev Ctx Val) (cur : Nat) (m : Machine Ev Ctx qn tn) :
    Machine Ev Ctx qn tn :=
  (c.pathToRoot cur).foldl (fun m sid => exitState c u sid m) m

theorem step_terminate_eq (S : c.Sound) {ev : Ev} {queue : Bounded Ev qn}
    (ht : m.terminated = false) (hcur : m.current = some cur) (hlt : cur < c.nStates)
    (hpop : popTimer c (decrementTimers c elapsed m) = none)
    (hq : m.queue.popFront = some (ev, queue)) (hterm : checkTerminate c u ev = true) :
    step c u m elapsed =
      .ok (none, (exitAll c u cur (terminating c u elapsed ev queue m)).halt) := by
  rw [step_of_terminate ht hcur hpop hq hterm, doTerminate_eq S hlt (by simpa using hcur)]
  rfl

theorem terminating_recorded {ev : Ev} {queue : Bounded Ev qn} :
    terminating c u.recording elapsed ev queue m.recorded =
      (terminating c u elapsed ev queue m).recorded := by
  unfold terminating
  rw [decrementTimers_recorded]
  rfl

theorem stepEmits_terminate (S : c.Sound) {ev : Ev} {queue : Bounded Ev qn}
    (ht : m.terminated = false) (hcur : m.current = some cur) (hlt : cur < c.nStates)
    (hpop : popTimer c (decrementTimers c elapsed m) = none)
    (hq : m.queue.popFront = some (ev, queue)) (hterm : checkTerminate c u ev = true) :
    stepEmits c u m elapsed =
      (exitAll c u.recording cur (terminating c u elapsed ev queue m).recorded).ctx.emits := by
  have hpopr : popTimer c (decrementTimers c elapsed m.recorded) = none := by
    rw [decrementTimers_recorded]
    exact hpop
  unfold stepEmits
  rw [step_terminate_eq (u := u.recording) (m := m.recorded) S ht hcur hlt hpopr hq hterm,
    terminating_recorded]
  rfl

theorem records_terminating {ev : Ev} {queue : Bounded Ev qn} (ht : m.terminated = false) :
    Records c u queue.items m.overflow (m.journal.filter TraceEvent.isEmit)
      (terminating c u elapsed ev queue m) (terminating c u elapsed ev queue m).recorded :=
  (records_simulation _ _ _).observe _ rfl (records_popped ht)

theorem serves_terminate (S : c.Sound) {ev : Ev} {queue : Bounded Ev qn}
    (ht : m.terminated = false) (hcur : m.current = some cur) (hlt : cur < c.nStates)
    (hpop : popTimer c (decrementTimers c elapsed m) = none)
    (hq : m.queue.popFront = some (ev, queue)) (hterm : checkTerminate c u ev = true)
    (h : step c u m elapsed = .ok (next, m')) :
    ∃ acc ref, Serves c u m elapsed m' queue.items acc ref ∧
      (exitAll c u cur (terminating c u elapsed ev queue m)).queue.items = queue.items ++ acc := by
  rw [step_terminate_eq S ht hcur hlt hpop hq hterm] at h
  cases h
  have hemits := stepEmits_terminate S ht hcur hlt hpop hq hterm
  have hrec : Records c u queue.items m.overflow (m.journal.filter TraceEvent.isEmit)
      (exitAll c u cur (terminating c u elapsed ev queue m))
      (exitAll c u.recording cur (terminating c u elapsed ev queue m).recorded) :=
    (records_simulation _ _ _).exitStates _ (records_terminating ht)
  obtain ⟨acc, ref, hlog, hoff⟩ := hrec.noted.offered
  refine ⟨acc, ref, ⟨?_, hemits.trans hlog, ?_, rfl, ?_⟩, hoff.items⟩
  · simp [stepPops, ht, hcur, hpop, hq, Bounded.items_of_popFront hq]
  · have hq := hoff.items
    rwa [hq] at hoff
  · rw [hemits]
    simpa [Machine.halt, TraceEvent.isEmit] using hrec.noted.journal

end

/-- Every step of a machine that runs serves the queue. -/
theorem step_serves (S : c.Sound) {m m' : Machine Ev Ctx qn tn} {elapsed : Nat}
    {next : Option Nat} (hv : m.Valid c) (ht : m.terminated = false)
    (h : step c u m elapsed = .ok (next, m')) :
    ∃ rest acc ref, Serves c u m elapsed m' rest acc ref := by
  cases hcur : m.current with
  | none => exact ⟨_, serves_fresh ht hcur h⟩
  | some cur =>
      cases hpop : popTimer c (decrementTimers c elapsed m) with
      | some p => exact ⟨_, serves_timer ht hcur hpop h⟩
      | none =>
          cases hq : m.queue.popFront with
          | none => exact ⟨_, serves_idle ht hcur hpop hq h⟩
          | some p =>
              obtain ⟨ev, queue⟩ := p
              cases hterm : checkTerminate c u ev with
              | false => exact ⟨_, serves_event ht hcur hpop hq hterm h⟩
              | true =>
                  obtain ⟨acc, ref, hs, -⟩ :=
                    serves_terminate S ht hcur (hv.current_lt cur hcur) hpop hq hterm h
                  exact ⟨_, acc, ref, hs⟩

/-- A step of a terminated machine emits nothing and takes nothing. -/
theorem stepEmits_of_terminated {m : Machine Ev Ctx qn tn} {elapsed : Nat}
    (ht : m.terminated = true) : stepEmits c u m elapsed = [] ∧ stepPops c m elapsed = [] := by
  refine ⟨?_, by simp [stepPops, ht]⟩
  unfold stepEmits
  rw [step_of_terminated (m := m.recorded) ht]
  rfl

end Hsmc
