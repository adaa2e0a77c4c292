import Hsmc.Link.Scripts
import Hsmc.Link.Simulate

/-
  A machine beside one with a larger queue and `w` in front of its journal.

  The machines are twins (`Twin`) until the smaller queue refuses an emit that the larger one
  takes; then they are parted, and nothing more is said about them than that the first journal
  keeps the refusal. With queues of one size twins never part.

  * `step_twin`: twins take the same step, or part in it.
  * `performAll_twin`: the same for whole scripts.
-/

namespace Hsmc

open Machine

variable {Ev Ctx Val : Type} {qn qn' tn : Nat} {c : Chart} {u : UserCode Ev Ctx Val}
  {w : List TraceEvent}

/-! ## Twins -/

/-- The same machine, but for the capacity of the queue and `w` in front of the journal. -/
structure Twin (w : List TraceEvent) (m : Machine Ev Ctx qn tn) (m' : Machine Ev Ctx qn' tn) :
    Prop where
  ctx : m'.ctx = m.ctx
  current : m'.current = m.current
  queue : m'.queue.items = m.queue.items
  timers : m'.timers = m.timers
  terminated : m'.terminated = m.terminated
  overflow : m'.overflow = m.overflow
  journal : m'.journal = w ++ m.journal

theorem twin_new (ctx : Ctx) :
    Twin [] (Machine.new ctx : Machine Ev Ctx qn tn) (Machine.new ctx : Machine Ev Ctx qn' tn) :=
  ⟨rfl, rfl, rfl, rfl, rfl, rfl, rfl⟩

theorem twin_clearJournal (m : Machine Ev Ctx qn tn) : Twin m.journal m.clearJournal m :=
  ⟨rfl, rfl, rfl, rfl, rfl, rfl, (List.append_nil _).symm⟩

/-- With queues of one size, twins differ in the journal only. -/
theorem Twin.eq {m m' : Machine Ev Ctx qn tn} (h : Twin w m m') :
    m' = { m with journal := w ++ m.journal } := by
  cases m'
  obtain ⟨hctx, hcurrent, hqueue, htimers, hterminated, hoverflow, hjournal⟩ := h
  simp only at hctx hcurrent hqueue htimers hterminated hoverflow hjournal
  rw [hctx, hcurrent, Bounded.eq_of_items hqueue, htimers, hterminated, hoverflow, hjournal]

theorem Twin.observe {m : Machine Ev Ctx qn tn} {m' : Machine Ev Ctx qn' tn} (h : Twin w m m')
    (e : TraceEvent) : Twin w (m.observe e) (m'.observe e) :=
  { h with journal := by rw [journal_observe, journal_observe, h.journal, List.append_assoc] }

theorem Twin.takeOverflow {m : Machine Ev Ctx qn tn} {m' : Machine Ev Ctx qn' tn}
    (h : Twin w m m') : Twin w m.takeOverflow.2 m'.takeOverflow.2 :=
  { h with overflow := rfl }

def TraceEvent.isRefusal : TraceEvent → Bool
  | .emitFailed _ => true
  | _ => false

/-- An emit was refused. -/
def Refused (j : List TraceEvent) : Prop := ∃ e ∈ j, e.isRefusal = true

instance (j : List TraceEvent) : Decidable (Refused j) :=
  inferInstanceAs (Decidable (∃ e ∈ j, e.isRefusal = true))

theorem Refused.append {j : List TraceEvent} (h : Refused j) (w : List TraceEvent) :
    Refused (j ++ w) :=
  h.imp fun _ ⟨he, hr⟩ => ⟨List.mem_append_left w he, hr⟩

/-- Machines that run, after the smaller queue refused an emit that the larger one took. -/
structure Parted (m : Machine Ev Ctx qn tn) (m' : Machine Ev Ctx qn' tn) : Prop where
  lt : qn < qn'
  running : m.terminated = false
  running' : m'.terminated = false
  current : m'.current = m.current
  timers : m'.timers = m.timers
  refused : Refused m.journal

/-- Machines that run, as twins or parted. -/
inductive Abreast (w : List TraceEvent) (m : Machine Ev Ctx qn tn) (m' : Machine Ev Ctx qn' tn) :
    Prop where
  | twin (running : m.terminated = false) (h : Twin w m m')
  | parted (h : Parted m m')

/-! ## Actions -/

theorem Parted.runBody {m : Machine Ev Ctx qn tn} {m' : Machine Ev Ctx qn' tn} (h : Parted m m')
    (b b' : Body Ev Ctx) : Parted (runBody c u b m) (runBody c u b' m') := by
  have hq := runBody_quiet (c := c) (u := u) b m
  have hq' := runBody_quiet (c := c) (u := u) b' m'
  obtain ⟨w, -, hw⟩ := hq.journal
  exact
    { lt := h.lt
      running := hq.terminated.trans h.running
      running' := hq'.terminated.trans h.running'
      current := (hq'.current.trans h.current).trans hq.current.symm
      timers := (hq'.timers.trans h.timers).trans hq.timers.symm
      refused := by
        rw [hw]
        exact h.refused.append w }

/-- Twins answer every emit alike, until only the larger queue has room. -/
theorem Twin.runBody (hle : qn ≤ qn') (b : Body Ev Ctx) : ∀ {m : Machine Ev Ctx qn tn}
    {m' : Machine Ev Ctx qn' tn}, m.terminated = false → Twin w m m' →
    Abreast w (runBody c u b m) (runBody c u b m') := by
  induction b with
  | done ctx => exact fun ht h => .twin ht { h with ctx := rfl }
  | emit ev next ih =>
      intro m m' ht h
      have ht' := h.terminated.trans ht
      unfold Hsmc.runBody
      rcases emit_cases ev m with ⟨ho, queue, hpush⟩ | hrefused
      · have hlt := Bounded.lt_of_push hpush
        obtain ⟨queue', hpush', hitems⟩ :=
          Bounded.push_of_lt (b := m'.queue) ev (by rw [h.queue]; omega)
        rw [emit_of_push ht ho hpush, emit_of_push ht' (h.overflow.trans ho) hpush']
        have hpushed : Twin w { m with queue } { m' with queue := queue' } :=
          { h with queue := by rw [hitems, Bounded.items_of_push hpush, h.queue] }
        exact ih _ ht (hpushed.observe _)
      · rw [emit_of_refused ht hrefused]
        rcases emit_cases ev m' with ⟨ho', queue', hpush'⟩ | hrefused'
        · have hlt := Bounded.lt_of_push hpush'
          have ho := h.overflow.symm.trans ho'
          have hfull := Bounded.le_of_push_eq_none (hrefused.resolve_left (by simp [ho]))
          have hq := emit_quiet (c := c) (u := u) ev m'
          rw [h.queue] at hlt
          have hparted : Parted ({ m with overflow := true }.observe
              (.emitFailed (eventToId c u ev))) (emit c u ev m').2 :=
            { lt := by omega
              running := ht
              running' := hq.terminated.trans ht'
              current := hq.current.trans h.current
              timers := hq.timers.trans h.timers
              refused := ⟨_, List.mem_append_right _ (List.mem_singleton_self _), rfl⟩ }
          exact .parted (hparted.runBody _ _)
        · rw [emit_of_refused ht' hrefused']
          have hfailed : Twin w { m with overflow := true } { m' with overflow := true } :=
            { h with overflow := rfl }
          exact ih _ ht (hfailed.observe _)

theorem Parted.runAction {m : Machine Ev Ctx qn tn} {m' : Machine Ev Ctx qn' tn}
    (h : Parted m m') (aid : Nat) (event : Option Ev) :
    Parted (runAction c u aid event m) (runAction c u aid event m') := by
  unfold Hsmc.runAction
  cases c.actionArms.lookup aid with
  | none => exact h
  | some a =>
      simp only
      split
      · exact h.runBody _ _
      · cases event with
        | none => exact h
        | some ev =>
            simp only
            cases a.boundVariants.find? fun bv => bv.name == u.variant ev with
            | none => exact h
            | some bv => exact h.runBody _ _

theorem Twin.runAction {m : Machine Ev Ctx qn tn} {m' : Machine Ev Ctx qn' tn} (hle : qn ≤ qn')
    (ht : m.terminated = false) (h : Twin w m m') (aid : Nat) (event : Option Ev) :
    Abreast w (runAction c u aid event m) (runAction c u aid event m') := by
  unfold Hsmc.runAction
  rw [h.ctx]
  cases c.actionArms.lookup aid with
  | none => exact .twin ht h
  | some a =>
      simp only
      split
      · exact h.runBody hle _ ht
      · cases event with
        | none => exact .twin ht h
        | some ev =>
            simp only
            cases a.boundVariants.find? fun bv => bv.name == u.variant ev with
            | none => exact .twin ht h
            | some bv => exact h.runBody hle _ ht

theorem abreast_simulation (c : Chart) (u : UserCode Ev Ctx Val) (hle : qn ≤ qn') :
    Simulation c u u (Abreast w : Machine Ev Ctx qn tn → Machine Ev Ctx qn' tn → Prop) where
  variant := rfl
  duration := rfl
  running h := by
    cases h with
    | twin ht h => exact ⟨ht, h.terminated.trans ht⟩
    | parted h => exact ⟨h.running, h.running'⟩
  current h := by
    cases h with
    | twin _ h => exact h.current
    | parted h => exact h.current
  timers h := by
    cases h with
    | twin _ h => exact h.timers
    | parted h => exact h.timers
  observe e _ h := by
    cases h with
    | twin ht h => exact .twin ht (h.observe e)
    | parted h => exact .parted { h with refused := h.refused.append [e] }
  setCurrent cur h := by
    cases h with
    | twin ht h => exact .twin ht { h with current := rfl }
    | parted h => exact .parted { h with current := rfl }
  setTimers tt h := by
    cases h with
    | twin ht h => exact .twin ht { h with timers := rfl }
    | parted h => exact .parted { h with timers := rfl }
  runAction aid event h := by
    cases h with
    | twin ht h => exact h.runAction hle ht aid event
    | parted h => exact .parted (h.runAction aid event)

/-! ## One step -/

theorem Twin.decrementTimers {m : Machine Ev Ctx qn tn} {m' : Machine Ev Ctx qn' tn}
    (h : Twin w m m') (elapsed : Nat) :
    Twin w (decrementTimers c elapsed m) (decrementTimers c elapsed m') := by
  unfold Hsmc.decrementTimers
  split
  · exact { h with timers := by rw [h.timers] }
  · exact h

theorem popTimer_twin {m : Machine Ev Ctx qn tn} {m' : Machine Ev Ctx qn' tn} (h : Twin w m m') :
    popTimer c m' = popTimer c m := by
  unfold popTimer
  rw [h.timers]

theorem minRemaining_twin {m : Machine Ev Ctx qn tn} {m' : Machine Ev Ctx qn' tn}
    (h : Twin w m m') : minRemaining c m' = minRemaining c m := by
  unfold minRemaining
  rw [h.timers]

variable (w) in
/-- The answers are the same and the machines twins, unless the first machine is `lost`; with
    queues of one size it never is. -/
abbrev Twinned {α : Type} (lost : α × Machine Ev Ctx qn tn → Prop)
    (x : Except Fault (α × Machine Ev Ctx qn tn)) (y : Except Fault (α × Machine Ev Ctx qn' tn)) :
    Prop :=
  Except.RelUnless (qn < qn') lost (fun a b => b.1 = a.1 ∧ Twin w a.2 b.2) x y

/-- Both ended with machines abreast, so what is made of their timers is the same. -/
theorem twinned_of_abreast {x : Except Fault (Machine Ev Ctx qn tn)}
    {y : Except Fault (Machine Ev Ctx qn' tn)} {f : TimerTable tn → Option Nat}
    (h : Except.Rel (Abreast w) x y) :
    Twinned w (fun a => Refused a.2.journal) (x >>= fun m => .ok (f m.timers, m))
      (y >>= fun m' => .ok (f m'.timers, m')) := by
  refine .of_rel (h.bind (Q := fun a b => b.1 = a.1 ∧ Abreast w a.2 b.2) ?_) ?_
  · intro a b hab
    cases hab with
    | twin ht h => exact .ok ⟨by rw [h.timers], .twin ht h⟩
    | parted h => exact .ok ⟨by rw [h.timers], .parted h⟩
  · rintro a b ⟨he, hab⟩
    cases hab with
    | twin _ h => exact .inr ⟨he, h⟩
    | parted h => exact .inl ⟨h.lt, h.refused⟩

/-- Twins shut down alike. -/
theorem Twin.doTerminate {m : Machine Ev Ctx qn tn} {m' : Machine Ev Ctx qn' tn} (hle : qn ≤ qn')
    (ht : m.terminated = false) (h : Twin w m m') :
    Except.Rel (fun a b => ∃ x y, Abreast w x y ∧ a = x.halt ∧ b = y.halt) (doTerminate c u m)
      (doTerminate c u m') := by
  unfold Hsmc.doTerminate
  rw [h.current]
  cases m.current with
  | none => exact .ok ⟨m, m', .twin ht h, rfl, rfl⟩
  | some cur =>
      refine (Except.Rel.refl _).bind ?_
      rintro ⟨s, e⟩ _ rfl
      refine (Except.Rel.refl _).bind ?_
      rintro path _ rfl
      exact .ok ⟨_, _, (abreast_simulation c u hle).exitStates path (.twin ht h), rfl, rfl⟩

theorem Abreast.halt {m : Machine Ev Ctx qn tn} {m' : Machine Ev Ctx qn' tn}
    (h : Abreast w m m') : (qn < qn' ∧ Refused m.halt.journal) ∨ Twin w m.halt m'.halt := by
  cases h with
  | twin _ h =>
      refine .inr ⟨h.ctx, rfl, rfl, h.timers, rfl, h.overflow, ?_⟩
      unfold Machine.halt
      rw [journal_observe, journal_observe, h.journal, List.append_assoc]
  | parted h => exact .inl ⟨h.lt, h.refused.append [.terminated]⟩

/-- Twins end in the same step, or part on the way out. -/
theorem Twin.ends {m : Machine Ev Ctx qn tn} {m' : Machine Ev Ctx qn' tn} (hle : qn ≤ qn')
    (ht : m.terminated = false) (h : Twin w m m') :
    Twinned w (fun a => Refused a.2.journal)
      (Hsmc.doTerminate c u m >>= fun a => .ok ((none : Option Nat), a))
      (Hsmc.doTerminate c u m' >>= fun b => .ok (none, b)) := by
  refine .of_rel ((h.doTerminate (c := c) (u := u) hle ht).bind
    (Q := fun a b => b.1 = a.1 ∧ ∃ x y, Abreast w x y ∧ a.2 = x.halt ∧ b.2 = y.halt)
    fun a b hab => .ok ⟨rfl, hab⟩) ?_
  rintro ⟨_, a⟩ ⟨_, b⟩ ⟨he, x, y, hxy, rfl, rfl⟩
  exact hxy.halt.imp_right fun h => ⟨he, h⟩

/-- The larger queue has the same event in front. -/
theorem Twin.popFront {m : Machine Ev Ctx qn tn} {m' : Machine Ev Ctx qn' tn} {ev : Ev}
    {queue : Bounded Ev qn} (h : Twin w m m') (hq : m.queue.popFront = some (ev, queue)) :
    ∃ queue', m'.queue.popFront = some (ev, queue') ∧
      Twin w { m with queue } { m' with queue := queue' } := by
  obtain ⟨queue', hq', hitems⟩ :=
    Bounded.popFront_of_items (h.queue.trans (Bounded.items_of_popFront hq))
  exact ⟨queue', hq', { h with queue := hitems }⟩

/-- Twins take the same step, or part in it. -/
theorem step_twin (hle : qn ≤ qn') {m : Machine Ev Ctx qn tn} {m' : Machine Ev Ctx qn' tn}
    (h : Twin w m m') (elapsed : Nat) :
    Twinned w (fun a => Refused a.2.journal) (step c u m elapsed) (step c u m' elapsed) := by
  have sim : Simulation c u u (Abreast w : Machine Ev Ctx qn tn → Machine Ev Ctx qn' tn → Prop) :=
    abreast_simulation c u hle
  cases ht : m.terminated with
  | true =>
      rw [step_of_terminated ht, step_of_terminated (h.terminated.trans ht)]
      exact .ok ⟨rfl, h⟩
  | false =>
      have ht' := h.terminated.trans ht
      cases hcur : m.current with
      | none =>
          rw [step_of_fresh ht hcur, step_of_fresh ht' (h.current.trans hcur)]
          exact twinned_of_abreast (f := fun tt => if c.hasTimers then tt.minRemaining else none)
            (sim.enterPath 0 (.twin ht (h.observe _)))
      | some cur =>
          have hcur' := h.current.trans hcur
          have hdec := h.decrementTimers (c := c) elapsed
          have htd : (Hsmc.decrementTimers c elapsed m).terminated = false := by simpa using ht
          cases hpop : popTimer c (Hsmc.decrementTimers c elapsed m) with
          | some p =>
              obtain ⟨⟨s, t⟩, tt⟩ := p
              rw [step_of_timer ht hcur hpop,
                step_of_timer ht' hcur' ((popTimer_twin hdec).trans hpop)]
              exact twinned_of_abreast (sim.fireTimer s t (.twin htd { hdec with timers := rfl }))
          | none =>
              have hpop' := (popTimer_twin hdec).trans hpop
              cases hq : m.queue.popFront with
              | none =>
                  have hq' : m'.queue.popFront = none := by
                    rw [Bounded.popFront_eq_none_iff, h.queue]
                    exact Bounded.popFront_eq_none_iff.mp hq
                  rw [step_of_idle ht hcur hpop hq, step_of_idle ht' hcur' hpop' hq']
                  exact .ok ⟨minRemaining_twin hdec, hdec⟩
              | some p =>
                  obtain ⟨ev, queue⟩ := p
                  obtain ⟨queue', hq', hpopped⟩ := hdec.popFront (by simpa using hq)
                  have hq' : m'.queue.popFront = some (ev, queue') := by simpa using hq'
                  have hrec := hpopped.observe (.eventReceived (eventToId c u ev))
                  cases hterm : checkTerminate c u ev with
                  | true =>
                      rw [step_of_terminate ht hcur hpop hq hterm,
                        step_of_terminate ht' hcur' hpop' hq' hterm]
                      exact (hrec.observe (.terminateRequested (eventToId c u ev))).ends hle
                        (by simpa using ht)
                  | false =>
                      rw [step_of_event ht hcur hpop hq hterm,
                        step_of_event ht' hcur' hpop' hq' hterm]
                      exact twinned_of_abreast
                        (f := fun tt => if c.hasTimers then tt.minRemaining else none)
                        (sim.handleEvent ev (.twin (by simpa using ht) hrec))

/-- A step only appends to the journal: it would do the same with an empty one. -/
theorem step_appends {m m' : Machine Ev Ctx qn tn} {elapsed : Nat} {next : Option Nat}
    (h : step c u m elapsed = .ok (next, m')) : ∃ j, m'.journal = m.journal ++ j := by
  have hstep := (step_twin (c := c) (u := u) le_rfl (twin_clearJournal m) elapsed).rel
    (lt_irrefl qn)
  rw [h] at hstep
  obtain ⟨a, -, -, htwin⟩ := hstep.of_ok_right
  exact ⟨a.2.journal, htwin.journal⟩

theorem refused_upheld (c : Chart) (u : UserCode Ev Ctx Val) :
    Upheld c u fun m : Machine Ev Ctx qn tn => Refused m.journal where
  step hr h := by
    obtain ⟨j, hj⟩ := step_appends h
    rw [hj]
    exact hr.append j
  same hsame hr := by rwa [hsame.journal]

/-! ## `dispatch` -/

/-- A call with a result, in which the smaller queue refused something. -/
def Missed (a : Except HsmcError Unit × Machine Ev Ctx qn tn) : Prop :=
  a.1 = .error .queueFull ∨ Refused a.2.journal

/-- One turn of the draining loop, when what follows it is known. -/
theorem turn_twin (hle : qn ≤ qn') {fuel : Nat}
    (hdrain : ∀ {m : Machine Ev Ctx qn tn} {m' : Machine Ev Ctx qn' tn}, Twin w m m' →
      Twinned w Missed (drain c u fuel m) (drain c u fuel m'))
    {m : Machine Ev Ctx qn tn} {m' : Machine Ev Ctx qn' tn} (h : Twin w m m') :
    Twinned w Missed
      (step c u m 0 >>= fun p =>
        if p.2.takeOverflow.1 then .ok (.error .queueFull, p.2.takeOverflow.2)
        else if p.2.takeOverflow.2.terminated then .ok (.ok (), p.2.takeOverflow.2)
        else drain c u fuel p.2.takeOverflow.2)
      (step c u m' 0 >>= fun p =>
        if p.2.takeOverflow.1 then .ok (.error .queueFull, p.2.takeOverflow.2)
        else if p.2.takeOverflow.2.terminated then .ok (.ok (), p.2.takeOverflow.2)
        else drain c u fuel p.2.takeOverflow.2) := by
  refine (step_twin hle h 0).bind ?_ ?_
  · rintro ⟨next, m₁⟩ ⟨result, m₂⟩ hl hd
    simp only at hd
    split at hd
    · cases hd
      exact .inr hl
    · split at hd
      · cases hd
        exact .inr hl
      · exact .inr ((refused_upheld c u).drain (m := m₁.takeOverflow.2) hl hd)
  · rintro ⟨next, m₁⟩ ⟨_, m₁'⟩ ⟨rfl, h₁⟩
    have ho : m₁'.takeOverflow.1 = m₁.takeOverflow.1 := h₁.overflow
    have ht : m₁'.takeOverflow.2.terminated = m₁.takeOverflow.2.terminated := h₁.terminated
    simp only [ho, ht]
    split
    · exact .ok ⟨rfl, h₁.takeOverflow⟩
    · split
      · exact .ok ⟨rfl, h₁.takeOverflow⟩
      · exact hdrain h₁.takeOverflow

theorem drain_twin (hle : qn ≤ qn') : ∀ (fuel : Nat) {m : Machine Ev Ctx qn tn}
    {m' : Machine Ev Ctx qn' tn}, Twin w m m' →
    Twinned w Missed (drain c u fuel m) (drain c u fuel m')
  | 0, _, _, _ => .error _
  | fuel + 1, m, m', h => by
      unfold drain
      rw [h.queue]
      split
      · exact .ok ⟨rfl, h⟩
      · exact turn_twin hle (drain_twin hle fuel) h

/-- A push that the smaller queue takes, the larger one takes. -/
theorem Twin.push (hle : qn ≤ qn') {m : Machine Ev Ctx qn tn} {m' : Machine Ev Ctx qn' tn}
    (h : Twin w m m') (ev : Ev) :
    m.queue.push ev = none ∧ (qn < qn' ∨ m'.queue.push ev = none) ∨
      ∃ queue queue', m.queue.push ev = some queue ∧ m'.queue.push ev = some queue' ∧
        Twin w { m with queue } { m' with queue := queue' } := by
  cases hpush : m.queue.push ev with
  | none =>
      have hfull := Bounded.le_of_push_eq_none hpush
      refine .inl ⟨rfl, hle.lt_or_eq.imp_right fun he => ?_⟩
      exact Bounded.push_of_full ev (by rw [h.queue]; omega)
  | some queue =>
      have hlt := Bounded.lt_of_push hpush
      obtain ⟨queue', hpush', hitems⟩ :=
        Bounded.push_of_lt (b := m'.queue) ev (by rw [h.queue]; omega)
      refine .inr ⟨queue, queue', rfl, hpush', { h with queue := ?_ }⟩
      rw [hitems, Bounded.items_of_push hpush, h.queue]

theorem send_twin (hle : qn ≤ qn') (ev : Ev) {m : Machine Ev Ctx qn tn}
    {m' : Machine Ev Ctx qn' tn} (h : Twin w m m') :
    Twinned w Missed (.ok (m.send ev)) (.ok (m'.send ev)) := by
  cases ht : m.terminated with
  | true =>
      rw [send_of_terminated ht, send_of_terminated (h.terminated.trans ht)]
      exact .ok ⟨rfl, h⟩
  | false =>
      have ht' := h.terminated.trans ht
      rcases h.push hle ev with ⟨hpush, hlt | hpush'⟩ | ⟨q, q', hpush, hpush', hpushed⟩
      · rw [send_of_full ht hpush]
        exact .lost _ hlt (.inl rfl)
      · rw [send_of_full ht hpush, send_of_full ht' hpush']
        exact .ok ⟨rfl, h⟩
      · rw [send_of_push ht hpush, send_of_push ht' hpush']
        exact .ok ⟨rfl, hpushed⟩

theorem dispatch_twin (hle : qn ≤ qn') (fuel : Nat) (ev : Ev) {m : Machine Ev Ctx qn tn}
    {m' : Machine Ev Ctx qn' tn} (h : Twin w m m') :
    Twinned w Missed (dispatch c u fuel ev m) (dispatch c u fuel ev m') := by
  have ht : (m'.terminated = true) = (m.terminated = true) := by rw [h.terminated]
  have hcur : (m'.current.isNone = true) = (m.current.isNone = true) := by rw [h.current]
  unfold dispatch
  simp only [ht]
  split
  · exact .ok ⟨rfl, h⟩
  · rcases h.push hle ev with ⟨hpush, hlt | hpush'⟩ | ⟨q, q', hpush, hpush', hpushed⟩
    · rw [hpush]
      exact .lost _ hlt (.inl rfl)
    · rw [hpush, hpush']
      exact .ok ⟨rfl, h⟩
    · rw [hpush, hpush']
      simp only [hcur]
      split
      · exact turn_twin hle (drain_twin hle fuel) hpushed
      · exact drain_twin hle fuel hpushed

/-! ## `run()` -/

/-- Two `run()`s, both in their loops or both returned. -/
inductive TwinRun (w : List TraceEvent) :
    Running Ev Ctx qn tn → Running Ev Ctx qn' tn → Prop where
  | looping {m : Machine Ev Ctx qn tn} {m' : Machine Ev Ctx qn' tn} (next : Option Nat)
      (now : Nat) : Twin w m m' → TwinRun w (.looping ⟨m, next, now⟩) (.looping ⟨m', next, now⟩)
  | returned {m : Machine Ev Ctx qn tn} {m' : Machine Ev Ctx qn' tn}
      (result : Except HsmcError Unit) : Twin w m m' →
      TwinRun w (.returned result m) (.returned result m')

variable (w) in
abbrev RunTwinned (x : Except Fault (Running Ev Ctx qn tn))
    (y : Except Fault (Running Ev Ctx qn' tn)) : Prop :=
  Except.RelUnless (qn < qn') (fun r => Refused r.machine.journal) (TwinRun w) x y

theorem runStart_twin (hle : qn ≤ qn') (now : Nat) {m : Machine Ev Ctx qn tn}
    {m' : Machine Ev Ctx qn' tn} (h : Twin w m m') :
    RunTwinned w (runStart c u now m) (runStart c u now m') := by
  unfold runStart
  rw [h.terminated]
  split
  · exact .ok (.returned _ h)
  · refine (step_twin hle h 0).bind ?_ ?_
    · rintro ⟨next, m₁⟩ r hl hr
      simp only at hr
      split at hr <;> cases hr <;> exact hl
    · rintro ⟨next, m₁⟩ ⟨_, m₁'⟩ ⟨rfl, h₁⟩
      have ho : m₁'.takeOverflow.1 = m₁.takeOverflow.1 := h₁.overflow
      simp only [ho]
      split
      · exact .ok (.returned _ h₁.takeOverflow)
      · exact .ok (.looping _ _ h₁.takeOverflow)

theorem runStep_twin (hle : qn ≤ qn') (k : RunKind) (now : Nat) (next : Option Nat) (last : Nat)
    {m : Machine Ev Ctx qn tn} {m' : Machine Ev Ctx qn' tn} (h : Twin w m m') :
    RunTwinned w (runStep c u k now ⟨m, next, last⟩) (runStep c u k now ⟨m', next, last⟩) := by
  refine (step_twin hle h _).bind ?_ ?_
  · rintro ⟨next', m₁⟩ r hl hr
    cases hr
    exact hl
  · rintro ⟨next', m₁⟩ ⟨_, m₁'⟩ ⟨rfl, h₁⟩
    exact .ok (.looping _ _ h₁)

theorem pollDurings_twin (durings : Ctx → Ctx) {m : Machine Ev Ctx qn tn}
    {m' : Machine Ev Ctx qn' tn} (h : Twin w m m') :
    Twin w (pollDurings c durings m) (pollDurings c durings m') := by
  have hrace : c.raceDurings m'.current = c.raceDurings m.current := by rw [h.current]
  unfold pollDurings
  rw [hrace]
  split
  · exact h
  · exact { h with ctx := by rw [h.ctx] }

/-- The loop races with the queue empty, so an event it receives finds room. -/
theorem runTurn_twin (hle : qn ≤ qn') (hpos : qn < qn' → 0 < qn) (k : RunKind)
    (wake : Wake Ev Ctx) (next : Option Nat) (last : Nat) {m : Machine Ev Ctx qn tn}
    {m' : Machine Ev Ctx qn' tn} (h : Twin w m m') :
    RunTwinned w (runTurn c u k wake ⟨m, next, last⟩) (runTurn c u k wake ⟨m', next, last⟩) := by
  have ho : m'.takeOverflow.1 = m.takeOverflow.1 := h.overflow
  have hq : m'.takeOverflow.2.queue.items = m.takeOverflow.2.queue.items := h.queue
  have hcur : m'.takeOverflow.2.current = m.takeOverflow.2.current := h.current
  have htake := h.takeOverflow
  have hpoll := pollDurings_twin (c := c) wake.durings htake
  unfold runTurn
  simp only [h.terminated, ho, hq, hcur]
  split
  · exact .ok (.returned _ h)
  · split
    · exact .ok (.returned _ htake)
    · split
      · exact runStep_twin hle k wake.now next last htake
      · rename_i hempty
        split
        · exact .ok (.returned _ htake)
        · split
          · rename_i ev _
            refine runStep_twin hle k wake.now next last ?_
            rcases hpoll.push hle ev with ⟨hpush, hlt | hpush'⟩ | ⟨q, q', hpush, hpush', hpushed⟩
            · have hfull := Bounded.le_of_push_eq_none hpush
              have hqueue : (pollDurings c wake.durings m.takeOverflow.2).queue = m.queue :=
                (sameCore_pollDurings _ _).2.1
              have hnil : m.queue.items = [] := by simpa [takeOverflow] using hempty
              rw [hqueue, hnil] at hfull
              exact absurd hfull (by simpa using (hpos hlt).ne')
            · rw [hpush, hpush']
              exact hpoll
            · rw [hpush, hpush']
              exact hpushed
          · split
            · exact .ok (.returned _ hpoll)
            · exact runStep_twin hle k wake.now next last hpoll
          · exact runStep_twin hle k wake.now next last hpoll

theorem runLoop_twin (hle : qn ≤ qn') (hpos : qn < qn' → 0 < qn) (k : RunKind) :
    ∀ (wakes : List (Wake Ev Ctx)) {r : Running Ev Ctx qn tn} {r' : Running Ev Ctx qn' tn},
    TwinRun w r r' → RunTwinned w (runLoop c u k wakes r) (runLoop c u k wakes r')
  | [], _, _, .looping next now h => .ok (.looping next now h)
  | [], _, _, .returned result h | _ :: _, _, _, .returned result h => .ok (.returned result h)
  | wake :: wakes, _, _, .looping next now h =>
      (runTurn_twin hle hpos k wake next now h).bind
        (fun _ _ hl hr => (refused_upheld c u).runLoop hl hr)
        fun _ _ h => runLoop_twin hle hpos k wakes h

theorem run_twin (hle : qn ≤ qn') (hpos : qn < qn' → 0 < qn) (k : RunKind) (now : Nat)
    (wakes : List (Wake Ev Ctx)) {m : Machine Ev Ctx qn tn} {m' : Machine Ev Ctx qn' tn}
    (h : Twin w m m') : RunTwinned w (run c u k now wakes m) (run c u k now wakes m') :=
  (runStart_twin hle now h).bind (fun _ _ hl hr => (refused_upheld c u).runLoop hl hr)
    fun _ _ h => runLoop_twin hle hpos k wakes h

/-! ## Scripts -/

theorem perform_twin (hle : qn ≤ qn') (hpos : qn < qn' → 0 < qn) (call : Call Ev Ctx)
    {m : Machine Ev Ctx qn tn} {m' : Machine Ev Ctx qn' tn} (h : Twin w m m') :
    Twinned w (fun a => a.1 = .result (.error .queueFull) ∨ Refused a.2.journal)
      (perform c u call m) (perform c u call m') := by
  cases call with
  | step elapsed =>
      refine (step_twin hle h elapsed).bind ?_ ?_
      · rintro ⟨next, m₁⟩ _ hl hd
        cases hd
        exact .inr hl
      · rintro ⟨next, m₁⟩ ⟨_, m₁'⟩ ⟨rfl, h₁⟩
        exact .ok ⟨rfl, h₁⟩
  | send ev =>
      refine (send_twin hle ev h).bind (f := fun a => .ok (Answer.result a.1, a.2))
        (g := fun b => .ok (Answer.result b.1, b.2)) ?_ ?_
      · rintro a _ hl hd
        cases hd
        exact hl.imp_left (congrArg Answer.result)
      · rintro a b ⟨he, h₁⟩
        exact .ok ⟨congrArg Answer.result he, h₁⟩
  | dispatch fuel ev =>
      refine (dispatch_twin hle fuel ev h).bind ?_ ?_
      · rintro ⟨result, m₁⟩ _ hl hd
        cases hd
        exact hl.imp_left (congrArg Answer.result)
      · rintro ⟨result, m₁⟩ ⟨_, m₁'⟩ ⟨rfl, h₁⟩
        exact .ok ⟨rfl, h₁⟩
  | run k now wakes =>
      refine (run_twin hle hpos k now wakes h).bind ?_ ?_
      · rintro r _ hl hd
        cases r <;> cases hd <;> exact .inr hl
      · rintro r r' hr
        cases hr with
        | looping next now h₁ => exact .ok ⟨rfl, h₁⟩
        | returned result h₁ => exact .ok ⟨rfl, h₁⟩
  | takeOverflow => exact .ok ⟨congrArg Answer.overflow h.overflow, h.takeOverflow⟩
  | contextMut f => exact .ok ⟨rfl, { h with ctx := congrArg f h.ctx }⟩

theorem performAll_twin (hle : qn ≤ qn') (hpos : qn < qn' → 0 < qn) :
    ∀ (calls : List (Call Ev Ctx)) {m : Machine Ev Ctx qn tn} {m' : Machine Ev Ctx qn' tn},
    Twin w m m' →
    Twinned w (fun a => .result (.error .queueFull) ∈ a.1 ∨ Refused a.2.journal)
      (performAll c u calls m) (performAll c u calls m')
  | [], _, _, h => .ok ⟨rfl, h⟩
  | call :: calls, m, m', h => by
      refine (perform_twin hle hpos call h).bind ?_ ?_
      · rintro ⟨answer, m₁⟩ _ hl hd
        obtain ⟨⟨answers, m₂⟩, hrest, hd⟩ := Except.bind_eq_ok.mp hd
        cases hd
        refine hl.imp (fun he => ?_) fun hl => (refused_upheld c u).performAll hl hrest
        simp only at he
        rw [he]
        exact List.mem_cons_self
      · rintro ⟨answer, m₁⟩ ⟨_, m₁'⟩ ⟨rfl, h₁⟩
        refine (performAll_twin hle hpos calls h₁).bind ?_ ?_
        · rintro ⟨answers, m₂⟩ _ hl hd
          cases hd
          exact hl.imp_left (List.mem_cons_of_mem _)
        · rintro ⟨answers, m₂⟩ ⟨_, m₂'⟩ ⟨rfl, h₂⟩
          exact .ok ⟨rfl, h₂⟩

end Hsmc
