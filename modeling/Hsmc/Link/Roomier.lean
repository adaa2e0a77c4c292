import Hsmc.Link.Emits

/-
  Two machines that differ in what waits in their queues.

  The second has no more waiting than the first. It goes along with the first (`Along`) until
  the first has an emit refused; then the actions are answered differently, and nothing more is
  known (`Astray`). Where nothing is emitted nothing is refused, and both queues stay as they
  are.
-/

namespace Hsmc

open Machine

variable {Ev Ctx Val : Type} {qn tn : Nat} {c : Chart} {u : UserCode Ev Ctx Val}

/-- No emit is journaled. -/
def Silent (j : List TraceEvent) : Prop := ∀ e ∈ j, e.isEmit = false

instance (j : List TraceEvent) : Decidable (Silent j) :=
  inferInstanceAs (Decidable (∀ e ∈ j, e.isEmit = false))

theorem silent_append {j w : List TraceEvent} : Silent (j ++ w) ↔ Silent j ∧ Silent w := by
  unfold Silent
  exact List.forall_mem_append

theorem silent_concat {j : List TraceEvent} {e : TraceEvent} :
    Silent (j ++ [e]) ↔ Silent j ∧ e.isEmit = false := by
  rw [silent_append]
  simp [Silent]

/-- The machines differ in the queue only, and the second has room for what the first takes.
    `q` and `q'` are the queues as long as nothing was emitted. -/
structure Along (q q' : List Ev) (m m' : Machine Ev Ctx qn tn) : Prop where
  same : m' = { m with queue := m'.queue }
  running : m.terminated = false
  clear : m.overflow = false
  room : m'.queue.items.length ≤ m.queue.items.length
  kept : Silent m.journal → m.queue.items = q ∧ m'.queue.items = q'

/-- The first machine has had an emit refused. -/
structure Astray (m m' : Machine Ev Ctx qn tn) : Prop where
  running : m.terminated = false
  running' : m'.terminated = false
  current : m'.current = m.current
  timers : m'.timers = m.timers
  refused : m.overflow = true
  loud : ¬ Silent m.journal
  loud' : ¬ Silent m'.journal

inductive Roomier (q q' : List Ev) (m m' : Machine Ev Ctx qn tn) : Prop where
  | along (h : Along q q' m m')
  | astray (h : Astray m m')

/-! ## Emits -/

/-- The flag stays raised. -/
theorem overflow_emit {m : Machine Ev Ctx qn tn} (ev : Ev) (ho : m.overflow = true) :
    (emit c u ev m).2.overflow = true := by
  cases ht : m.terminated with
  | true =>
      rw [emit_of_terminated ht]
      exact ho
  | false =>
      rw [emit_of_refused ht (Or.inl ho)]
      rfl

theorem overflow_runBody (b : Body Ev Ctx) {m : Machine Ev Ctx qn tn} (ho : m.overflow = true) :
    (runBody c u b m).overflow = true := by
  induction b generalizing m with
  | done ctx => exact ho
  | emit ev next ih => exact ih _ (overflow_emit ev ho)

theorem not_silent_of_appends {L : Language TraceEvent} {j j' : List TraceEvent}
    (h : Appends L j j') (hj : ¬ Silent j) : ¬ Silent j' := by
  obtain ⟨w, -, rfl⟩ := h
  exact fun hs => hj (silent_append.mp hs).1

theorem Astray.runBody {m m' : Machine Ev Ctx qn tn} (h : Astray m m') (b b' : Body Ev Ctx) :
    Astray (runBody c u b m) (runBody c u b' m') := by
  have hq := runBody_quiet (c := c) (u := u) b m
  have hq' := runBody_quiet (c := c) (u := u) b' m'
  exact ⟨hq.terminated.trans h.running, hq'.terminated.trans h.running',
    (hq'.current.trans h.current).trans hq.current.symm,
    (hq'.timers.trans h.timers).trans hq.timers.symm, overflow_runBody b h.refused,
    not_silent_of_appends hq.journal h.loud, not_silent_of_appends hq'.journal h.loud'⟩

/-- A machine with room answers every emit as the other does, until that one refuses. -/
theorem Along.runBody {q q' : List Ev} (b : Body Ev Ctx) : ∀ {m m' : Machine Ev Ctx qn tn},
    Along q q' m m' → Roomier q q' (runBody c u b m) (runBody c u b m') := by
  induction b with
  | done ctx =>
      intro m m' h
      obtain ⟨p, rfl⟩ : ∃ p, m' = { m with queue := p } := ⟨_, h.same⟩
      exact .along ⟨rfl, h.running, h.clear, h.room, h.kept⟩
  | emit ev next ih =>
      intro m m' h
      obtain ⟨p, rfl⟩ : ∃ p, m' = { m with queue := p } := ⟨_, h.same⟩
      have hroom : p.items.length ≤ m.queue.items.length := h.room
      have hloud : ∀ {j : List TraceEvent} {e : TraceEvent}, e.isEmit = true →
          ¬ Silent (j ++ [e]) := by
        intro j e he hs
        rw [(silent_concat.mp hs).2] at he
        cases he
      unfold Hsmc.runBody
      rcases emit_cases ev m with ⟨ho, queue, hpush⟩ | hrefused
      · have hlt := Bounded.lt_of_push hpush
        obtain ⟨p', hp, hitems⟩ := Bounded.push_of_lt (b := p) ev (by omega)
        rw [emit_of_push h.running ho hpush,
          emit_of_push (m := { m with queue := p }) h.running ho hp]
        refine ih _ ⟨rfl, h.running, h.clear, ?_, fun hs => (hloud rfl hs).elim⟩
        show p'.items.length ≤ queue.items.length
        rw [hitems, Bounded.items_of_push hpush]
        simpa using hroom
      · have hq := emit_quiet (c := c) (u := u) ev { m with queue := p }
        have hj : ¬ Silent (emit c u ev { m with queue := p }).2.journal := by
          rcases emit_cases ev { m with queue := p } with ⟨ho, p', hp⟩ | hp
          · rw [emit_of_push (m := { m with queue := p }) h.running ho hp]
            exact hloud rfl
          · rw [emit_of_refused (m := { m with queue := p }) h.running hp]
            exact hloud rfl
        have hastray : Astray ({ m with overflow := true }.observe (.emitFailed (eventToId c u ev)))
            (emit c u ev { m with queue := p }).2 :=
          { running := h.running, running' := hq.terminated.trans h.running, current := hq.current
            timers := hq.timers, refused := rfl, loud := hloud rfl, loud' := hj }
        rw [emit_of_refused h.running hrefused]
        exact .astray (hastray.runBody _ _)

/-! ## Everything a step is made of -/

theorem Astray.runAction {m m' : Machine Ev Ctx qn tn} (h : Astray m m') (aid : Nat)
    (event : Option Ev) : Astray (runAction c u aid event m) (runAction c u aid event m') := by
  unfold Hsmc.runAction
  cases c.actionArms.lookup aid with
  | none => exact h
  | some a =>
      simp only
      split
      · exact h.runBody _ _
      · cases event with
        | none => exact h
        | some ev =>
            simp only
            cases a.boundVariants.find? fun bv => bv.name == u.variant ev with
            | none => exact h
            | some bv => exact h.runBody _ _

theorem Along.runAction {q q' : List Ev} {m m' : Machine Ev Ctx qn tn} (h : Along q q' m m')
    (aid : Nat) (event : Option Ev) :
    Roomier q q' (runAction c u aid event m) (runAction c u aid event m') := by
  have hctx : m'.ctx = m.ctx := by rw [h.same]
  unfold Hsmc.runAction
  cases c.actionArms.lookup aid with
  | none => exact .along h
  | some a =>
      simp only [hctx]
      split
      · exact h.runBody _
      · cases event with
        | none => exact .along h
        | some ev =>
            simp only
            cases a.boundVariants.find? fun bv => bv.name == u.variant ev with
            | none => exact .along h
            | some bv => exact h.runBody _

theorem roomier_simulation (c : Chart) (u : UserCode Ev Ctx Val) (q q' : List Ev) :
    Simulation c u u
      (Roomier q q' : Machine Ev Ctx qn tn → Machine Ev Ctx qn tn → Prop) where
  variant := rfl
  duration := rfl
  running h := by
    cases h with
    | along h => exact ⟨h.running, by rw [h.same]; exact h.running⟩
    | astray h => exact ⟨h.running, h.running'⟩
  current h := by
    cases h with
    | along h => rw [h.same]
    | astray h => exact h.current
  timers h := by
    cases h with
    | along h => rw [h.same]
    | astray h => exact h.timers
  observe e he h := by
    cases h with
    | along h =>
        refine .along ⟨?_, h.running, h.clear, h.room, fun hs => h.kept (silent_concat.mp hs).1⟩
        rw [h.same]
        rfl
    | astray h =>
        exact .astray ⟨h.running, h.running', h.current, h.timers, h.refused,
          fun hs => h.loud (silent_concat.mp hs).1, fun hs => h.loud' (silent_concat.mp hs).1⟩
  setCurrent cur h := by
    cases h with
    | along h => exact .along ⟨by rw [h.same], h.running, h.clear, h.room, h.kept⟩
    | astray h => exact .astray { h with current := rfl }
  setTimers tt h := by
    cases h with
    | along h => exact .along ⟨by rw [h.same], h.running, h.clear, h.room, h.kept⟩
    | astray h => exact .astray { h with timers := rfl }
  runAction aid event h := by
    cases h with
    | along h => exact h.runAction aid event
    | astray h => exact .astray (h.runAction aid event)

/-! ## One step -/

theorem decrementTimers_queue (elapsed : Nat) (m : Machine Ev Ctx qn tn) (p : Bounded Ev qn) :
    decrementTimers c elapsed { m with queue := p } =
      { decrementTimers c elapsed m with queue := p } := by
  unfold decrementTimers; split <;> rfl

section

variable {m : Machine Ev Ctx qn tn} {p : Bounded Ev qn} {elapsed : Nat}
  (ht : m.terminated = false) (ho : m.overflow = false)
include ht ho

theorem start_roomier (elapsed : Nat) (hcur : m.current = none)
    (hroom : p.items.length ≤ m.queue.items.length) :
    Except.Rel (fun a b => Roomier m.queue.items p.items a.2 b.2) (step c u m elapsed)
      (step c u { m with queue := p } elapsed) := by
  rw [step_of_fresh ht hcur, step_of_fresh (m := { m with queue := p }) ht hcur]
  have halong : Along m.queue.items p.items (m.observe (.started c.chartHash))
      ({ m with queue := p }.observe (.started c.chartHash)) :=
    ⟨rfl, ht, ho, hroom, fun _ => ⟨rfl, rfl⟩⟩
  refine ((roomier_simulation c u m.queue.items p.items).enterPath 0 (.along halong)).bind ?_
  intro a b h
  exact .ok h

variable {cur : Nat} {ev : Ev} {queue p' : Bounded Ev qn} (hcur : m.current = some cur)
  (hpop : popTimer c (decrementTimers c elapsed m) = none)
  (hq : m.queue.popFront = some (ev, queue)) (hp : p.popFront = some (ev, p'))
  (hroom : p'.items.length ≤ queue.items.length)
include hroom

/-- The machines after the pop. -/
theorem along_popped : Along queue.items p'.items
    ({ decrementTimers c elapsed m with queue }.observe (.eventReceived (eventToId c u ev)))
    ({ decrementTimers c elapsed m with queue := p' }.observe
      (.eventReceived (eventToId c u ev))) :=
  ⟨rfl, by simpa using ht, by simpa using ho, hroom, fun _ => ⟨rfl, rfl⟩⟩

include hcur hpop hq hp

theorem handle_roomier (hterm : checkTerminate c u ev = false) :
    Except.Rel (fun a b => Roomier queue.items p'.items a.2 b.2) (step c u m elapsed)
      (step c u { m with queue := p } elapsed) := by
  have hdec := decrementTimers_queue (c := c) elapsed m p
  have hpop' : popTimer c (decrementTimers c elapsed { m with queue := p }) = none := by
    rw [hdec]
    exact hpop
  rw [step_of_event ht hcur hpop hq hterm,
    step_of_event (m := { m with queue := p }) ht hcur hpop' hp hterm, hdec]
  refine ((roomier_simulation c u queue.items p'.items).handleEvent ev
    (.along (along_popped ht ho hroom))).bind ?_
  intro a b h
  exact .ok h

/-- The shutdown empties both queues, so the machines meet, unless the first had an emit
    refused. -/
theorem terminate_roomier (S : c.Sound) (hlt : cur < c.nStates)
    (hterm : checkTerminate c u ev = true) {m₁ : Machine Ev Ctx qn tn} {next : Option Nat}
    (h : step c u m elapsed = .ok (next, m₁)) (ho₁ : m₁.overflow = false) :
    step c u { m with queue := p } elapsed = .ok (next, m₁) := by
  have hdec := decrementTimers_queue (c := c) elapsed m p
  have hpop' : popTimer c (decrementTimers c elapsed { m with queue := p }) = none := by
    rw [hdec]
    exact hpop
  have hsim : Roomier queue.items p'.items
      (exitAll c u cur (terminating c u elapsed ev queue m))
      (exitAll c u cur (terminating c u elapsed ev p' { m with queue := p })) := by
    unfold terminating
    rw [hdec]
    exact (roomier_simulation c u _ _).exitStates _
      ((roomier_simulation c u _ _).observe _ rfl (.along (along_popped ht ho hroom)))
  rw [step_terminate_eq S ht hcur hlt hpop hq hterm] at h
  rw [step_terminate_eq (m := { m with queue := p }) S ht hcur hlt hpop' hp hterm]
  cases h
  cases hsim with
  | along ha =>
      rw [ha.same]
      rfl
  | astray ha =>
      have : (exitAll c u cur (terminating c u elapsed ev queue m)).overflow = false := ho₁
      rw [ha.refused] at this
      cases this

end

end Hsmc
