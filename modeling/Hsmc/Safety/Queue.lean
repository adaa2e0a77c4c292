import Hsmc.Link.Emits

/-
  Events are processed once each and in order.

  * `Traffic`: a run of calls, with the events it accepted and the events its steps popped.
  * `Balanced`: what was accepted is what was popped followed by the queue.
  * `step_unit`: a step journals one complete unit, which begins with the event it popped.
  * `events_once_in_order` puts them together.
-/

open Computability

namespace Hsmc

open Machine

variable {Ev Ctx Val : Type} {qn tn : Nat} {c : Chart} {u : UserCode Ev Ctx Val}

/-- The event of a call, if its push was accepted. `dispatch` pushes as `send` does. -/
def pushed (ev : Ev) (m : Machine Ev Ctx qn tn) : List Ev := accepted [(ev, (m.send ev).1)]

variable (c u) in
/-- A run of calls from `m`: the events that were accepted, in the order they were pushed, and
    those that were popped. -/
inductive Traffic (m : ChartMachine c Ev Ctx qn) :
    List Ev → List Ev → ChartMachine c Ev Ctx qn → Prop where
  | refl : Traffic m [] [] m
  | step {A R : List Ev} {m₁ m₂ : ChartMachine c Ev Ctx qn} {elapsed : Nat} {next : Option Nat} :
      Traffic m A R m₁ → step c u m₁ elapsed = .ok (next, m₂) →
      Traffic m (A ++ accepted (stepEmits c u m₁ elapsed)) (R ++ stepPops c m₁ elapsed) m₂
  | send {A R : List Ev} {m₁ : ChartMachine c Ev Ctx qn} (ev : Ev) :
      Traffic m A R m₁ → Traffic m (A ++ pushed ev m₁) R (m₁.send ev).2
  | dispatch {A R : List Ev} {m₁ m₂ : ChartMachine c Ev Ctx qn} {fuel : Nat} {ev : Ev}
      {result : Except HsmcError Unit} :
      Traffic m A R m₁ → dispatch c u fuel ev m₁ = .ok (result, m₂) →
      Traffic m (A ++ pushed ev m₁ ++
          (dispatchSteps c u fuel ev m₁).flatMap fun x => accepted (stepEmits c u x 0))
        (R ++ (dispatchSteps c u fuel ev m₁).flatMap fun x => stepPops c x 0) m₂
  | takeOverflow {A R : List Ev} {m₁ : ChartMachine c Ev Ctx qn} :
      Traffic m A R m₁ → Traffic m A R m₁.takeOverflow.2
  | contextMut {A R : List Ev} {m₁ : ChartMachine c Ev Ctx qn} (f : Ctx → Ctx) :
      Traffic m A R m₁ → Traffic m A R { m₁ with ctx := f m₁.ctx }

theorem Traffic.congr {A A' R R' : List Ev} {m m' : ChartMachine c Ev Ctx qn}
    (h : Traffic c u m A R m') (hA : A = A') (hR : R = R') : Traffic c u m A' R' m' := by
  subst hA hR
  exact h

/-! ## Accepted and popped -/

/-- `A` was accepted and `R` popped so far. -/
structure Balanced (c : Chart) (A R : List Ev) (m : Machine Ev Ctx qn tn) : Prop where
  valid : m.Valid c
  running : m.terminated = false → A = R ++ m.queue.items
  halted : m.terminated = true → R <+: A ∧ m.queue.items = []

theorem Balanced.of_sameCore {A R : List Ev} {m m' : Machine Ev Ctx qn tn}
    (h : Balanced c A R m) (hsame : SameCore m m') (hq : m'.queue = m.queue) :
    Balanced c A R m' :=
  ⟨hsame.valid h.valid, by rw [hsame.terminated, hq]; exact h.running,
    by rw [hsame.terminated, hq]; exact h.halted⟩

theorem balanced_step (S : c.Sound) {A R : List Ev} {m m' : Machine Ev Ctx qn tn} {elapsed : Nat}
    {next : Option Nat} (hb : Balanced c A R m) (h : step c u m elapsed = .ok (next, m')) :
    Balanced c (A ++ accepted (stepEmits c u m elapsed)) (R ++ stepPops c m elapsed) m' := by
  cases ht : m.terminated with
  | true =>
      obtain ⟨hemits, hpops⟩ : stepEmits c u m elapsed = [] ∧ stepPops c m elapsed = [] :=
        stepEmits_of_terminated ht
      rw [step_of_terminated ht] at h
      cases h
      rw [hemits, hpops]
      simpa [accepted] using hb
  | false =>
      obtain ⟨rest, acc, ref, hs⟩ := step_serves S hb.valid ht h
      have hA := hb.running ht
      rw [hs.pops, ← List.append_assoc] at hA
      have hq := hs.queue
      rw [hs.emits, accepted_answered]
      refine ⟨(step_spec_of_ok S hb.valid h).valid, ?_, ?_⟩
      · intro ht'
        rw [ht'] at hq
        rw [hq, hA]
        simp
      · intro ht'
        rw [ht'] at hq
        refine ⟨?_, hq⟩
        rw [hA, List.append_assoc]
        exact List.prefix_append _ _

theorem balanced_send {A R : List Ev} {m : Machine Ev Ctx qn tn} (ev : Ev)
    (hb : Balanced c A R m) : Balanced c (A ++ pushed ev m) R (m.send ev).2 := by
  have hv := (sameCore_send ev m).valid hb.valid
  unfold pushed
  cases ht : m.terminated with
  | true =>
      rw [send_of_terminated ht]
      simpa [accepted] using hb
  | false =>
      cases hpush : m.queue.push ev with
      | none =>
          rw [send_of_full ht hpush]
          simpa [accepted] using hb
      | some queue =>
          rw [send_of_push ht hpush] at hv ⊢
          refine ⟨hv, fun _ => ?_, fun h => absurd h (by simp [ht])⟩
          rw [hb.running ht, Bounded.items_of_push hpush]
          simp [accepted]

theorem Drains.balanced (S : c.Sound) {ms : List (Machine Ev Ctx qn tn)}
    {m m' : Machine Ev Ctx qn tn} {result : Except HsmcError Unit}
    (hd : Drains c u m ms result m') {A R : List Ev} (hb : Balanced c A R m) :
    Balanced c (A ++ ms.flatMap fun x => accepted (stepEmits c u x 0))
      (R ++ ms.flatMap fun x => stepPops c x 0) m' := by
  have htake : ∀ {A R : List Ev} {m : Machine Ev Ctx qn tn}, Balanced c A R m →
      Balanced c A R m.takeOverflow.2 :=
    fun hb => hb.of_sameCore (sameCore_takeOverflow _) rfl
  induction hd generalizing A R with
  | empty _ => simpa using hb
  | overflow _ h₁ _ => simpa using htake (balanced_step S hb h₁)
  | terminated _ h₁ _ _ => simpa using htake (balanced_step S hb h₁)
  | turn _ h₁ _ _ _ ih =>
      have := ih (htake (balanced_step S hb h₁))
      rwa [List.append_assoc, List.append_assoc] at this

theorem balanced_dispatch (S : c.Sound) {A R : List Ev} {m m' : Machine Ev Ctx qn tn}
    {fuel : Nat} {ev : Ev} {result : Except HsmcError Unit} (hb : Balanced c A R m)
    (h : dispatch c u fuel ev m = .ok (result, m')) :
    Balanced c
      (A ++ pushed ev m ++
        (dispatchSteps c u fuel ev m).flatMap fun x => accepted (stepEmits c u x 0))
      (R ++ (dispatchSteps c u fuel ev m).flatMap fun x => stepPops c x 0) m' := by
  have hsent := balanced_send ev hb
  rcases dispatch_drains h with ⟨ht, hms, -, rfl⟩ | ⟨ht, hpush, hms, -, rfl⟩ |
    ⟨queue, ht, hpush, hd⟩
  · rw [send_of_terminated ht] at hsent
    rw [hms]
    simpa using hsent
  · rw [send_of_full ht hpush] at hsent
    rw [hms]
    simpa using hsent
  · rw [send_of_push ht hpush] at hsent
    exact hd.balanced S hsent

theorem Traffic.balanced (S : c.Sound) {ctx : Ctx} {A R : List Ev} {m : ChartMachine c Ev Ctx qn}
    (h : Traffic c u (Machine.new ctx) A R m) : Balanced c A R m := by
  induction h with
  | refl => exact ⟨valid_new ctx, fun _ => rfl, fun h => nomatch h⟩
  | step _ hstep ih => exact balanced_step S ih hstep
  | send ev _ ih => exact balanced_send ev ih
  | dispatch _ hd ih => exact balanced_dispatch S ih hd
  | takeOverflow _ ih => exact ih.of_sameCore (sameCore_takeOverflow _) rfl
  | contextMut f _ ih => exact ih.of_sameCore (sameCore_ctx f _) rfl

/-- No call of a run from a terminated machine accepts or pops anything. -/
theorem Traffic.halted {A R : List Ev} {m m' : ChartMachine c Ev Ctx qn}
    (h : Traffic c u m A R m') (ht : m.terminated = true) :
    A = [] ∧ R = [] ∧ m'.terminated = true := by
  induction h with
  | refl => exact ⟨rfl, rfl, ht⟩
  | @step A R m₁ m₂ elapsed next _ hstep ih =>
      obtain ⟨rfl, rfl, ht₁⟩ := ih
      obtain ⟨hemits, hpops⟩ : stepEmits c u m₁ elapsed = [] ∧ stepPops c m₁ elapsed = [] :=
        stepEmits_of_terminated ht₁
      rw [step_of_terminated ht₁] at hstep
      cases hstep
      rw [hemits, hpops]
      exact ⟨rfl, rfl, ht₁⟩
  | send ev _ ih =>
      obtain ⟨rfl, rfl, ht₁⟩ := ih
      unfold pushed
      rw [send_of_terminated ht₁]
      exact ⟨rfl, rfl, ht₁⟩
  | dispatch _ hd ih =>
      obtain ⟨rfl, rfl, ht₁⟩ := ih
      rcases dispatch_drains hd with ⟨-, hms, -, rfl⟩ | ⟨ht', -⟩ | ⟨-, ht', -⟩
      · unfold pushed
        rw [send_of_terminated ht₁, hms]
        exact ⟨rfl, rfl, ht₁⟩
      · rw [ht₁] at ht'
        cases ht'
      · rw [ht₁] at ht'
        cases ht'
  | takeOverflow _ ih => exact ih
  | contextMut f _ ih => exact ih

/-! ## Units -/

/-- What a step may journal: a unit that begins with the event the step popped, or the start-up,
    the unit of a timer or nothing when it popped none. -/
def unitWords (c : Chart) (u : UserCode Ev Ctx Val) : List Ev → Language TraceEvent
  | [] => 1 + startWords c.chartHash + timerUnit
  | ev :: _ => evt (.eventReceived (eventToId c u ev)) * (eventWords (eventToId c u ev) +
      evt (.terminateRequested (eventToId c u ev)) * (exitBlocks * evt .terminated))

theorem step_unit (S : c.Sound) {m m' : Machine Ev Ctx qn tn} {elapsed : Nat} {next : Option Nat}
    (hv : m.Valid c) (h : step c u m elapsed = .ok (next, m')) :
    Appends (unitWords c u (stepPops c m elapsed)) m.journal m'.journal := by
  have hle : (1 : Language TraceEvent) ≤ 1 + startWords c.chartHash + timerUnit :=
    le_trans le_self_add le_self_add
  cases (step_spec_of_ok S hv h).outcome with
  | halted ht he =>
      rw [(stepEmits_of_terminated (c := c) (u := u) ht).2, he]
      exact (Appends.refl _).mono hle
  | started ht hcur _ _ hj =>
      have hpops : stepPops c m elapsed = [] := by simp [stepPops, hcur]
      rw [hpops]
      exact hj.mono (le_trans le_add_self le_self_add)
  | fired s t tt ht hcur hpop _ _ _ hj =>
      have hpops : stepPops c m elapsed = [] := by
        simp [stepPops, ht, Option.isSome_iff_ne_none.mp hcur, hpop]
      rw [hpops]
      exact hj.mono le_add_self
  | idle ht hcur hpop hq he =>
      have hpops : stepPops c m elapsed = [] := by
        simp [stepPops, ht, Option.isSome_iff_ne_none.mp hcur, hpop, hq]
      rw [hpops, he, journal_decrementTimers]
      exact (Appends.refl _).mono hle
  | handled ev queue ht hcur hpop hq hterm hhandle _ _ _ =>
      have hpops : stepPops c m elapsed = [ev] := by
        simp [stepPops, ht, Option.isSome_iff_ne_none.mp hcur, hpop, hq]
      obtain ⟨cur, hcur⟩ := Option.isSome_iff_exists.mp hcur
      obtain ⟨m₁, _, hm₁, -, -, hg⟩ := handleEvent_goes (u := u) S (hv.current_lt cur hcur) ev
        (m := { decrementTimers c elapsed m with queue }.observe
          (.eventReceived (eventToId c u ev))) (by simpa using hcur) (by simpa using ht)
      rw [hhandle] at hm₁
      cases hm₁
      rw [hpops]
      have := (Appends.of_mem (mem_evt (.eventReceived (eventToId c u ev))) m.journal).trans
        (by simpa using hg.journal)
      exact this.mono (mul_le_mul_right le_self_add _)
  | terminated ev queue ht hcur hpop hq hterm _ _ _ _ =>
      have hpops : stepPops c m elapsed = [ev] := by
        simp [stepPops, ht, Option.isSome_iff_ne_none.mp hcur, hpop, hq]
      obtain ⟨cur, hcur⟩ := Option.isSome_iff_exists.mp hcur
      have hlt := hv.current_lt cur hcur
      obtain ⟨m₁, hm₁, -, -, -, -, hj⟩ := doTerminate_goes (u := u) S hlt
        (m := terminating c u elapsed ev queue m) (by simpa [terminating] using hcur)
        (by simpa [terminating] using ht)
      rw [step_of_terminate ht hcur hpop hq hterm] at h
      obtain ⟨m₂, hm₂, he⟩ := Except.bind_eq_ok.mp h
      cases he
      unfold terminating at hm₁
      rw [hm₂] at hm₁
      cases hm₁
      rw [hpops]
      have := (Appends.of_mem (mem_evt (.eventReceived (eventToId c u ev))) m.journal).trans
        ((Appends.of_mem (mem_evt (.terminateRequested (eventToId c u ev))) _).trans
          (by simpa [terminating] using hj))
      exact this.mono (mul_le_mul_right le_add_self _)

/-! ## The result -/

/-- What a step does with the event it pops: the event stood at the front, everything that is
    emitted meanwhile is put behind the rest, and the step ends with its unit complete. -/
structure Processes (c : Chart) (u : UserCode Ev Ctx Val) (m : Machine Ev Ctx qn tn)
    (elapsed : Nat) (m' : Machine Ev Ctx qn tn) : Prop where
  one : (stepPops c m elapsed).length ≤ 1
  queue : ∃ rest, m.queue.items = stepPops c m elapsed ++ rest ∧ (m'.terminated = false →
    m'.queue.items = rest ++ accepted (stepEmits c u m elapsed))
  unit : Appends (unitWords c u (stepPops c m elapsed)) m.journal m'.journal
  emits : m'.journal.filter TraceEvent.isEmit =
    m.journal.filter TraceEvent.isEmit ++ (stepEmits c u m elapsed).map (emitEntry c u)

theorem length_stepPops_le (m : Machine Ev Ctx qn tn) (elapsed : Nat) :
    (stepPops c m elapsed).length ≤ 1 := by
  unfold stepPops
  split
  · simp
  · split
    · simp
    · cases m.queue.popFront <;> simp

theorem step_processes (S : c.Sound) {m m' : Machine Ev Ctx qn tn} {elapsed : Nat}
    {next : Option Nat} (hv : m.Valid c) (ht : m.terminated = false)
    (h : step c u m elapsed = .ok (next, m')) : Processes c u m elapsed m' := by
  obtain ⟨rest, acc, ref, hs⟩ := step_serves S hv ht h
  refine ⟨length_stepPops_le m elapsed, ⟨rest, hs.pops, fun ht' => ?_⟩, step_unit S hv h,
    hs.journal⟩
  rw [hs.queue, ht', hs.emits, accepted_answered]
  rfl

theorem Traffic.reachable {ctx : Ctx} {A R : List Ev} {m : ChartMachine c Ev Ctx qn}
    (h : Traffic c u (Machine.new ctx) A R m) : Reachable c u m := by
  induction h with
  | refl => exact .new ctx
  | step _ hstep ih => exact .step ih hstep
  | send ev _ ih => exact .send ev ih
  | dispatch _ hd ih => exact .dispatch ih hd
  | takeOverflow _ ih => exact .takeOverflow ih
  | contextMut f _ ih => exact .contextMut f ih

/-- Accepted events are processed once each and in order. Until termination, what was accepted
    is what was popped followed by the queue; at termination the rest is discarded, and no
    later call pops it. A step, be it the driver's or one of a `dispatch`, takes at most the
    front event and puts what is emitted meanwhile behind the others. -/
theorem events_once_in_order {input : StatechartInput} (hc : statechartImpl input = .ok c)
    {ctx : Ctx} {A R : List Ev} {m : ChartMachine c Ev Ctx qn}
    (h : Traffic c u (Machine.new ctx) A R m) :
    (m.terminated = false → A = R ++ m.queue.items) ∧ m.queue.items.length ≤ qn ∧
    (m.terminated = true → R <+: A ∧ m.queue.items = [] ∧
      ∀ A' R' m', Traffic c u m A' R' m' → A' = [] ∧ R' = []) ∧
    ∀ x, (x = m ∨ ∃ fuel ev, x ∈ dispatchSteps c u fuel ev m) → ∀ elapsed next x',
      x.terminated = false → step c u x elapsed = .ok (next, x') → Processes c u x elapsed x' := by
  obtain ⟨S⟩ := sound hc
  have hb := h.balanced S
  refine ⟨hb.running, m.queue.length_le, ?_, ?_⟩
  · intro ht
    obtain ⟨hR, hq⟩ := hb.halted ht
    refine ⟨hR, hq, fun A' R' m' h' => ?_⟩
    obtain ⟨hA', hR', -⟩ := h'.halted ht
    exact ⟨hA', hR'⟩
  · intro x hx elapsed next x' htx hstep
    refine step_processes S ?_ htx hstep
    rcases hx with rfl | ⟨fuel, ev, hx⟩
    · exact hb.valid
    · exact (reachable_of_mem_dispatchSteps h.reachable hx).valid S

theorem relayPing_isOk : (dispatch relayChart (relayCode 0 1) 4 "Ping"
    (.new () : ChartMachine relayChart Ident Unit 4)).isOk = true := by
  decide +kernel

/-- The relay after a `Ping`, and after the `Ping` it sent itself in parting. -/
def relayPinged : ChartMachine relayChart Ident Unit 4 := (Except.get _ relayPing_isOk).2

theorem relayPing_traffic : Traffic relayChart (relayCode 0 1) (.new ()) ["Ping", "Ping"]
    ["Ping", "Ping"] relayPinged :=
  (Traffic.dispatch .refl (Except.eq_ok_get _ relayPing_isOk)).congr
    (by decide +kernel) (by decide +kernel)

theorem events_once_in_order_relay :
    ["Ping", "Ping"] = ["Ping", "Ping"] ++ relayPinged.queue.items :=
  (events_once_in_order relay_accepted relayPing_traffic).1 (by decide +kernel)

end Hsmc
