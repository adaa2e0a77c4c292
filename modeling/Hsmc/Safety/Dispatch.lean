import Hsmc.Link.Reach

/-
  Event dispatch.

  * `dispatch_table_bubbles`: an entry of the dispatch table is the first handler on the walk
    from the state to the root, and the sentinel exactly when there is none.
  * `step_event`, `step_verdict`: an event that a step pops is dropped exactly when no active
    state handles it, and otherwise the innermost active state that does runs its handler, and
    nobody else.
  * `dispatch_bubbles` puts the two together for every accepted chart.
-/

open Computability

namespace Hsmc

open Machine

variable {Ev Ctx Val : Type} {qn tn : Nat} {c : Chart} {u : UserCode Ev Ctx Val}

/-- The journal entry that tells what became of an event. -/
def verdict (c : Chart) (cur v : Nat) : TraceEvent :=
  match c.bubbleUp cur v with
  | none => .eventDropped v
  | some (h, _) => .eventDelivered h v

/-- An entry of the dispatch table is the result of the bubbling search. -/
theorem dispatch_table_bubbles (S : c.Sound) {s v : Nat} (hs : s < c.nStates)
    (hv : v < c.nEvents) :
    (∀ h g, c.bubbleUp s v = some (h, g) →
      c.dispatch[s * c.nEvents + v]? = some (h, g.1, g.2) ∧ h ≠ u16Max) ∧
    (c.bubbleUp s v = none → c.dispatch[s * c.nEvents + v]? = some (u16Max, [], none)) := by
  have hd := S.dispatch_eq hs hv
  refine ⟨?_, ?_⟩
  · intro h g hb
    rw [hb] at hd
    have hlt := (S.bubbleUp_some hs hb).2.1
    have hle := S.nStates_le
    exact ⟨hd, by unfold u16Max; omega⟩
  · intro hb
    rw [hb] at hd
    exact hd

/-- Every call of `runHandlers` only appends to the journal. -/
theorem journal_prefix_runHandlers (S : c.Sound) {cur : Nat} (hlt : cur < c.nStates) (sid : Nat)
    (aids : List Nat) {target : Option Nat} (htarget : ∀ t, target = some t → t < c.nStates)
    (event : Option Ev) (reason : TransitionReason) {m m' : Machine Ev Ctx qn tn}
    (hcur : m.current = some cur) (ht : m.terminated = false)
    (h : runHandlers c u sid aids target event reason m = .ok m') : m.journal <+: m'.journal := by
  obtain ⟨m'', cur', hm, -, -, hg⟩ :=
    runHandlers_goes (u := u) S hlt sid aids htarget event reason hcur ht
  rw [h] at hm
  cases hm
  exact hg.run.journal_prefix

/-- What a step does with the event it pops, the time and the queue being accounted for. -/
theorem step_event {m m' : Machine Ev Ctx qn tn} {elapsed cur : Nat} {ev : Ev}
    {queue : Bounded Ev qn} {next : Option Nat} (S : c.Sound) (ht : m.terminated = false)
    (hcur : m.current = some cur) (hlt : cur < c.nStates)
    (hpop : popTimer c (decrementTimers c elapsed m) = none)
    (hq : m.queue.popFront = some (ev, queue)) (hterm : checkTerminate c u ev = false)
    (h : step c u m elapsed = .ok (next, m')) :
    match c.bubbleUp cur (eventToId c u ev) with
    | none => m' = ({ decrementTimers c elapsed m with queue }.observe
        (.eventReceived (eventToId c u ev))).observe (.eventDropped (eventToId c u ev))
    | some (h, g) => runHandlers c u h g.1 g.2 (some ev) (.event (eventToId c u ev))
        (({ decrementTimers c elapsed m with queue }.observe
          (.eventReceived (eventToId c u ev))).observe
          (.eventDelivered h (eventToId c u ev))) = .ok m' := by
  rw [step_of_event ht hcur hpop hq hterm, Except.bind_eq_ok] at h
  obtain ⟨m₁, hm₁, h⟩ := h
  cases h
  rw [handleEvent_eq S hlt ev (by simpa using hcur)] at hm₁
  cases hb : c.bubbleUp cur (eventToId c u ev) with
  | none =>
      rw [hb] at hm₁
      cases hm₁
      rfl
  | some p =>
      rw [hb] at hm₁
      exact hm₁

/-- What became of a popped event: the journal says it right after receiving the event. -/
theorem step_verdict {m m' : Machine Ev Ctx qn tn} {elapsed cur : Nat} {ev : Ev}
    {queue : Bounded Ev qn} {next : Option Nat} (S : c.Sound) (ht : m.terminated = false)
    (hcur : m.current = some cur) (hlt : cur < c.nStates)
    (hpop : popTimer c (decrementTimers c elapsed m) = none)
    (hq : m.queue.popFront = some (ev, queue)) (hterm : checkTerminate c u ev = false)
    (h : step c u m elapsed = .ok (next, m')) :
    ∃ rest, m'.journal = m.journal ++
      .eventReceived (eventToId c u ev) :: verdict c cur (eventToId c u ev) :: rest := by
  have hev := step_event S ht hcur hlt hpop hq hterm h
  unfold verdict
  cases hb : c.bubbleUp cur (eventToId c u ev) with
  | none =>
      rw [hb] at hev
      subst hev
      exact ⟨[], by simp⟩
  | some p =>
      obtain ⟨x, g⟩ := p
      rw [hb] at hev
      obtain ⟨rest, hrest⟩ := journal_prefix_runHandlers S hlt x g.1
        (fun t he => S.handler_target_lt (S.bubbleUp_some hlt hb).2.2 he) (some ev) _
        (by simpa using hcur) (by simpa using ht) hev
      exact ⟨rest, by simp [← hrest]⟩

/-- The dispatch table equals the bubbling search, and what a step does with a popped event
    follows it: the event is dropped exactly when no active state handles it, and otherwise
    the handlers of the innermost active state that does are what the step runs. -/
theorem dispatch_bubbles {input : StatechartInput} (hc : statechartImpl input = .ok c) :
    (∀ s v, s < c.nStates → v < c.nEvents →
      (∀ h g, c.bubbleUp s v = some (h, g) →
        c.dispatch[s * c.nEvents + v]? = some (h, g.1, g.2) ∧ h ≠ u16Max) ∧
      (c.bubbleUp s v = none → c.dispatch[s * c.nEvents + v]? = some (u16Max, [], none))) ∧
    (∀ (m m' : ChartMachine c Ev Ctx qn) (elapsed cur : Nat) (ev : Ev) (queue : Bounded Ev qn)
      (next : Option Nat), Reachable c u m → m.terminated = false → m.current = some cur →
      popTimer c (decrementTimers c elapsed m) = none → m.queue.popFront = some (ev, queue) →
      checkTerminate c u ev = false → step c u m elapsed = .ok (next, m') →
      (∃ rest, m'.journal = m.journal ++
        .eventReceived (eventToId c u ev) :: verdict c cur (eventToId c u ev) :: rest) ∧
      match c.bubbleUp cur (eventToId c u ev) with
      | none => m' = ({ decrementTimers c elapsed m with queue }.observe
          (.eventReceived (eventToId c u ev))).observe (.eventDropped (eventToId c u ev))
      | some (h, g) => runHandlers c u h g.1 g.2 (some ev) (.event (eventToId c u ev))
          (({ decrementTimers c elapsed m with queue }.observe
            (.eventReceived (eventToId c u ev))).observe
            (.eventDelivered h (eventToId c u ev))) = .ok m') := by
  obtain ⟨S⟩ := sound hc
  refine ⟨fun s v hs hv => dispatch_table_bubbles S hs hv, ?_⟩
  intro m m' elapsed cur ev queue next hm ht hcur hpop hq hterm h
  have hlt := (hm.valid S).current_lt cur hcur
  exact ⟨step_verdict S ht hcur hlt hpop hq hterm h, step_event S ht hcur hlt hpop hq hterm h⟩

/-- The lamp, toggled once more but not yet stepped. -/
def lampToggled : ChartMachine lampChart Ident Nat 4 := (lampOn.send "Toggle").2

theorem lampToggled_isOk : (step lampChart countCode lampToggled 0).isOk = true := by
  decide +kernel

def lampOff : ChartMachine lampChart Ident Nat 4 := (Except.get _ lampToggled_isOk).2

theorem dispatch_bubbles_lamp : ∃ rest, lampOff.journal = lampToggled.journal ++
    .eventReceived (eventToId lampChart countCode "Toggle") ::
      verdict lampChart 2 (eventToId lampChart countCode "Toggle") :: rest :=
  ((dispatch_bubbles lamp_accepted).2 lampToggled lampOff 0 2 "Toggle" Bounded.empty _
    (lampOn_reachable.send "Toggle") rfl (by decide +kernel) (by decide +kernel)
    (by decide +kernel) (by decide +kernel)
    (Except.eq_ok_get _ lampToggled_isOk)).1

end Hsmc
