import Hsmc.Link.Moves

/-
  Running two machines of one chart side by side.

  The action bodies may differ, and so may the contexts and the queues. If a relation between
  the two machines survives the journal, the changes of configuration and timers, and every
  action (`Simulation`), then it survives everything a step is made of, up to `fireTimer`,
  `handleEvent` and the exits of `doTerminate`: both sides fail alike or end related.
-/

namespace Hsmc

open Machine

/-- What an emit journals. -/
def TraceEvent.isEmit : TraceEvent → Bool
  | .emitQueued _ | .emitFailed _ => true
  | _ => false

variable {Ev Ctx Ctx' Val : Type} {qn qn' tn : Nat} {c : Chart} {u : UserCode Ev Ctx Val}
  {u' : UserCode Ev Ctx' Val}

/-- A relation between machines that run, which every piece of the generated code keeps. -/
structure Simulation (c : Chart) (u : UserCode Ev Ctx Val) (u' : UserCode Ev Ctx' Val)
    (R : Machine Ev Ctx qn tn → Machine Ev Ctx' qn' tn → Prop) : Prop where
  variant : u'.variant = u.variant
  duration : u'.duration = u.duration
  running : ∀ {m m'}, R m m' → m.terminated = false ∧ m'.terminated = false
  current : ∀ {m m'}, R m m' → m'.current = m.current
  timers : ∀ {m m'}, R m m' → m'.timers = m.timers
  observe : ∀ {m m'} (e : TraceEvent), e.isEmit = false → R m m' → R (m.observe e) (m'.observe e)
  setCurrent : ∀ {m m'} (cur : Option Nat), R m m' →
    R { m with current := cur } { m' with current := cur }
  setTimers : ∀ {m m'} (tt : TimerTable tn), R m m' →
    R { m with timers := tt } { m' with timers := tt }
  runAction : ∀ {m m'} (aid : Nat) (event : Option Ev), R m m' →
    R (runAction c u aid event m) (runAction c u' aid event m')

namespace Simulation

variable {R : Machine Ev Ctx qn tn → Machine Ev Ctx' qn' tn → Prop} {m : Machine Ev Ctx qn tn}
  {m' : Machine Ev Ctx' qn' tn} (sim : Simulation c u u' R)
include sim

theorem eventToId_eq (ev : Ev) : eventToId c u' ev = eventToId c u ev := by
  unfold eventToId; rw [sim.variant]

theorem durationFor_eq (tid : Nat) : durationFor c u' tid = durationFor c u tid := by
  unfold durationFor; rw [sim.duration]

theorem observeAll {es : List TraceEvent} (hes : ∀ e ∈ es, e.isEmit = false) (h : R m m') :
    R (m.observeAll es) (m'.observeAll es) := by
  unfold Machine.observeAll
  induction es generalizing m m' with
  | nil => exact h
  | cons e es ih =>
      exact ih (fun e he => hes e (List.mem_cons_of_mem _ he))
        (sim.observe e (hes e List.mem_cons_self) h)

/-- The loop over a list of actions runs to its end on both sides. -/
theorem runActions (sid : Nat) (kind : ActionKind) (event : Option Ev) (aids : List Nat)
    (h : R m m') : ∃ m₁ m₁', Hsmc.runActions c u sid kind event aids m = (false, m₁) ∧
      Hsmc.runActions c u' sid kind event aids m' = (false, m₁') ∧ R m₁ m₁' := by
  induction aids generalizing m m' with
  | nil => exact ⟨m, m', rfl, rfl, h⟩
  | cons aid aids ih =>
      have h₁ := sim.runAction aid event (sim.observe (.actionInvoked sid aid kind) rfl h)
      obtain ⟨ht, ht'⟩ := sim.running h₁
      unfold Hsmc.runActions
      simp only [ht, ht', Bool.false_eq_true, ↓reduceIte]
      exact ih h₁

theorem startTimer (sid tid : Nat) (h : R m m') :
    R (startTimer c u sid tid m) (startTimer c u' sid tid m') := by
  unfold Hsmc.startTimer
  simp only [sim.durationFor_eq, sim.timers h]
  exact sim.observe _ rfl (sim.setTimers _ h)

/-! ## Entering and leaving one state -/

theorem enterStateNoDescent (sid : Nat) (h : R m m') :
    R (enterStateNoDescent c u sid m) (enterStateNoDescent c u' sid m') := by
  obtain ⟨m₁, m₁', hm₁, hm₁', h₁⟩ := sim.runActions sid .entry none (c.entriesOf sid)
    (sim.observe (.enterBegan sid) rfl h)
  have htimers : ∀ (tids : List Nat) {m : Machine Ev Ctx qn tn} {m' : Machine Ev Ctx' qn' tn},
      R m m' → R (tids.foldl (fun m tid => Hsmc.startTimer c u sid tid m) m)
        (tids.foldl (fun m tid => Hsmc.startTimer c u' sid tid m) m') := by
    intro tids
    induction tids with
    | nil => exact fun h => h
    | cons tid tids ih => exact fun h => ih (sim.startTimer sid tid h)
  have hdurings : ∀ e ∈ (List.range (c.duringsCount sid)).map (TraceEvent.duringStarted sid),
      e.isEmit = false := by
    intro e he
    obtain ⟨d, -, rfl⟩ := List.mem_map.mp he
    rfl
  unfold Hsmc.enterStateNoDescent
  simp only [hm₁, hm₁', Bool.false_eq_true, ↓reduceIte]
  exact sim.observe _ rfl
    (sim.observeAll hdurings (sim.setCurrent (some sid) (htimers (c.ownedTimers sid) h₁)))

theorem cancelTimers (sid : Nat) (h : R m m') :
    R (cancelTimers c sid m) (cancelTimers c sid m') := by
  unfold Hsmc.cancelTimers
  split
  · simp only [sim.timers h]
    exact sim.setTimers _ h
  · exact h

/-- What leaving a state does before its actions. -/
theorem exitBegun (sid : Nat) (h : R m m') :
    R (Hsmc.cancelTimers c sid (((m.observe (.exitBegan sid)).observeAll
        ((List.range (c.duringsCount sid)).map (.duringCancelled sid))).observeAll
        ((c.ownedTimers sid).map (.timerCancelled sid))))
      (Hsmc.cancelTimers c sid (((m'.observe (.exitBegan sid)).observeAll
        ((List.range (c.duringsCount sid)).map (.duringCancelled sid))).observeAll
        ((c.ownedTimers sid).map (.timerCancelled sid)))) := by
  have hcancelled : ∀ (f : Nat → TraceEvent) (l : List Nat), (∀ i, (f i).isEmit = false) →
      ∀ e ∈ l.map f, e.isEmit = false := by
    intro f l hf e he
    obtain ⟨i, -, rfl⟩ := List.mem_map.mp he
    exact hf i
  exact sim.cancelTimers sid (sim.observeAll (hcancelled _ _ fun _ => rfl)
    (sim.observeAll (hcancelled _ _ fun _ => rfl) (sim.observe (.exitBegan sid) rfl h)))

theorem exitState (sid : Nat) (h : R m m') :
    R (exitState c u sid m) (exitState c u' sid m') := by
  obtain ⟨m₂, m₂', hm₂, hm₂', h₂⟩ :=
    sim.runActions sid .exit none (c.exitsOf sid) (sim.exitBegun sid h)
  unfold Hsmc.exitState
  simp only [hm₂, hm₂', Bool.false_eq_true, ↓reduceIte]
  exact sim.observe _ rfl h₂

theorem exitStates (l : List Nat) (h : R m m') :
    R (l.foldl (fun m sid => Hsmc.exitState c u sid m) m)
      (l.foldl (fun m sid => Hsmc.exitState c u' sid m) m') := by
  induction l generalizing m m' with
  | nil => exact h
  | cons sid l ih => exact ih (sim.exitState sid h)

theorem enterStates (l : List Nat) (h : R m m') :
    ∃ m₁ m₁', Hsmc.enterStates c u l m = (false, m₁) ∧
      Hsmc.enterStates c u' l m' = (false, m₁') ∧ R m₁ m₁' := by
  induction l generalizing m m' with
  | nil => exact ⟨m, m', rfl, rfl, h⟩
  | cons sid l ih =>
      have h₁ := sim.enterStateNoDescent sid h
      obtain ⟨ht, ht'⟩ := sim.running h₁
      unfold Hsmc.enterStates
      simp only [ht, ht', Bool.false_eq_true, ↓reduceIte]
      exact ih h₁

/-! ## Transitions -/

theorem applyPath (src target : Nat) (h : R m m') :
    Except.Rel (fun a b => b.1 = a.1 ∧ R a.2 b.2) (applyPath c u src target m)
      (applyPath c u' src target m') := by
  unfold Hsmc.applyPath
  refine (Except.Rel.refl _).bind ?_
  rintro ⟨s, mid, e⟩ _ rfl
  refine (Except.Rel.refl _).bind ?_
  rintro exitPath _ rfl
  refine (Except.Rel.refl _).bind ?_
  rintro enterPath _ rfl
  obtain ⟨m₁, m₁', hm₁, hm₁', h₁⟩ := sim.enterStates enterPath (sim.exitStates exitPath h)
  simp only [hm₁, hm₁', Bool.false_eq_true, ↓reduceIte]
  split
  · exact .ok ⟨rfl, sim.setCurrent _ h₁⟩
  · exact .ok ⟨rfl, h₁⟩

theorem followDefaults (fuel : Nat) (h : R m m') :
    Except.Rel R (followDefaults c u fuel m) (followDefaults c u' fuel m') := by
  induction fuel generalizing m m' with
  | zero => exact .error _
  | succ fuel ih =>
      unfold Hsmc.followDefaults
      cases hcur : m.current with
      | none =>
          simp only [(sim.current h).trans hcur]
          exact .ok h
      | some cur =>
          simp only [(sim.current h).trans hcur, current_observe, hcur]
          refine (Except.Rel.refl _).bind ?_
          rintro target _ rfl
          cases target with
          | none => exact .ok h
          | some target =>
              refine (sim.applyPath cur target
                (sim.observe (.transitionFired (some cur) target .internal) rfl h)).bind ?_
              rintro ⟨entered, m₁⟩ ⟨entered', m₁'⟩ ⟨he, h₁⟩
              have h₂ := sim.observe (.transitionComplete (some cur) target) rfl h₁
              obtain ⟨ht, ht'⟩ := sim.running h₂
              simp only at he
              simp only [ht, ht', he, Bool.false_eq_true, ↓reduceIte]
              split
              · exact .ok h₂
              · exact ih h₂

theorem transition (target : Nat) (h : R m m') :
    Except.Rel R (transition c u target m) (transition c u' target m') := by
  unfold Hsmc.transition
  rw [sim.current h]
  refine (sim.applyPath _ target h).bind ?_
  rintro ⟨entered, m₁⟩ ⟨entered', m₁'⟩ ⟨he, h₁⟩
  obtain ⟨ht, ht'⟩ : m₁.terminated = false ∧ m₁'.terminated = false := sim.running h₁
  simp only at he
  simp only [ht, ht', he, Bool.false_eq_true, ↓reduceIte]
  split
  · exact sim.followDefaults _ h₁
  · exact .ok h₁

theorem enterPath (root : Nat) (h : R m m') :
    Except.Rel R (enterPath c u root m) (enterPath c u' root m') := by
  have h₁ := sim.enterStateNoDescent root h
  obtain ⟨ht, ht'⟩ := sim.running h₁
  unfold Hsmc.enterPath
  simp only [ht, ht', Bool.false_eq_true, ↓reduceIte]
  exact sim.followDefaults _ h₁

/-! ## Handlers -/

theorem runHandlers (sid : Nat) (aids : List Nat) (target : Option Nat) (event : Option Ev)
    (reason : TransitionReason) (h : R m m') :
    Except.Rel R (runHandlers c u sid aids target event reason m)
      (runHandlers c u' sid aids target event reason m') := by
  obtain ⟨m₁, m₁', hm₁, hm₁', h₁⟩ := sim.runActions sid .handler event aids h
  unfold Hsmc.runHandlers
  simp only [hm₁, hm₁', Bool.false_eq_true, ↓reduceIte]
  cases target with
  | none => exact .ok h₁
  | some target =>
      simp only [sim.current h₁, current_observe]
      refine (sim.transition target (sim.observe _ rfl h₁)).bind ?_
      intro m₂ m₂' h₂
      exact .ok (sim.observe _ rfl h₂)

theorem dispatchTrigger (state kind trig : Nat) (h : R m m') :
    Except.Rel R (dispatchTrigger c u state kind trig m)
      (dispatchTrigger c u' state kind trig m') := by
  unfold Hsmc.dispatchTrigger
  split
  · exact sim.runHandlers state _ _ none _ h
  · exact .ok h

theorem fireTimer (state trig : Nat) (h : R m m') :
    Except.Rel R (fireTimer c u state trig m) (fireTimer c u' state trig m') := by
  have h₁ := sim.observe (.timerFired state trig) rfl h
  unfold Hsmc.fireTimer
  simp only
  split
  · exact sim.dispatchTrigger state 1 trig (sim.startTimer state trig h₁)
  · exact sim.dispatchTrigger state 1 trig h₁

theorem handleEvent (ev : Ev) (h : R m m') :
    Except.Rel R (handleEvent c u ev m) (handleEvent c u' ev m') := by
  unfold Hsmc.handleEvent
  rw [sim.eventToId_eq, sim.current h]
  simp only
  split
  · exact .ok (sim.observe _ rfl h)
  · cases m.current with
    | none => exact .ok (sim.observe _ rfl h)
    | some cur =>
        refine (Except.Rel.refl _).bind ?_
        rintro ⟨handler, aids, target⟩ _ rfl
        simp only
        split
        · exact .ok (sim.observe _ rfl h)
        · exact sim.runHandlers handler aids target (some ev) _ (sim.observe _ rfl h)

end Simulation

end Hsmc
