import Hsmc.Link.Step
import Hsmc.Runtime.Emits

/-
  Action invocations and the calls of user code they stand for.

  `Performs Q m m'`: from `m` to `m'` the machine journals, changes its configuration, and calls
  methods of the user. A call and the `ActionInvoked` that announces it are one act, so nothing
  is journaled as invoked without being called, once and at once. `Q` says which call an
  invocation may stand for. When every list of actions that the chart holds is `Callable`, every
  piece of the generated code performs, up to a whole step (`step_performs`).
-/

namespace Hsmc

open Machine

variable {Ev Ctx Val : Type} {qn tn : Nat} (c : Chart) (u : UserCode Ev Ctx Val)

def TraceEvent.isInvocation : TraceEvent → Bool
  | .actionInvoked .. => true
  | _ => false

section

variable (Q : Nat → Nat → ActionKind → Ident → List Val → Prop)

/-- Journaling, changes of configuration, and invocations each with its call. -/
inductive Performs : Machine Ev Ctx qn tn → Machine Ev Ctx qn tn → Prop where
  | refl (m : Machine Ev Ctx qn tn) : Performs m m
  | note {e : TraceEvent} {m m' : Machine Ev Ctx qn tn} : e.isInvocation = false →
      Performs (m.observe e) m' → Performs m m'
  | config {m m₁ m' : Machine Ev Ctx qn tn} : m₁.journal = m.journal → m₁.ctx = m.ctx →
      Performs m₁ m' → Performs m m'
  | call {sid aid : Nat} {kind : ActionKind} {name : Ident} {args : List Val}
      {m m' : Machine Ev Ctx qn tn} : Q sid aid kind name args →
      Performs (runBody c u (u.method name args m.ctx) (m.observe (.actionInvoked sid aid kind)))
        m' → Performs m m'

/-- Running action `aid` is one call, of a method that `Q` allows. -/
def Callable (qn tn : Nat) (sid aid : Nat) (kind : ActionKind) (event : Option Ev) : Prop :=
  ∃ name args, Q sid aid kind name args ∧ ∀ m : Machine Ev Ctx qn tn,
    runAction c u aid event m = runBody c u (u.method name args m.ctx) m

/-- The actions of entries and exits are called, and so are those of every handler: those for
    events when the handled event has the handler's id. -/
structure AllCallable (qn tn : Nat) (event : Option Ev) : Prop where
  entry : ∀ sid, ∀ aid ∈ c.entriesOf sid, Callable c u Q qn tn sid aid .entry none
  exit : ∀ sid, ∀ aid ∈ c.exitsOf sid, Callable c u Q qn tn sid aid .exit none
  timer : ∀ sid t g, c.handlerLookup sid 1 t = some g →
    ∀ aid ∈ g.1, Callable c u Q qn tn sid aid .handler none
  event : ∀ sid ev g, event = some ev → c.handlerLookup sid 0 (eventToId c u ev) = some g →
    ∀ aid ∈ g.1, Callable c u Q qn tn sid aid .handler (some ev)

end

variable {c u} {Q : Nat → Nat → ActionKind → Ident → List Val → Prop}
  {m m' m'' : Machine Ev Ctx qn tn}

namespace Performs

theorem trans (h : Performs c u Q m m') (h' : Performs c u Q m' m'') : Performs c u Q m m'' := by
  induction h with
  | refl => exact h'
  | note he _ ih => exact .note he (ih h')
  | config hj hc _ ih => exact .config hj hc (ih h')
  | call hq _ ih => exact .call hq (ih h')

theorem observe (e : TraceEvent) (he : e.isInvocation = false) (m : Machine Ev Ctx qn tn) :
    Performs c u Q m (m.observe e) := .note he (.refl _)

theorem observeAll : ∀ {es : List TraceEvent}, (∀ e ∈ es, e.isInvocation = false) →
    ∀ m : Machine Ev Ctx qn tn, Performs c u Q m (m.observeAll es)
  | [], _, m => .refl m
  | e :: _, hes, m => .note (hes e List.mem_cons_self)
      (observeAll (fun e he => hes e (List.mem_cons_of_mem _ he)) (m.observe e))

theorem change (hj : m'.journal = m.journal) (hc : m'.ctx = m.ctx) : Performs c u Q m m' :=
  .config hj hc (.refl _)

end Performs

theorem isInvocation_map {α : Type} {f : α → TraceEvent} (hf : ∀ a, (f a).isInvocation = false)
    (l : List α) : ∀ e ∈ l.map f, e.isInvocation = false := by
  intro e he
  obtain ⟨a, -, rfl⟩ := List.mem_map.mp he
  exact hf a

/-! ## The generated code performs -/

theorem runActions_performs (sid : Nat) (kind : ActionKind) (event : Option Ev) :
    ∀ (aids : List Nat) {m : Machine Ev Ctx qn tn},
      (∀ aid ∈ aids, Callable c u Q qn tn sid aid kind event) →
      Performs c u Q m (runActions c u sid kind event aids m).2
  | [], m, _ => .refl m
  | aid :: aids, m, h => by
      obtain ⟨name, args, hq, hrun⟩ := h aid List.mem_cons_self
      unfold runActions
      rw [hrun]
      refine .call hq ?_
      dsimp only
      split
      · exact .refl _
      · exact runActions_performs sid kind event aids fun a ha => h a (List.mem_cons_of_mem _ ha)

theorem startTimer_performs (sid tid : Nat) (m : Machine Ev Ctx qn tn) :
    Performs c u Q m (startTimer c u sid tid m) := by
  unfold startTimer
  refine (Performs.change ?_ ?_).trans
    (.observe (.timerArmed sid tid (asU64 (durationFor c u tid))) rfl _) <;> rfl

theorem startTimers_performs (sid : Nat) : ∀ (tids : List Nat) {m : Machine Ev Ctx qn tn},
    Performs c u Q m (tids.foldl (fun m tid => startTimer c u sid tid m) m)
  | [], m => .refl m
  | tid :: tids, m => (startTimer_performs sid tid m).trans (startTimers_performs sid tids)

theorem cancelTimers_performs (sid : Nat) (m : Machine Ev Ctx qn tn) :
    Performs c u Q m (cancelTimers c sid m) := by
  unfold cancelTimers
  split
  · exact .change rfl rfl
  · exact .refl m

variable {event : Option Ev} (hall : AllCallable c u Q qn tn event)
include hall

theorem enterStateNoDescent_performs (sid : Nat) (m : Machine Ev Ctx qn tn) :
    Performs c u Q m (enterStateNoDescent c u sid m) := by
  unfold enterStateNoDescent
  refine (Performs.observe (.enterBegan sid) rfl m).trans ?_
  refine (runActions_performs sid .entry none _ (hall.entry sid)).trans ?_
  simp only
  split
  · exact .refl _
  · refine (startTimers_performs sid (c.ownedTimers sid)).trans ?_
    refine Performs.trans ?_ (.observe (.entered sid) rfl _)
    refine Performs.trans ?_ (.observeAll (isInvocation_map (fun _ => rfl) _) _)
    exact .change rfl rfl

theorem exitState_performs (sid : Nat) (m : Machine Ev Ctx qn tn) :
    Performs c u Q m (exitState c u sid m) := by
  unfold exitState
  refine (Performs.observe (.exitBegan sid) rfl m).trans ?_
  refine (Performs.observeAll (isInvocation_map (f := TraceEvent.duringCancelled sid)
    (fun _ => rfl) (List.range (c.duringsCount sid))) _).trans ?_
  refine (Performs.observeAll (isInvocation_map (f := TraceEvent.timerCancelled sid)
    (fun _ => rfl) (c.ownedTimers sid)) _).trans ?_
  refine (cancelTimers_performs sid _).trans ?_
  refine (runActions_performs sid .exit none _ (hall.exit sid)).trans ?_
  simp only
  split
  · exact .refl _
  · exact .observe (.exited sid) rfl _

theorem exitStates_performs : ∀ (l : List Nat) (m : Machine Ev Ctx qn tn),
    Performs c u Q m (l.foldl (fun m sid => exitState c u sid m) m)
  | [], m => .refl m
  | sid :: l, m => (exitState_performs hall sid m).trans (exitStates_performs l _)

theorem enterStates_performs : ∀ (l : List Nat) (m : Machine Ev Ctx qn tn),
    Performs c u Q m (enterStates c u l m).2
  | [], m => .refl m
  | sid :: l, m => by
      unfold enterStates
      refine (enterStateNoDescent_performs hall sid m).trans ?_
      simp only
      split
      · exact .refl _
      · exact enterStates_performs l _

theorem applyPath_performs {src target : Nat} {b : Bool}
    (h : applyPath c u src target m = .ok (b, m')) : Performs c u Q m m' := by
  unfold applyPath at h
  obtain ⟨⟨s, mid, e⟩, -, h⟩ := Except.bind_eq_ok.mp h
  obtain ⟨exitPath, -, h⟩ := Except.bind_eq_ok.mp h
  obtain ⟨enterPath, -, h⟩ := Except.bind_eq_ok.mp h
  refine (exitStates_performs hall exitPath m).trans ?_
  have henter := enterStates_performs hall enterPath
    (exitPath.foldl (fun m sid => exitState c u sid m) m)
  simp only at h
  split at h
  · cases h
    exact henter
  · split at h
    · cases h
      exact henter.trans (.change rfl rfl)
    · cases h
      exact henter

theorem followDefaults_performs : ∀ (fuel : Nat) {m m' : Machine Ev Ctx qn tn},
    followDefaults c u fuel m = .ok m' → Performs c u Q m m'
  | 0, _, _, h => by cases h
  | fuel + 1, m, m', h => by
      unfold followDefaults at h
      split at h
      · cases h
        exact .refl m
      · rename_i cur _
        obtain ⟨target, -, h⟩ := Except.bind_eq_ok.mp h
        cases target with
        | none =>
            cases h
            exact .refl m
        | some target =>
            obtain ⟨⟨entered, m₁⟩, h₁, h⟩ := Except.bind_eq_ok.mp h
            refine (Performs.observe (.transitionFired m.current target .internal) rfl m).trans ?_
            refine (applyPath_performs hall h₁).trans ?_
            refine (Performs.observe (.transitionComplete m.current target) rfl m₁).trans ?_
            simp only at h
            split at h
            · cases h
              exact .refl _
            · split at h
              · cases h
                exact .refl _
              · exact followDefaults_performs fuel h

theorem transition_performs {target : Nat} (h : transition c u target m = .ok m') :
    Performs c u Q m m' := by
  unfold transition at h
  obtain ⟨⟨entered, m₁⟩, h₁, h⟩ := Except.bind_eq_ok.mp h
  refine (applyPath_performs hall h₁).trans ?_
  simp only at h
  split at h
  · cases h
    exact .refl _
  · split at h
    · exact followDefaults_performs hall _ h
    · cases h
      exact .refl _

theorem enterPath_performs {root : Nat} (h : enterPath c u root m = .ok m') :
    Performs c u Q m m' := by
  unfold enterPath at h
  refine (enterStateNoDescent_performs hall root m).trans ?_
  simp only at h
  split at h
  · cases h
    exact .refl _
  · exact followDefaults_performs hall _ h

theorem runHandlers_performs {sid : Nat} {aids : List Nat} {target : Option Nat}
    {ev : Option Ev} {reason : TransitionReason}
    (haids : ∀ aid ∈ aids, Callable c u Q qn tn sid aid .handler ev)
    (h : runHandlers c u sid aids target ev reason m = .ok m') : Performs c u Q m m' := by
  unfold runHandlers at h
  refine (runActions_performs sid .handler ev aids haids).trans ?_
  simp only at h
  split at h
  · cases h
    exact .refl _
  · cases target with
    | none =>
        cases h
        exact .refl _
    | some target =>
        obtain ⟨m₁, h₁, h⟩ := Except.bind_eq_ok.mp h
        cases h
        refine (Performs.observe (.transitionFired
          (runActions c u sid .handler ev aids m).2.current target reason) rfl _).trans ?_
        exact (transition_performs hall h₁).trans (.observe (.transitionComplete _ target) rfl _)

theorem fireTimer_performs {s t : Nat} (h : fireTimer c u s t m = .ok m') :
    Performs c u Q m m' := by
  unfold fireTimer dispatchTrigger at h
  refine (Performs.observe (.timerFired s t) rfl m).trans ?_
  simp only at h
  have harmed : Performs c u Q (m.observe (.timerFired s t)) (if c.durationRepeats t
      then startTimer c u s t (m.observe (.timerFired s t)) else m.observe (.timerFired s t)) := by
    split
    · exact startTimer_performs s t _
    · exact .refl _
  refine harmed.trans ?_
  split at h
  · rename_i aids target hlook
    exact runHandlers_performs hall (hall.timer s t _ hlook) h
  · cases h
    exact .refl _

theorem handleEvent_performs (S : c.Sound) {cur : Nat} (hlt : cur < c.nStates) {ev : Ev}
    (hev : event = some ev) (hcur : m.current = some cur)
    (h : handleEvent c u ev m = .ok m') : Performs c u Q m m' := by
  rw [handleEvent_eq S hlt ev hcur] at h
  split at h
  · cases h
    exact .observe (.eventDropped _) rfl _
  · rename_i s g hb
    obtain ⟨-, -, hlook⟩ := S.bubbleUp_some hlt hb
    exact (Performs.observe (.eventDelivered s _) rfl m).trans
      (runHandlers_performs hall (hall.event s ev g hev hlook) h)

theorem doTerminate_performs (S : c.Sound) {cur : Nat} (hlt : cur < c.nStates)
    (hcur : m.current = some cur) (h : doTerminate c u m = .ok m') : Performs c u Q m m' := by
  rw [doTerminate_eq S hlt hcur] at h
  cases h
  refine (exitStates_performs hall (c.pathToRoot cur) m).trans ?_
  unfold Machine.halt
  refine Performs.trans ?_ (.observe .terminated rfl _)
  exact .change rfl rfl

/-! ## A whole step -/

omit hall in
theorem decrementTimers_performs (elapsed : Nat) (m : Machine Ev Ctx qn tn) :
    Performs c u Q m (decrementTimers c elapsed m) := by
  unfold decrementTimers
  split
  · exact .change rfl rfl
  · exact .refl m

omit hall in
/-- A step performs, if all actions are callable while it handles the event it takes from the
    queue, or none. -/
theorem step_performs (S : c.Sound) {elapsed : Nat} {next : Option Nat} (hv : m.Valid c)
    (hnone : AllCallable c u Q qn tn none)
    (hevent : AllCallable c u Q qn tn (stepPops c m elapsed).head?)
    (h : step c u m elapsed = .ok (next, m')) : Performs c u Q m m' := by
  cases ht : m.terminated with
  | true =>
      rw [step_of_terminated ht] at h
      cases h
      exact .refl m
  | false =>
      cases hcur : m.current with
      | none =>
          rw [step_of_fresh ht hcur] at h
          obtain ⟨m₁, h₁, h⟩ := Except.bind_eq_ok.mp h
          cases h
          exact (Performs.observe (.started c.chartHash) rfl m).trans
            (enterPath_performs hnone h₁)
      | some cur =>
          have hlt := hv.current_lt cur hcur
          refine (decrementTimers_performs elapsed m).trans ?_
          cases hpop : popTimer c (decrementTimers c elapsed m) with
          | some p =>
              obtain ⟨⟨s, t⟩, tt⟩ := p
              rw [step_of_timer ht hcur hpop] at h
              obtain ⟨m₁, h₁, h⟩ := Except.bind_eq_ok.mp h
              cases h
              refine .config ?_ ?_ (fireTimer_performs hnone h₁) <;> rfl
          | none =>
              cases hq : m.queue.popFront with
              | none =>
                  rw [step_of_idle ht hcur hpop hq] at h
                  cases h
                  exact .refl _
              | some p =>
                  obtain ⟨ev, queue⟩ := p
                  have hall : AllCallable c u Q qn tn (some ev) := by
                    have hpops : stepPops c m elapsed = [ev] := by
                      simp [stepPops, ht, hcur, hpop, hq]
                    rwa [hpops] at hevent
                  have hreceived : Performs c u Q (decrementTimers c elapsed m)
                      ({ decrementTimers c elapsed m with queue }.observe
                        (.eventReceived (eventToId c u ev))) := by
                    refine Performs.trans ?_ (.observe (.eventReceived _) rfl _)
                    exact .change rfl rfl
                  refine hreceived.trans ?_
                  cases hterm : checkTerminate c u ev with
                  | false =>
                      rw [step_of_event ht hcur hpop hq hterm] at h
                      obtain ⟨m₁, h₁, h⟩ := Except.bind_eq_ok.mp h
                      cases h
                      exact handleEvent_performs hall S hlt rfl (by simpa using hcur) h₁
                  | true =>
                      rw [step_of_terminate ht hcur hpop hq hterm] at h
                      obtain ⟨m₁, h₁, h⟩ := Except.bind_eq_ok.mp h
                      cases h
                      exact (Performs.observe (.terminateRequested _) rfl _).trans
                        (doTerminate_performs hall S hlt (by simpa using hcur) h₁)

/-! ## What a performance journals -/

omit hall in
/-- Whatever is journaled as invoked stands for a call. -/
theorem Performs.invoked (h : Performs c u Q m m') : ∃ w, m'.journal = m.journal ++ w ∧
    ∀ sid aid kind, .actionInvoked sid aid kind ∈ w → ∃ name args, Q sid aid kind name args := by
  induction h with
  | refl m => exact ⟨[], (List.append_nil _).symm, by simp⟩
  | @note e m m' he _ ih =>
      obtain ⟨w, hj, hw⟩ := ih
      refine ⟨e :: w, by rw [hj, Machine.observe, List.append_assoc, List.singleton_append], ?_⟩
      intro sid aid kind hmem
      rcases List.mem_cons.mp hmem with rfl | hmem
      · cases he
      · exact hw sid aid kind hmem
  | config hj₀ _ _ ih =>
      obtain ⟨w, hj, hw⟩ := ih
      exact ⟨w, by rw [hj, hj₀], hw⟩
  | @call sid₀ aid₀ kind₀ name args m m' hq _ ih =>
      obtain ⟨w, hj, hw⟩ := ih
      obtain ⟨w₀, hw₀, hj₀⟩ := (runBody_quiet (c := c) (u := u) (u.method name args m.ctx)
        (m.observe (.actionInvoked sid₀ aid₀ kind₀))).journal
      refine ⟨.actionInvoked sid₀ aid₀ kind₀ :: (w₀ ++ w), ?_, ?_⟩
      · rw [hj, hj₀, Machine.observe]
        simp
      · intro sid aid kind hmem
        rcases List.mem_cons.mp hmem with he | hmem
        · cases he
          exact ⟨name, args, hq⟩
        · rcases List.mem_append.mp hmem with hmem | hmem
          · obtain ⟨v, he | he⟩ := forall_mem_emits hw₀ _ hmem <;> cases he
          · exact hw sid aid kind hmem

end Hsmc
