import Hsmc.Link.Step
import Hsmc.Macros.Validate

/-
  The order of the handlers of one trigger.

  `validate` reads the handlers of a state in order and remembers, by trigger key, where it saw
  a transition. It has nothing to say exactly when every transition is the last handler of its
  trigger and leads to a known state (`checkHandlers_iff`). So a group, which keeps the target
  in a slot of its own, still holds its handlers in order (`groupWork_eq`), and in this order
  a step journals them (`step_workFor`).
-/

open Computability

namespace Hsmc

open Machine

/-- Handlers for the same trigger, all but the last of which are actions. -/
def TransitionLast (hs : List HandlerIr) : Prop :=
  hs.Pairwise fun a b => triggerKey a.trigger = triggerKey b.trigger → a.kind.actionId.isSome

/-- The target of a transition is the name of a state. -/
def HandlerKindIr.Known (ir : Ir) : HandlerKindIr → Prop
  | .transition target _ => ((nameMap ir).lookup target).isSome
  | .action .. => True

/-! ## What `validate` remembers -/

def HandlerSeen.see (seen : HandlerSeen) (h : HandlerIr) : HandlerSeen :=
  match h.kind with
  | .transition .. => { seen with txn := (triggerKey h.trigger, h.declIndex) :: seen.txn }
  | .action .. => { seen with lastAction := (triggerKey h.trigger, h.declIndex) :: seen.lastAction }

/-- Everything seen was declared before `i`. -/
def HandlerSeen.Before (seen : HandlerSeen) (i : Nat) : Prop :=
  (∀ key j, seen.txn.lookup key = some j → j < i) ∧
    ∀ key j, seen.lastAction.lookup key = some j → j < i

theorem lookup_cons_lt {key key' : String} {l : List (String × Nat)} {i j n : Nat}
    (hl : ∀ key j, l.lookup key = some j → j < n) (hi : i < n)
    (h : ((key', i) :: l).lookup key = some j) : j < n := by
  rw [List.lookup_cons] at h
  split at h
  · cases h
    exact hi
  · exact hl key j h

theorem HandlerSeen.Before.see {seen : HandlerSeen} {h : HandlerIr} {i : Nat}
    (hs : seen.Before h.declIndex) (hi : h.declIndex < i) : (seen.see h).Before i := by
  have htxn : ∀ key j, seen.txn.lookup key = some j → j < i :=
    fun key j hj => (hs.1 key j hj).trans hi
  have hlast : ∀ key j, seen.lastAction.lookup key = some j → j < i :=
    fun key j hj => (hs.2 key j hj).trans hi
  unfold HandlerSeen.see
  cases h.kind with
  | transition target slot => exact ⟨fun key j hj => lookup_cons_lt htxn hi hj, hlast⟩
  | action aid name => exact ⟨htxn, fun key j hj => lookup_cons_lt hlast hi hj⟩

theorem lookup_txn_see {seen : HandlerSeen} {h : HandlerIr} {key : String} :
    (seen.see h).txn.lookup key = none ↔
      seen.txn.lookup key = none ∧ (triggerKey h.trigger = key → h.kind.actionId.isSome) := by
  unfold HandlerSeen.see
  cases hk : h.kind with
  | transition target slot =>
      rw [List.lookup_cons]
      by_cases he : triggerKey h.trigger = key
      · simp [he, HandlerKindIr.actionId]
      · have hb : (key == triggerKey h.trigger) = false := by simpa using Ne.symm he
        simp [he, hb]
  | action aid name => simp [HandlerKindIr.actionId]

/-- One handler, declared after all that was seen. -/
theorem checkHandler_iff {ir : Ir} {s : StateIr} {seen seen' : HandlerSeen} {h : HandlerIr}
    (hs : seen.Before h.declIndex) : checkHandler ir s seen h = .ok seen' ↔
      seen.txn.lookup (triggerKey h.trigger) = none ∧ h.kind.Known ir ∧ seen' = seen.see h := by
  unfold checkHandler HandlerSeen.see HandlerKindIr.Known
  cases hk : h.kind with
  | transition target slot =>
      have hlast : (seen.lastAction.lookup (triggerKey h.trigger)).any
          (fun last => last > h.declIndex) = false := by
        cases hl : seen.lastAction.lookup (triggerKey h.trigger) with
        | none => rfl
        | some j => simpa using (hs.2 _ j hl).le
      cases ht : seen.txn.lookup (triggerKey h.trigger) with
      | some j => simp [ht]
      | none =>
          cases hn : (nameMap ir).lookup target with
          | none => simp [ht, hn]
          | some t => simp [ht, hn, hlast, @eq_comm _ _ seen']
  | action aid name =>
      cases ht : seen.txn.lookup (triggerKey h.trigger) with
      | none => simp [ht, @eq_comm _ _ seen']
      | some j => simp [ht, hs.1 _ j ht]

/-- The handlers of a state pass exactly when each transition is the last of its trigger. -/
theorem checkHandlers_iff {ir : Ir} {s : StateIr} : ∀ {hs : List HandlerIr} {seen : HandlerSeen},
    (∀ h ∈ hs, seen.Before h.declIndex) → (hs.Pairwise fun a b => a.declIndex < b.declIndex) →
    ((∃ seen', hs.foldlM (checkHandler ir s) seen = .ok seen') ↔
      (∀ h ∈ hs, h.kind.Known ir ∧ seen.txn.lookup (triggerKey h.trigger) = none) ∧
        TransitionLast hs)
  | [], seen, _, _ => iff_of_true ⟨seen, rfl⟩ ⟨by simp, .nil⟩
  | h :: hs, seen, hbefore, hinc => by
      obtain ⟨hh, hinc⟩ := List.pairwise_cons.mp hinc
      have hfirst := hbefore h List.mem_cons_self
      have ih := @checkHandlers_iff ir s hs (seen.see h) (fun x hx => hfirst.see (hh x hx)) hinc
      simp only [List.foldlM_cons, Except.bind_eq_ok, checkHandler_iff hfirst]
      have hrest : (∃ seen', ∃ a, (seen.txn.lookup (triggerKey h.trigger) = none ∧
          h.kind.Known ir ∧ a = seen.see h) ∧ hs.foldlM (checkHandler ir s) a = .ok seen') ↔
          seen.txn.lookup (triggerKey h.trigger) = none ∧ h.kind.Known ir ∧
            ∃ seen', hs.foldlM (checkHandler ir s) (seen.see h) = .ok seen' := by
        constructor
        · rintro ⟨seen', _, ⟨hn, hk, rfl⟩, hfold⟩
          exact ⟨hn, hk, seen', hfold⟩
        · rintro ⟨hn, hk, seen', hfold⟩
          exact ⟨seen', _, ⟨hn, hk, rfl⟩, hfold⟩
      rw [hrest, ih]
      simp only [lookup_txn_see, TransitionLast, List.pairwise_cons, List.forall_mem_cons]
      constructor
      · rintro ⟨hn, hk, hall, hlast⟩
        exact ⟨⟨⟨hk, hn⟩, fun x hx => ⟨(hall x hx).1, (hall x hx).2.1⟩⟩,
          fun x hx => (hall x hx).2.2, hlast⟩
      · rintro ⟨⟨⟨hk, hn⟩, hall⟩, hpair, hlast⟩
        exact ⟨hn, hk, fun x hx => ⟨(hall x hx).1, (hall x hx).2, hpair x hx⟩, hlast⟩

/-! ## The work of a group -/

/-- One thing that handlers do. -/
inductive Work where
  /-- Call the method that an action id leads to. -/
  | call (method : Option Ident)
  /-- Go to a state. -/
  | go (state : Option Nat)
deriving DecidableEq, Repr

namespace Chart

variable (c : Chart)

def callOf (aid : Nat) : Work := .call ((c.actionArms.lookup aid).map (·.name))

/-- The actions in order, then the transition. -/
def groupWork (g : Group) : List Work :=
  g.1.map c.callOf ++ g.2.toList.map fun t => .go (some t)

def kindWork : HandlerKindIr → Work
  | .action aid _ => c.callOf aid
  | .transition _ slot => .go slot

/-- What the journal tells of the work of handlers. -/
def workOf : TraceEvent → Option Work
  | .actionInvoked _ aid .handler => some (c.callOf aid)
  | .transitionFired _ dst (.event _) | .transitionFired _ dst (.timer ..) => some (.go (some dst))
  | _ => none

end Chart

/-- The state that handles a trigger, with the trigger's kind and id. -/
def TraceEvent.handling : TraceEvent → Option (Nat × Nat × Nat)
  | .eventDelivered s v => some (s, 0, v)
  | .timerFired s t => some (s, 1, t)
  | _ => none

/-- A group of actions with a transition at the end does what its handlers say. -/
theorem groupWork_eq {c : Chart} : ∀ {hs : List HandlerIr},
    (hs.Pairwise fun a _ => a.kind.actionId.isSome) →
    (∀ h ∈ hs, ∀ name slot, h.kind = .transition name slot → slot.isSome) →
    c.groupWork (hs.filterMap (·.kind.actionId), (hs.filterMap (·.kind.targetId)).getLast?) =
      hs.map fun h => c.kindWork h.kind
  | [], _, _ => rfl
  | h :: hs, hp, hslot => by
      obtain ⟨hfirst, hp⟩ := List.pairwise_cons.mp hp
      obtain ⟨hs₀, hslot⟩ := List.forall_mem_cons.mp hslot
      have ih := groupWork_eq (c := c) hp hslot
      cases hk : h.kind with
      | action aid name =>
          simp only [List.filterMap_cons, List.map_cons, hk, HandlerKindIr.actionId,
            HandlerKindIr.targetId, Chart.kindWork]
          exact congrArg (c.callOf aid :: ·) ih
      | transition name slot =>
          obtain ⟨t, rfl⟩ := Option.isSome_iff_exists.mp (hs₀ name slot hk)
          -- nothing comes after a transition
          obtain rfl : hs = [] := by
            refine List.eq_nil_iff_forall_not_mem.mpr fun x hx => ?_
            have hsome := hfirst x hx
            rw [hk] at hsome
            cases hsome
          simp [hk, HandlerKindIr.actionId, HandlerKindIr.targetId, Chart.kindWork,
            Chart.groupWork]

/-! ## The work of a call of `run_handlers` -/

section

variable {Ev Ctx Val : Type} {qn tn : Nat} {c : Chart} {u : UserCode Ev Ctx Val}

/-- The words that tell of no trigger handled and of no handler's work. -/
def idle (c : Chart) : Language TraceEvent :=
  Language.letters fun e => e.handling = none ∧ c.workOf e = none

theorem filterMap_workOf {w : List TraceEvent} (h : w ∈ idle c) : w.filterMap c.workOf = [] :=
  List.filterMap_eq_nil_iff.mpr fun e he => (h e he).2

theorem findSome?_handling {w : List TraceEvent} (h : w ∈ idle c) :
    w.findSome? TraceEvent.handling = none :=
  List.findSome?_eq_none_iff.mpr fun e he => (h e he).1

theorem emits_le_idle : emits ≤ idle c := by
  intro w hw e he
  obtain ⟨v, rfl | rfl⟩ := forall_mem_emits hw e he <;> exact ⟨rfl, rfl⟩

theorem inBlocks_le_idle : inBlocks ≤ idle c := by
  intro w hw e he
  have hblock := hw e he
  cases e with
  | actionInvoked s a kind =>
      cases kind with
      | handler => cases hblock
      | _ => exact ⟨rfl, rfl⟩
  | transitionFired src dst reason => cases hblock
  | eventDelivered s v => cases hblock
  | timerFired s t => cases hblock
  | _ => exact ⟨rfl, rfl⟩

theorem exitBlocks_le_idle : exitBlocks ≤ idle c := exitBlocks_le_inBlocks.trans inBlocks_le_idle

theorem enterBlocks_le_idle : enterBlocks ≤ idle c := enterBlocks_le_inBlocks.trans inBlocks_le_idle

theorem defaultTransition_le_idle : defaultTransition ≤ idle c := by
  refine iSup_le fun src => iSup_le fun dst => ?_
  exact Language.mul_le_letters
    (Language.mul_le_letters
      (Language.mul_le_letters (evt_le_letters ⟨rfl, rfl⟩) exitBlocks_le_idle) enterBlocks_le_idle)
    (evt_le_letters ⟨rfl, rfl⟩)

/-- A transition leaves, enters and descends; none of this is the work of a handler. -/
theorem transition_le_idle : exitBlocks * enterBlocks * defaultTransition∗ ≤ idle c :=
  Language.mul_le_letters (Language.mul_le_letters exitBlocks_le_idle enterBlocks_le_idle)
    (Language.kstar_le_letters defaultTransition_le_idle)

theorem startWords_le_idle (hash : Nat) : startWords hash ≤ idle c :=
  Language.mul_le_letters
    (Language.mul_le_letters (evt_le_letters ⟨rfl, rfl⟩)
      ((enterBlock_le_inBlocks 0).trans inBlocks_le_idle))
    (Language.kstar_le_letters defaultTransition_le_idle)

theorem terminateUnit_le_idle : terminateUnit ≤ idle c := by
  refine iSup_le fun v => ?_
  exact Language.mul_le_letters
    (Language.mul_le_letters
      (Language.mul_le_letters (evt_le_letters ⟨rfl, rfl⟩) (evt_le_letters ⟨rfl, rfl⟩))
      exitBlocks_le_idle)
    (evt_le_letters ⟨rfl, rfl⟩)

theorem runActions_work (sid : Nat) (event : Option Ev) :
    ∀ (aids : List Nat) (m : Machine Ev Ctx qn tn), m.terminated = false →
      ∃ w, (runActions c u sid .handler event aids m).2.journal = m.journal ++ w ∧
        w.filterMap c.workOf = aids.map c.callOf
  | [], m, _ => ⟨[], (List.append_nil _).symm, rfl⟩
  | aid :: aids, m, ht => by
      have hq := runAction_quiet (c := c) (u := u) aid event
        (m.observe (.actionInvoked sid aid .handler))
      have ht₁ := hq.terminated.trans ht
      obtain ⟨w₁, hw₁, hj₁⟩ := hq.journal
      obtain ⟨w, hj, hw⟩ := runActions_work sid event aids _ ht₁
      refine ⟨.actionInvoked sid aid .handler :: (w₁ ++ w), ?_, ?_⟩
      · unfold runActions
        simp only [ht₁, Bool.false_eq_true, ↓reduceIte]
        rw [hj, hj₁, Machine.observe]
        simp
      · rw [List.filterMap_cons, List.filterMap_append, filterMap_workOf (emits_le_idle hw₁), hw]
        rfl

/-- The reason of a handler's transition. -/
def TransitionReason.isHandler : TransitionReason → Bool
  | .event _ | .timer .. => true
  | .internal => false

/-- A call of `run_handlers` journals the work of its group, and no other work. -/
theorem runHandlers_work (S : c.Sound) {cur : Nat} (hlt : cur < c.nStates) {sid : Nat} {g : Group}
    (htarget : ∀ t, g.2 = some t → t < c.nStates) {event : Option Ev} {reason : TransitionReason}
    (hreason : reason.isHandler = true) {m m' : Machine Ev Ctx qn tn}
    (hcur : m.current = some cur) (ht : m.terminated = false)
    (h : runHandlers c u sid g.1 g.2 event reason m = .ok m') :
    ∃ w, m'.journal = m.journal ++ w ∧ w.filterMap c.workOf = c.groupWork g := by
  obtain ⟨aids, target⟩ := g
  obtain ⟨m₁, hm₁, hq⟩ := runActions_quiet (c := c) (u := u) sid .handler event aids m ht
  obtain ⟨w₁, hj₁, hw₁⟩ := runActions_work (c := c) (u := u) sid event aids m ht
  have hcur₁ := hq.current.trans hcur
  have ht₁ := hq.terminated.trans ht
  rw [hm₁] at hj₁
  unfold runHandlers at h
  simp only [hm₁, Bool.false_eq_true, ↓reduceIte] at h
  cases target with
  | none =>
      cases h
      exact ⟨w₁, hj₁, by rw [hw₁]; simp [Chart.groupWork]⟩
  | some target =>
      obtain ⟨m₂, cur', hm₂, -, -, hg⟩ := transition_goes (u := u) S hlt (htarget target rfl)
        (m := m₁.observe (.transitionFired (some cur) target reason)) hcur₁ ht₁
      simp only [hcur₁, hm₂, Except.ok_bind_eq] at h
      cases h
      obtain ⟨w₂, hw₂, hj₂⟩ := hg.journal
      have hfired : c.workOf (.transitionFired (some cur) target reason) =
          some (.go (some target)) := by
        cases reason with
        | internal => cases hreason
        | _ => rfl
      refine ⟨w₁ ++ .transitionFired (some cur) target reason ::
        (w₂ ++ [.transitionComplete (some cur) target]), ?_, ?_⟩
      · show m₂.journal ++ _ = _
        rw [hj₂, Machine.observe, show m₁.journal = m.journal ++ w₁ from hj₁, hcur₁]
        simp
      · rw [List.filterMap_append, hw₁, List.filterMap_cons_some hfired, List.filterMap_append,
          filterMap_workOf (transition_le_idle hw₂)]
        rfl

/-- The work of the group that a handled trigger has in its state. -/
def Chart.workFor (c : Chart) (k : Nat × Nat × Nat) : List Work :=
  ((c.handlerLookup k.1 k.2.1 k.2.2).map c.groupWork).getD []

theorem fireTimer_work (S : c.Sound) {cur : Nat} (hlt : cur < c.nStates) {s t : Nat}
    {m m' : Machine Ev Ctx qn tn} (hcur : m.current = some cur) (ht : m.terminated = false)
    (h : fireTimer c u s t m = .ok m') : ∃ w, m'.journal = m.journal ++ .timerFired s t :: w ∧
      w.filterMap c.workOf = c.workFor (s, 1, t) := by
  have hrest : ∃ w, fireWord c u s t = .timerFired s t :: w ∧ w.filterMap c.workOf = [] := by
    unfold fireWord
    split
    · exact ⟨_, rfl, rfl⟩
    · exact ⟨_, rfl, rfl⟩
  obtain ⟨w, hw, hwork⟩ := hrest
  rw [fireTimer_eq] at h
  unfold dispatchTrigger at h
  unfold Chart.workFor
  cases hlook : c.handlerLookup s 1 t with
  | none =>
      rw [hlook] at h
      cases h
      exact ⟨w, by rw [← hw]; rfl, hwork⟩
  | some g =>
      obtain ⟨aids, target⟩ := g
      rw [hlook] at h
      obtain ⟨w', hj, hw'⟩ := runHandlers_work S hlt (g := (aids, target))
        (fun t' he => S.handler_target_lt hlook he) rfl (m := firedMachine c u s t m) hcur ht h
      refine ⟨w ++ w', ?_, ?_⟩
      · rw [hj, ← List.cons_append, ← hw, ← List.append_assoc]
        rfl
      · rw [List.filterMap_append, hwork, hw']
        rfl

/-- The work that a step journals is that of the group of the trigger it journals as handled. -/
theorem step_workFor (S : c.Sound) {m m' : Machine Ev Ctx qn tn} (hv : m.Valid c) {elapsed : Nat}
    {next : Option Nat} (h : step c u m elapsed = .ok (next, m')) :
    ∃ w, m'.journal = m.journal ++ w ∧
      w.filterMap c.workOf = ((w.findSome? TraceEvent.handling).map c.workFor).getD [] := by
  have hidle : ∀ {L : Language TraceEvent}, L ≤ idle c → Appends L m.journal m'.journal →
      ∃ w, m'.journal = m.journal ++ w ∧
        w.filterMap c.workOf = ((w.findSome? TraceEvent.handling).map c.workFor).getD [] := by
    rintro L hL ⟨w, hw, hj⟩
    exact ⟨w, hj, by rw [filterMap_workOf (hL hw), findSome?_handling (hL hw)]; rfl⟩
  obtain ⟨hv', -, hout⟩ := step_spec_of_ok S hv h
  cases hout with
  | halted ht he => exact ⟨[], by simp [he], rfl⟩
  | started _ _ _ _ hj => exact hidle (startWords_le_idle _) hj
  | fired s t tt ht hcur hpop hfire =>
      obtain ⟨cur, hcur⟩ := Option.isSome_iff_exists.mp hcur
      obtain ⟨w, hj, hw⟩ := fireTimer_work S (hv.current_lt cur hcur) (by simpa using hcur)
        (by simpa using ht) hfire
      exact ⟨_, by simpa using hj, by rw [List.filterMap_cons_none rfl, hw]; rfl⟩
  | idle _ _ _ _ he => exact ⟨[], by simp [he], rfl⟩
  | terminated _ _ _ _ _ _ _ _ _ _ hj => exact hidle terminateUnit_le_idle hj
  | handled ev queue ht hcur hpop hq hterm hhandle =>
      obtain ⟨cur, hcur⟩ := Option.isSome_iff_exists.mp hcur
      have hlt := hv.current_lt cur hcur
      rw [handleEvent_eq S hlt ev (by simpa using hcur)] at hhandle
      cases hb : c.bubbleUp cur (eventToId c u ev) with
      | none =>
          rw [hb] at hhandle
          cases hhandle
          exact ⟨[.eventReceived (eventToId c u ev), .eventDropped (eventToId c u ev)],
            by simp [Machine.observe], rfl⟩
      | some p =>
          obtain ⟨s, g⟩ := p
          rw [hb] at hhandle
          obtain ⟨-, -, hlook⟩ := S.bubbleUp_some hlt hb
          obtain ⟨w, hj, hw⟩ := runHandlers_work S hlt
            (fun t he => S.handler_target_lt hlook he) rfl (by simpa using hcur)
            (by simpa using ht) hhandle
          refine ⟨.eventReceived (eventToId c u ev) :: .eventDelivered s (eventToId c u ev) :: w,
            ?_, ?_⟩
          · rw [hj]
            simp [Machine.observe]
          · rw [List.filterMap_cons_none rfl, List.filterMap_cons_none rfl, hw]
            show _ = c.workFor (s, 0, eventToId c u ev)
            unfold Chart.workFor
            rw [hlook]
            rfl

end

end Hsmc
