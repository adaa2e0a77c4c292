import Hsmc.Link.Means
import Hsmc.Link.Reach

/-
  A whole step does what the chart means.

  From moves (`Means.move`) over default transitions, handlers, timers and events up to
  `Agrees.step`: where machine and configuration agree at a call boundary, every step of the
  machine is a step of the configuration, with the same answer, and they agree again.
-/

namespace Hsmc

open Machine

variable {Ev Ctx Val : Type} {qn : Nat} {input : StatechartInput} {c : Chart} {n : TraceNames}
  {u : UserCode Ev Ctx Val} {G : Glossary input c n u}

namespace Means

variable {m : ChartMachine c Ev Ctx qn} {g : Config Ev Ctx qn} {cur target : Nat}

theorem lt_of_up (hcur : cur < c.nStates) : ∀ x ∈ G.sound.tree.up cur, x < c.nStates :=
  fun _ => G.sound.up_lt hcur

/-- A machine and a configuration that stand at state `cur`. -/
structure At (G : Glossary input c n u) (cur : Nat) (m : ChartMachine c Ev Ctx qn)
    (g : Config Ev Ctx qn) : Prop where
  lt : cur < c.nStates
  current : m.current = some cur
  running : m.terminated = false
  means : Means G (G.sound.tree.up cur) (G.sound.tree.up cur) m g

theorem At.observe (h : At G cur m g) {e : TraceEvent} {x : Note} (hx : n.note e = x) :
    At G cur (m.observe e) (g.note x) :=
  ⟨h.lt, h.current, h.running, h.means.observe hx⟩

theorem At.innermost (h : At G cur m g) : g.innermost = (G.decl cur).name := by
  obtain ⟨l, hl⟩ := G.sound.tree.up_eq_cons cur
  unfold Config.innermost
  rw [h.means.active, hl]
  rfl

theorem At.defaultOf (h : At G cur m g) : g.defaultOf = (G.decl cur).body.defaultChild := by
  obtain ⟨l, hl⟩ := G.sound.tree.up_eq_cons cur
  unfold Config.defaultOf
  rw [h.means.active, hl]
  rfl

theorem At.entering_eq_nil (h : At G cur m g) (hd : target < c.nStates) :
    Config.entering g.active (input.walkTo (G.decl target).name) = [] ↔
      c.enters cur target = [] := by
  rw [h.means.active, G.walkTo hd, G.entering_eq h.lt hd, List.map_eq_nil_iff,
    (G.sound.paths_eq h.lt hd).2]

/-- A move along the path table. -/
theorem At.move (h : At G cur m g) (hd : target < c.nStates) :
    ∃ m', applyPath c u cur target m = .ok (!(c.enters cur target).isEmpty, m') ∧
      At G target m' (g.move input u (input.walkTo (G.decl target).name)) := by
  obtain ⟨s, mid, e, hr, hl, he⟩ := G.sound.path_get h.lt hd
  have henters := (G.sound.paths_eq h.lt hd).2
  have hs0 := G.sound.zero_mem h.lt
  have hd0 := G.sound.zero_mem hd
  have hsrc := G.sound.tree.up_eq_exitPath_append hs0 hd0
  have hdst := G.sound.tree.up_eq_enterPath_append hs0 hd0
  have hnd := G.sound.tree.nodup_up cur
  have hlt := lt_of_up (G := G) h.lt
  have hm := h.means
  rw [hsrc] at hnd hlt hm
  have hleft := hm.leaveAll _ hnd hlt h.running
  obtain ⟨hcur₁, hgoes⟩ := exitStates_goes (c := c) (u := u) (G.sound.tree.exitPath cur target)
    (G.sound.tree.base cur target) h.running
  have ht₁ := hgoes.terminated.trans h.running
  obtain ⟨m', hm', hcur', ht', hmeans⟩ := hleft.enterAll hd (G.sound.tree.enterPath cur target)
    (by rw [← hdst]) ht₁
  rw [← hdst] at hmeans
  have hg : g.move input u (input.walkTo (G.decl target).name) =
      ((G.sound.tree.enterPath cur target).map G.decl).foldl (fun g d => g.enter input u d)
        (((G.sound.tree.exitPath cur target).map G.decl).foldl
          (fun g d => g.leave input u d) g) := by
    unfold Config.move
    rw [h.means.active, G.walkTo hd, G.leaving_eq h.lt hd, G.entering_eq h.lt hd]
  rw [hg]
  unfold applyPath
  rw [getUnchecked_of_some hr]
  simp only [Except.ok_bind_eq, sliceUnchecked_of_sliceAt hl, sliceUnchecked_of_sliceAt he, hm',
    Bool.false_eq_true, ↓reduceIte, henters]
  by_cases hnil : G.sound.tree.enterPath cur target = []
  · exact ⟨{ m' with current := some target }, by simp [hnil], hd, rfl, ht', hmeans.withCurrent _⟩
  · refine ⟨m', by simp [hnil], hd, ?_, ht', hmeans⟩
    rw [hcur', G.sound.tree.getLast?_enterPath hnil, Option.some_or]

/-- A move with the line that announces it. -/
theorem At.depart (h : At G cur m g) (hd : target < c.nStates) {r : TransitionReason}
    {reason : String} (hreason : n.reason r = reason) :
    ∃ m', applyPath c u cur target (m.observe (.transitionFired (some cur) target r)) =
        .ok (!(c.enters cur target).isEmpty, m') ∧
      At G target m' (g.depart input u (G.decl target).name reason) := by
  have hnote : n.note (.transitionFired (some cur) target r) =
      .transitionBegin g.innermost (G.decl target).name reason := by
    rw [h.innermost, ← G.stateName h.lt, ← G.stateName hd, ← hreason]
    rfl
  exact (h.observe hnote).move hd

theorem At.complete {src : Nat} {x : String} (h : At G cur m g) (hs : src < c.nStates)
    (hd : target < c.nStates) (hx : x = (G.decl src).name) :
    At G cur (m.observe (.transitionComplete (some src) target))
      (g.note (.transitionComplete x (G.decl target).name)) := by
  refine h.observe ?_
  rw [hx, ← G.stateName hs, ← G.stateName hd]
  rfl

/-! ## Default transitions -/

/-- The loop follows the defaults as they are written, one hop after the other. -/
theorem descends {l : List Nat} (hl : Trail c.defaultOf cur l) :
    ∀ {fuel : Nat} {m : ChartMachine c Ev Ctx qn} {g : Config Ev Ctx qn}, l.length ≤ fuel →
    At G cur m g → ∃ m' cur' g', followDefaults c u fuel m = .ok m' ∧
      Config.Descends input u g g' ∧ At G cur' m' g' := by
  induction hl with
  | @stop cur hnone =>
      intro fuel m g hfuel h
      cases fuel with
      | zero => simp at hfuel
      | succ fuel =>
          refine ⟨m, cur, g, followDefaults_stop G.sound h.lt h.current hnone, .stop ?_, h⟩
          rw [h.defaultOf]
          cases hx : (G.decl cur).body.defaultChild with
          | none => rfl
          | some x =>
              obtain ⟨t, ht, -⟩ := G.default_some h.lt hx
              rw [hnone] at ht
              cases ht
  | @step cur target l hsome _ ih =>
      intro fuel m g hfuel h
      cases fuel with
      | zero => simp at hfuel
      | succ fuel =>
          have htlt := G.sound.default_lt hsome
          have hdef : g.defaultOf = some (G.decl target).name := by
            rw [h.defaultOf]
            cases hx : (G.decl cur).body.defaultChild with
            | none =>
                rw [G.default_none h.lt hx] at hsome
                cases hsome
            | some x =>
                obtain ⟨t, ht, hname⟩ := G.default_some h.lt hx
                rw [hsome] at ht
                cases ht
                rw [hname]
          obtain ⟨m₁, hm₁, hat⟩ := h.depart htlt (show n.reason .internal = "internal" from rfl)
          have hdone := hat.complete h.lt htlt h.innermost
          rw [followDefaults_hop G.sound h.lt h.current hsome hm₁ hdone.running]
          have hnil := h.entering_eq_nil htlt
          by_cases he : c.enters cur target = []
          · refine ⟨_, target, _, by simp [he], .up hdef (hnil.mpr he), hdone⟩
          · obtain ⟨m', cur', g', hm', hdesc, hat'⟩ := ih (Nat.le_of_succ_le_succ hfuel) hdone
            exact ⟨m', cur', g', by simpa [he] using hm',
              .down hdef (fun h => he (hnil.mp h)) hdesc, hat'⟩

theorem At.descends (h : At G cur m g) : ∃ m' cur' g',
    followDefaults c u c.nStates m = .ok m' ∧ Config.Descends input u g g' ∧ At G cur' m' g' := by
  obtain ⟨l, hl⟩ := G.sound.default_ends cur
  refine Means.descends hl (hl.length_le ?_) h
  exact hl.forall_mem (P := fun x => x < c.nStates) (fun x y _ h => G.sound.default_lt h) h.lt

/-! ## Handlers -/

theorem At.transits (h : At G cur m g) (hd : target < c.nStates) {r : TransitionReason}
    {reason : String} (hreason : n.reason r = reason) : ∃ m' cur' g',
    transition c u target (m.observe (.transitionFired (some cur) target r)) = .ok m' ∧
      Config.Transits input u (G.decl target).name reason g g' ∧
      At G cur' (m'.observe (.transitionComplete (some cur) target)) g' := by
  obtain ⟨m₁, hm₁, hat⟩ := h.depart hd hreason
  have hnil := h.entering_eq_nil hd
  have hcur : (m.observe (.transitionFired (some cur) target r)).current.getD target = cur := by
    rw [current_observe, h.current, Option.getD_some]
  unfold transition
  simp only [hcur, hm₁, Except.ok_bind_eq, hat.running, Bool.false_eq_true, ↓reduceIte]
  by_cases he : c.enters cur target = []
  · exact ⟨m₁, target, _, by simp [he], .up (hnil.mpr he), hat.complete h.lt hd h.innermost⟩
  · obtain ⟨m', cur', g', hm', hdesc, hat'⟩ := hat.descends
    exact ⟨m', cur', _, by simpa [he] using hm', .down (fun h => he (hnil.mp h)) hdesc,
      hat'.complete h.lt hd h.innermost⟩

theorem runHandlers_cons {s aid : Nat} {aids : List Nat} {target : Option Nat} {event : Option Ev}
    {r : TransitionReason} (ht : m.terminated = false) :
    runHandlers c u s (aid :: aids) target event r m = runHandlers c u s aids target event r
      (runAction c u aid event (m.observe (.actionInvoked s aid .handler))) := by
  have hq := runAction_quiet (c := c) (u := u) aid event (m.observe (.actionInvoked s aid .handler))
  have ht₁ := hq.terminated.trans ht
  have hrun : Hsmc.runActions c u s .handler event (aid :: aids) m =
      Hsmc.runActions c u s .handler event aids
        (runAction c u aid event (m.observe (.actionInvoked s aid .handler))) := by
    conv_lhs => unfold Hsmc.runActions
    simp only [ht₁, Bool.false_eq_true, ↓reduceIte]
  unfold runHandlers
  rw [hrun]

/-- A group runs as its handlers, in the order in which they are written. -/
theorem handles {s : Nat} (hs : s < c.nStates) {event : Option Ev} {r : TransitionReason}
    {reason : String} (hreason : n.reason r = reason) {hs : List Handler} {grp : Group}
    (hgrp : GroupOf input c n u G.decl event hs grp) : ∀ {m : ChartMachine c Ev Ctx qn}
    {g : Config Ev Ctx qn}, At G cur m g → ∃ m' cur' g',
      runHandlers c u s grp.1 grp.2 event r m = .ok m' ∧
      Config.Handles input u (G.decl s) event reason hs g g' ∧ At G cur' m' g' := by
  induction hgrp with
  | nil => exact fun {m g} h => ⟨m, cur, g, rfl, .nil, h⟩
  | @call h hs aid aids target hno hname hrun _ ih =>
      intro m g hat
      have hq := runAction_quiet (c := c) (u := u) aid event
        (m.observe (.actionInvoked s aid .handler))
      obtain ⟨m', cur', g', hm', hh, hat'⟩ := ih ⟨hat.lt, hq.current.trans hat.current,
        hq.terminated.trans hat.running, hat.means.call hat.running ‹_› .handler hname hrun⟩
      refine ⟨m', cur', g', ?_, .call hno hh, hat'⟩
      rw [runHandlers_cons hat.running]
      exact hm'
  | @go h t hyes hlt hname =>
      intro m g hat
      obtain ⟨m', cur', g', hm', htr, hat'⟩ := hat.transits hlt hreason
      rw [hname] at htr
      refine ⟨_, cur', g', ?_, .go hyes htr .nil, hat'⟩
      unfold runHandlers
      simp only [Hsmc.runActions, Bool.false_eq_true, ↓reduceIte, hat.current, hm',
        Except.ok_bind_eq, current_observe]

/-! ## Timers and events -/

/-- A popped timer fires as the meaning fires it. -/
theorem At.fires (h : At G cur m g) {s k : Nat} {tt : TimerTable c.maxTimers}
    (hpop : m.timers.popExpired c.depth = some ((s, k), tt)) : ∃ m' cur' g' d t,
      fireTimer c u s k { m with timers := tt } = .ok m' ∧ g.Due d t ∧
      Config.Handles input u d none s!"timer:{d.name}/{input.timerName t}" (d.onTimer t)
        (g.fire input u d t) g' ∧ At G cur' m' g' := by
  obtain ⟨t, ht, rfl, hzero, inner, outer, hup, hinner⟩ := h.means.clocks.due h.lt hpop
  have hlts := lt_of_up (G := G) h.lt
  have hmem : s ∈ G.sound.tree.up cur := by
    rw [hup]
    exact List.mem_append_right _ List.mem_cons_self
  have hs := hlts s hmem
  have hn := (G.timer hs ht).2
  have hdue : g.Due (G.decl s) t := by
    refine ⟨inner.map G.decl, outer.map G.decl, ?_, hzero, ?_⟩
    · rw [h.means.active, hup, List.map_append, List.map_cons]
    · intro d hd
      obtain ⟨x, hx, rfl⟩ := List.mem_map.mp hd
      exact hinner x hx
  have hnote : n.note (.timerFired s (G.tid t)) =
      .timerFired (G.decl s).name (input.timerName t) := by
    rw [← G.stateName hs, ← hn.name]
    rfl
  have hfired := (h.means.withClocks (h.means.clocks.erase hlts hmem ht hpop)).observe hnote
  obtain ⟨m₁, hm₁, hcur₁, ht₁, hmeans⟩ : ∃ m₁ : ChartMachine c Ev Ctx qn,
      m₁ = (if c.durationRepeats (G.tid t) then
        startTimer c u s (G.tid t) ({ m with timers := tt }.observe (.timerFired s (G.tid t)))
        else { m with timers := tt }.observe (.timerFired s (G.tid t))) ∧
      m₁.current = m.current ∧ m₁.terminated = m.terminated ∧
      Means G (G.sound.tree.up cur) (G.sound.tree.up cur) m₁ (g.fire input u (G.decl s) t) := by
    refine ⟨_, rfl, ?_, ?_, ?_⟩
    · split <;> rfl
    · split <;> rfl
    · unfold Config.fire
      rw [hn.repeats]
      cases hrep : t.2 with
      | false => exact hfired
      | true =>
          -- the popped timer left its place in the table
          have hlen := (TimerTable.perm_keys_popExpired hpop).length_eq
          have hle := m.timers.entries.length_le
          rw [← TimerTable.length_keys] at hle
          rw [List.length_cons] at hlen
          have hroom : tt.keys.length < c.maxTimers := by omega
          exact hfired.arm hlts hmem ht (Or.inr hroom)
  obtain ⟨grp, hlook, hgrp⟩ := G.onTimer hs ht
  have hat₁ : At G cur m₁ (g.fire input u (G.decl s) t) :=
    ⟨h.lt, hcur₁.trans h.current, ht₁.trans h.running, hmeans⟩
  obtain ⟨m', cur', g', hm', hh, hat'⟩ := handles hs
    (show n.reason (.timer s (G.tid t)) = _ from hn.reason) hgrp hat₁
  refine ⟨m', cur', g', G.decl s, t, ?_, hdue, hh, hat'⟩
  unfold fireTimer dispatchTrigger
  rw [hlook]
  simp only [← hm₁]
  exact hm'

/-- The innermost active state that handles an event. -/
theorem At.handler_eq (h : At G cur m g) (ev : Ev) : g.handler (u.variant ev) =
    (c.bubbleUp cur (eventToId c u ev)).map fun p => G.decl p.1 := by
  unfold Config.handler
  rw [h.means.active, G.sound.bubbleUp_eq h.lt, List.find?_map]
  have hlts := lt_of_up (G := G) h.lt
  generalize G.sound.tree.up cur = l at hlts
  induction l with
  | nil => rfl
  | cons s l ih =>
      obtain ⟨hs, hl⟩ := List.forall_mem_cons.mp hlts
      rw [List.find?_cons, List.findSome?_cons, Function.comp_apply]
      by_cases hnil : (G.decl s).onEvent (u.variant ev) = []
      · rw [G.onEvent_none hs hnil, hnil]
        exact ih hl
      · obtain ⟨grp, hlook, -⟩ := G.onEvent_some hs hnil
        have hne : (!((G.decl s).onEvent (u.variant ev)).isEmpty) = true := by simpa using hnil
        rw [hlook, hne]
        rfl

/-- The three things a popped event that is not the terminate event leads to. -/
theorem At.handlesEvent (h : At G cur m g) (ev : Ev) :
    (∃ m', handleEvent c u ev m = .ok m' ∧ g.handler (u.variant ev) = none ∧
      At G cur m' (g.note (.eventDropped (input.eventName (u.variant ev))))) ∨
    ∃ m' cur' g' d, handleEvent c u ev m = .ok m' ∧ g.handler (u.variant ev) = some d ∧
      Config.Handles input u d (some ev) s!"event:{u.variant ev}" (d.onEvent (u.variant ev))
        (g.note (.eventDelivered (input.eventName (u.variant ev)) d.name)) g' ∧
      At G cur' m' g' := by
  have hfind := h.handler_eq ev
  rw [handleEvent_eq G.sound h.lt ev h.current]
  cases hb : c.bubbleUp cur (eventToId c u ev) with
  | none =>
      rw [hb] at hfind
      refine Or.inl ⟨_, rfl, hfind, h.observe ?_⟩
      rw [← G.eventName]
      rfl
  | some p =>
      obtain ⟨s, grp⟩ := p
      rw [hb] at hfind
      obtain ⟨-, hs, hlook⟩ := G.sound.bubbleUp_some h.lt hb
      have hne : (G.decl s).onEvent (u.variant ev) ≠ [] := fun hnil => by
        rw [G.onEvent_none hs hnil] at hlook
        cases hlook
      obtain ⟨grp', hlook', hgrp, hreason⟩ := G.onEvent_some hs hne
      rw [hlook] at hlook'
      cases hlook'
      have hnote : n.note (.eventDelivered s (eventToId c u ev)) =
          .eventDelivered (input.eventName (u.variant ev)) (G.decl s).name := by
        rw [← G.eventName, ← G.stateName hs]
        rfl
      obtain ⟨m', cur', g', hm', hh, hat'⟩ := handles hs
        (show n.reason (.event (eventToId c u ev)) = _ from hreason) hgrp (h.observe hnote)
      exact Or.inr ⟨m', cur', g', G.decl s, hm', hfind, hh, hat'⟩

theorem At.tick (h : At G cur m g) {elapsed : Nat} (hlt : elapsed < 2 ^ 64) :
    At G cur (decrementTimers c elapsed m) (g.tick elapsed) := by
  have hclocks := h.means.clocks.tick hlt
  rw [← timers_decrementTimers] at hclocks
  have hm : decrementTimers c elapsed m =
      { m with timers := (decrementTimers c elapsed m).timers } := by
    unfold decrementTimers
    split <;> rfl
  have hmeans := h.means.withClocks hclocks
  rw [← hm] at hmeans
  exact ⟨h.lt, by rw [current_decrementTimers, h.current],
    by rw [terminated_decrementTimers, h.running], hmeans⟩

theorem At.next_timers (h : At G cur m g) : m.timers.minRemaining = g.next := by
  rw [h.means.clocks.minRemaining (lt_of_up h.lt)]
  unfold Config.next
  rw [h.means.active]

theorem At.next (h : At G cur m g) : Hsmc.minRemaining c m = g.next := by
  rw [← h.next_timers]
  unfold Hsmc.minRemaining
  split
  · rfl
  · rename_i hno
    have hnil : m.timers.entries.items = [] := List.eq_nil_iff_forall_not_mem.mpr fun e he =>
      hno (G.sound.hasTimers_of_owned (h.means.clocks.owned e he).2)
    unfold TimerTable.minRemaining
    rw [hnil]
    rfl

/-- Without an expired timer there is none in the table. -/
theorem At.noneDue (h : At G cur m g) (hpop : popTimer c m = none) : g.NoneDue := by
  refine h.means.clocks.noneDue ?_
  unfold popTimer at hpop
  split at hpop
  · exact TimerTable.popExpired_eq_none_iff.mp hpop
  · rename_i hno
    have hnil : m.timers.entries.items = [] := List.eq_nil_iff_forall_not_mem.mpr fun e he =>
      hno (G.sound.hasTimers_of_owned (h.means.clocks.owned e he).2)
    unfold TimerTable.expired
    rw [hnil]
    rfl

theorem At.receive (h : At G cur m g) (ev : Ev) (queue : Bounded Ev qn) :
    At G cur ({ m with queue }.observe (.eventReceived (eventToId c u ev)))
      (g.receive input u ev queue) := by
  have hmeans : Means G (G.sound.tree.up cur) (G.sound.tree.up cur) { m with queue }
      { g with queue } :=
    ⟨h.means.ctx, h.means.active, rfl, h.means.clocks, h.means.terminated, h.means.overflow,
      h.means.log⟩
  have hnote : n.note (.eventReceived (eventToId c u ev)) =
      .eventReceived (input.eventName (u.variant ev)) := by
    rw [← G.eventName]
    rfl
  exact ⟨h.lt, h.current, h.running, hmeans.observe hnote⟩

/-- Leaving everything, and the end. -/
theorem At.shutsDown (h : At G cur m g) : ∃ m', doTerminate c u m = .ok m' ∧
    m'.terminated = true ∧ m'.current = none ∧ Means G [] [] m' (g.shutDown input u) := by
  refine ⟨_, doTerminate_eq G.sound h.lt h.current, rfl, rfl, ?_⟩
  have hm := h.means
  have hnd := G.sound.tree.nodup_up cur
  have hlts := lt_of_up (G := G) h.lt
  rw [← List.append_nil (G.sound.tree.up cur)] at hm hnd hlts
  have hleft := hm.leaveAll _ hnd hlts h.running
  rw [← h.means.active] at hleft
  rw [G.sound.pathToRoot_eq h.lt]
  exact hleft.halt.observe rfl

end Means

/-! ## The step -/

/-- Machine and configuration agree between two calls. -/
structure Agrees (G : Glossary input c n u) (m : ChartMachine c Ev Ctx qn)
    (g : Config Ev Ctx qn) : Prop where
  valid : m.Valid c
  means : Means G (c.activePath m.current) (c.activePath m.current) m g

namespace Agrees

variable {m m' : ChartMachine c Ev Ctx qn} {g : Config Ev Ctx qn} {cur : Nat}

theorem new (ctx : Ctx) : Agrees G (Machine.new ctx : ChartMachine c Ev Ctx qn) (Config.new ctx) :=
  ⟨valid_new ctx, ⟨rfl, rfl, rfl, Clocks.new, rfl, rfl, rfl⟩⟩

theorem of_at (h : Means.At G cur m g) : Agrees G m g where
  valid := valid_of_running h.running h.current h.lt
  means := by
    rw [h.current]
    show Means G (c.pathToRoot cur) (c.pathToRoot cur) m g
    rw [G.sound.pathToRoot_eq h.lt]
    exact h.means

theorem at_current (h : Agrees G m g) (hcur : m.current = some cur) (ht : m.terminated = false) :
    Means.At G cur m g := by
  have hlt := h.valid.current_lt cur hcur
  have hm := h.means
  rw [hcur] at hm
  have hpath : c.activePath (some cur) = G.sound.tree.up cur := G.sound.pathToRoot_eq hlt
  rw [hpath] at hm
  exact ⟨hlt, hcur, ht, hm⟩

/-- The first step of a machine. -/
theorem starts (h : Agrees G m g) (ht : m.terminated = false) (hcur : m.current = none) :
    ∃ m' cur' g', enterPath c u 0 (m.observe (.started c.chartHash)) = .ok m' ∧
      Config.Descends input u ((g.note (.started c.chartHash)).enter input u input.root) g' ∧
      Means.At G cur' m' g' := by
  have hm := h.means
  rw [hcur] at hm
  have hup : [0] = G.sound.tree.up 0 := (G.sound.tree.up_of_root G.sound.parent_zero).symm
  have hstarted := hm.observe (show n.note (.started c.chartHash) = .started c.chartHash from rfl)
  have hentered := hstarted.enter G.sound.nStates_pos hup ht
  have hspec := enterStateNoDescent_spec (c := c) (u := u) 0
    (show (m.observe (.started c.chartHash)).terminated = false from ht)
  rw [hup, G.root] at hentered
  have ht₁ := hspec.terminated.trans ht
  obtain ⟨m', cur', g', hm', hdesc, hat⟩ :=
    Means.At.descends ⟨G.sound.nStates_pos, hspec.current, ht₁, hentered⟩
  refine ⟨m', cur', g', ?_, hdesc, hat⟩
  unfold enterPath
  simp only [ht₁, Bool.false_eq_true, ↓reduceIte]
  exact hm'

theorem checkTerminate_iff (G : Glossary input c n u) (ev : Ev) :
    checkTerminate c u ev = true ↔ input.body.terminate = some (u.variant ev) := by
  unfold checkTerminate
  rw [G.terminate, beq_iff_eq]

theorem active_ne_nil_of_at (h : Means.At G cur m g) : g.active ≠ [] := by
  rw [h.means.active]
  simp

theorem popFront_of_at (h : Means.At G cur m g) : g.queue.popFront = m.queue.popFront :=
  congrArg Bounded.popFront h.means.queue

variable {elapsed : Nat} {next : Option Nat}

/-- The step that starts the machine. -/
theorem step_start (h : Agrees G m g) (ht : m.terminated = false) (hcur : m.current = none)
    (hstep : Hsmc.step c u m elapsed = .ok (next, m')) :
    ∃ g', Config.Step input u c.chartHash elapsed g next g' ∧ Agrees G m' g' := by
  obtain ⟨m₁, cur', g', hm₁, hdesc, hat⟩ := h.starts ht hcur
  have hactive := h.means.active
  rw [hcur] at hactive
  rw [step_of_fresh ht hcur, hm₁] at hstep
  cases hstep
  rw [hat.next]
  exact ⟨g', .start (h.means.terminated.trans ht) hactive hdesc, .of_at hat⟩

/-- A step that fires a timer. -/
theorem step_timer (h : Means.At G cur m g) (hlt : elapsed < 2 ^ 64) {s k : Nat}
    {tt : TimerTable c.maxTimers}
    (hpop : popTimer c (decrementTimers c elapsed m) = some ((s, k), tt))
    (hstep : Hsmc.step c u m elapsed = .ok (next, m')) :
    ∃ g', Config.Step input u c.chartHash elapsed g next g' ∧ Agrees G m' g' := by
  obtain ⟨m₁, cur', g', d, t, hm₁, hdue, hh, hat⟩ :=
    (h.tick hlt).fires (popExpired_of_popTimer hpop)
  rw [step_of_timer h.running h.current hpop, hm₁] at hstep
  cases hstep
  rw [hat.next_timers]
  exact ⟨g', .timer (h.means.terminated.trans h.running) hdue hh, .of_at hat⟩

/-- A step that only lets time pass. -/
theorem step_idle (h : Means.At G cur m g) (hlt : elapsed < 2 ^ 64)
    (hpop : popTimer c (decrementTimers c elapsed m) = none) (hq : m.queue.popFront = none)
    (hstep : Hsmc.step c u m elapsed = .ok (next, m')) :
    ∃ g', Config.Step input u c.chartHash elapsed g next g' ∧ Agrees G m' g' := by
  have hat := h.tick hlt
  rw [step_of_idle h.running h.current hpop hq] at hstep
  cases hstep
  rw [hat.next]
  exact ⟨_, .idle (h.means.terminated.trans h.running) (active_ne_nil_of_at h) (hat.noneDue hpop)
    ((popFront_of_at h).trans hq), .of_at hat⟩

/-- A step that takes an event which does not end the machine. -/
theorem step_event (h : Means.At G cur m g) (hlt : elapsed < 2 ^ 64) {ev : Ev}
    {queue : Bounded Ev qn} (hpop : popTimer c (decrementTimers c elapsed m) = none)
    (hq : m.queue.popFront = some (ev, queue)) (hchk : checkTerminate c u ev = false)
    (hstep : Hsmc.step c u m elapsed = .ok (next, m')) :
    ∃ g', Config.Step input u c.chartHash elapsed g next g' ∧ Agrees G m' g' := by
  have hat := h.tick hlt
  have hterm := h.means.terminated.trans h.running
  have hnone := hat.noneDue hpop
  have hq' := (popFront_of_at h).trans hq
  have hno : input.body.terminate ≠ some (u.variant ev) := by
    rw [Ne, ← checkTerminate_iff G ev, hchk]
    decide
  rw [step_of_event h.running h.current hpop hq hchk] at hstep
  rcases (hat.receive ev queue).handlesEvent ev with ⟨m₁, hm₁, hnone', hat'⟩ |
    ⟨m₁, cur', g', d, hm₁, hsome, hh, hat'⟩
  · rw [hm₁] at hstep
    cases hstep
    rw [hat'.next]
    exact ⟨_, .drop hterm (active_ne_nil_of_at h) hnone hq' hno hnone', .of_at hat'⟩
  · rw [hm₁] at hstep
    cases hstep
    rw [hat'.next]
    exact ⟨g', .event hterm hnone hq' hno hsome hh, .of_at hat'⟩

/-- The step that ends the machine. -/
theorem step_terminate (h : Means.At G cur m g) (hlt : elapsed < 2 ^ 64) {ev : Ev}
    {queue : Bounded Ev qn} (hpop : popTimer c (decrementTimers c elapsed m) = none)
    (hq : m.queue.popFront = some (ev, queue)) (hchk : checkTerminate c u ev = true)
    (hstep : Hsmc.step c u m elapsed = .ok (next, m')) :
    ∃ g', Config.Step input u c.chartHash elapsed g next g' ∧ Agrees G m' g' := by
  have hat := h.tick hlt
  have hnote : n.note (.terminateRequested (eventToId c u ev)) =
      .terminateRequested (input.eventName (u.variant ev)) := by
    rw [← G.eventName]
    rfl
  obtain ⟨m₁, hm₁, -, hcur₁, hmeans⟩ := ((hat.receive ev queue).observe hnote).shutsDown
  rw [step_of_terminate h.running h.current hpop hq hchk, hm₁] at hstep
  cases hstep
  refine ⟨_, .terminate (h.means.terminated.trans h.running) (active_ne_nil_of_at h)
    (hat.noneDue hpop) ((popFront_of_at h).trans hq) ((checkTerminate_iff G ev).mp hchk),
    ⟨fun s hs => ?_, fun _ => hcur₁⟩, ?_⟩
  · rw [hcur₁] at hs
    cases hs
  · rw [hcur₁]
    exact hmeans

/-- Every step of the machine is a step of the chart as written. -/
theorem step (h : Agrees G m g) (hlt : elapsed < 2 ^ 64)
    (hstep : Hsmc.step c u m elapsed = .ok (next, m')) :
    ∃ g', Config.Step input u c.chartHash elapsed g next g' ∧ Agrees G m' g' := by
  cases ht : m.terminated with
  | true =>
      rw [step_of_terminated ht] at hstep
      cases hstep
      exact ⟨g, .halted (h.means.terminated.trans ht), h⟩
  | false =>
      cases hcur : m.current with
      | none => exact h.step_start ht hcur hstep
      | some cur =>
          have hat := h.at_current hcur ht
          cases hpop : popTimer c (decrementTimers c elapsed m) with
          | some p => exact step_timer hat hlt hpop hstep
          | none =>
              cases hq : m.queue.popFront with
              | none => exact step_idle hat hlt hpop hq hstep
              | some p =>
                  cases hchk : checkTerminate c u p.1 with
                  | false => exact step_event hat hlt hpop hq hchk hstep
                  | true => exact step_terminate hat hlt hpop hq hchk hstep

/-! ## The other calls -/

theorem send (h : Agrees G m g) (ev : Ev) :
    (m.send ev).1 = (g.send ev).1 ∧ Agrees G (m.send ev).2 (g.send ev).2 := by
  have hsame := sameCore_send ev m
  have hv := hsame.valid h.valid
  have hm := h.means
  rw [← hsame.current] at hm
  cases ht : m.terminated with
  | true =>
      have hg : g.send ev = (.error .alreadyTerminated, g) := by
        unfold Config.send
        rw [h.means.terminated, ht, if_pos rfl]
      rw [send_of_terminated ht, hg]
      exact ⟨rfl, h⟩
  | false =>
      cases hpush : m.queue.push ev with
      | none =>
          have hg : g.send ev = (.error .queueFull, g) := by
            unfold Config.send
            rw [h.means.terminated, ht, h.means.queue, hpush]
            rfl
          rw [send_of_full ht hpush, hg]
          exact ⟨rfl, h⟩
      | some queue =>
          have hg : g.send ev = (.ok (), { g with queue }) := by
            unfold Config.send
            rw [h.means.terminated, ht, h.means.queue, hpush]
            rfl
          rw [send_of_push ht hpush] at hv hm ⊢
          rw [hg]
          exact ⟨rfl, hv, hm.ctx, hm.active, rfl, hm.clocks, hm.terminated, hm.overflow, hm.log⟩

theorem takeOverflow (h : Agrees G m g) :
    m.takeOverflow.1 = g.takeOverflow.1 ∧ Agrees G m.takeOverflow.2 g.takeOverflow.2 :=
  ⟨h.means.overflow.symm, (sameCore_takeOverflow m).valid h.valid, h.means.ctx, h.means.active,
    h.means.queue, h.means.clocks, h.means.terminated, rfl, h.means.log⟩

theorem contextMut (h : Agrees G m g) (f : Ctx → Ctx) :
    Agrees G { m with ctx := f m.ctx } { g with ctx := f g.ctx } :=
  ⟨(sameCore_ctx f m).valid h.valid, congrArg f h.means.ctx, h.means.active, h.means.queue,
    h.means.clocks, h.means.terminated, h.means.overflow, h.means.log⟩

/-- A machine that elementary calls reach agrees with some configuration. -/
theorem of_runsWith (h : RunsWith c u (fun _ elapsed => elapsed < 2 ^ 64) m) :
    ∃ g, Agrees G m g := by
  induction h with
  | new ctx => exact ⟨_, .new ctx⟩
  | step _ hlt hstep ih =>
      obtain ⟨g, hag⟩ := ih
      obtain ⟨g', -, hag'⟩ := hag.step hlt hstep
      exact ⟨g', hag'⟩
  | send ev _ ih =>
      obtain ⟨g, hag⟩ := ih
      exact ⟨_, (hag.send ev).2⟩
  | takeOverflow _ ih =>
      obtain ⟨g, hag⟩ := ih
      exact ⟨_, hag.takeOverflow.2⟩
  | contextMut f _ ih =>
      obtain ⟨g, hag⟩ := ih
      exact ⟨_, hag.contextMut f⟩

end Agrees

end Hsmc
