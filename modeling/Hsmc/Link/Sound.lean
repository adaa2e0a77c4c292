import Hsmc.Link.Defaults
import Hsmc.Link.Dispatch
import Hsmc.Link.Paths

/-
  What holds of every chart the macro accepts.

  `Chart.Sound c` carries the state tree of `c` and relates each table the machine reads to it.
  It is the only thing the proofs about the machine know of the macro; `sound` builds it for
  every chart that `statechartImpl` returns.
-/

namespace Hsmc

namespace Chart

variable (c : Chart)

/-- `__PARENT[s]` -/
def parentOf (s : Nat) : Option Nat := (c.parent[s]?).join

/-- `__DEFAULT_CHILD[s]` -/
def defaultOf (s : Nat) : Option Nat := (c.defaultChild[s]?).join

/-- `s`, its parent, and so on, for at most `fuel` states. -/
def walkUp : Nat → Nat → List Nat
  | 0, _ => []
  | fuel + 1, s => s :: (match c.parentOf s with
    | none => []
    | some p => walkUp fuel p)

/-- The states from `s` up to the root, `s` first. -/
def pathToRoot (s : Nat) : List Nat := c.walkUp c.nStates s

/-- The active states, innermost first. -/
def activePath (current : Option Nat) : List Nat :=
  match current with
  | none => []
  | some s => c.pathToRoot s

/-- The first state on the walk from `s` to the root that handles event `v`, and its handlers. -/
def bubbleUp (s v : Nat) : Option (Nat × Group) :=
  (c.pathToRoot s).findSome? fun h => (c.handlerLookup h 0 v).map fun g => (h, g)

structure Sound where
  tree : ParentTree Nat
  parent_eq : ∀ s, tree.parent s = c.parentOf s
  nStates_pos : 0 < c.nStates
  nStates_le : c.nStates ≤ 255
  up_lt : ∀ {s x}, s < c.nStates → x ∈ tree.up s → x < c.nStates
  zero_mem : ∀ {s}, s < c.nStates → 0 ∈ tree.up s
  parent_zero : tree.parent 0 = none
  depth_get : ∀ {s}, s < c.nStates → c.depth[s]? = some (tree.level s)
  path_get : ∀ {src dst}, src < c.nStates → dst < c.nStates →
    ∃ s m e, c.pathRange[src * c.nStates + dst]? = some (s, m, e) ∧
      SliceAt c.pathData s m (tree.exitPath src dst) ∧
      SliceAt c.pathData m e (tree.enterPath src dst)
  terminate_get : ∀ {s}, s < c.nStates →
    ∃ a b, c.terminateRange[s]? = some (a, b) ∧ SliceAt c.terminateData a b (tree.up s)
  default_get : ∀ {s}, s < c.nStates → c.defaultChild[s]? = some (c.defaultOf s)
  default_lt : ∀ {s t}, c.defaultOf s = some t → t < c.nStates
  default_ends : ∀ s, Ends c.defaultOf s
  dispatch_get : ∀ {s v}, s < c.nStates → v < c.nEvents → c.dispatch[s * c.nEvents + v]? =
    some (((tree.up s).findSome? fun h =>
      (c.handlerLookup h 0 v).map fun g => (h, g.1, g.2)).getD (u16Max, [], none))
  dispatch_length : c.dispatch.length = c.nStates * c.nEvents
  nEvents_le : c.nEvents ≤ u16Max
  eventId_lt : ∀ {name v}, c.eventVariantArms.lookup name = some v → v < c.nEvents
  handler_event_lt : ∀ {s v g}, c.handlerLookup s 0 v = some g → v < c.nEvents
  handler_target_lt : ∀ {s k v g t}, c.handlerLookup s k v = some g → g.2 = some t → t < c.nStates
  mem_ownedTimers : ∀ {s t}, t ∈ c.ownedTimers s ↔ ∃ g, c.handlerLookup s 1 t = some g
  ownedTimers_nodup : ∀ s, (c.ownedTimers s).Nodup
  timer_group : ∀ {s t g}, c.handlerLookup s 1 t = some g → g.1 ≠ [] ∨ g.2.isSome
  hasTimers_of_owned : ∀ {s t}, t ∈ c.ownedTimers s → c.hasTimers = true

end Chart

/-! ## Accepted charts are sound -/

/-- The stages that an accepted input went through; `ir` is what was parsed, names resolved. -/
structure Accepted (input : StatechartInput) (c : Chart) (ir : Ir) : Prop where
  resolved : buildIr input >>= resolveTransitions = .ok ir
  validated : validate ir = .ok ()
  generated : generate ir = .ok c

theorem accepted_of_statechartImpl {input : StatechartInput} {c : Chart}
    (h : statechartImpl input = .ok c) : ∃ ir, Accepted input c ir := by
  unfold statechartImpl at h
  rw [Except.bind_eq_ok] at h
  obtain ⟨⟨⟩, -, h⟩ := h
  rw [Except.bind_eq_ok] at h
  obtain ⟨ir₀, h₀, h⟩ := h
  rw [Except.bind_eq_ok] at h
  obtain ⟨ir, h₁, h⟩ := h
  rw [Except.bind_eq_ok] at h
  obtain ⟨⟨⟩, hv, h⟩ := h
  exact ⟨ir, Except.bind_eq_ok.mpr ⟨ir₀, h₀, h₁⟩, hv, h⟩

theorem Accepted.of_resolved {input : StatechartInput} {c : Chart} {ir : Ir}
    (hir : buildIr input >>= resolveTransitions = .ok ir) (hc : statechartImpl input = .ok c) :
    Accepted input c ir := by
  obtain ⟨ir', ha⟩ := accepted_of_statechartImpl hc
  have he : ir' = ir := Except.ok.inj (ha.resolved.symm.trans hir)
  rwa [he] at ha

theorem emitTable_eq_ok {α : Type} {n : Nat} {l l' : List α} :
    emitTable n l = .ok l' ↔ l.length = n ∧ l' = l := by
  unfold emitTable
  split
  · rename_i h
    simp [h, eq_comm]
  · rename_i h
    simp [h]

/-- What `generate` returns, and what each of its tables was built from. -/
structure Generated (ir : Ir) (c : Chart) : Prop where
  chartHash : c.chartHash = computeChartHash ir
  paths : pathTables ir.states = .ok (c.pathData, c.pathRange)
  terminate : computeTerminatePaths ir.states = .ok (c.terminateData, c.terminateRange)
  dispatch : c.dispatch = computeEventDispatch ir
  dispatch_length : c.dispatch.length = ir.states.length * ir.symbols.eventVariants.length
  nStates : c.nStates = ir.states.length
  nEvents : c.nEvents = ir.symbols.eventVariants.length
  maxTimers : c.maxTimers = max ir.symbols.durationTriggers.length 1
  hasTimers : c.hasTimers = !ir.symbols.durationTriggers.isEmpty
  parent : c.parent = ir.states.map (·.parent)
  depth : c.depth = ir.states.map (·.depth)
  defaultChild : c.defaultChild = ir.states.map (·.defaultChild)
  handlerArms : c.handlerArms = ir.states.map fun s => (s.id, stateHandlerArms s)
  ownedTimersArms : c.ownedTimersArms = ir.states.map fun s => (s.id, s.ownedTimers)
  entriesArms : c.entriesArms = ir.states.map fun s => (s.id, s.entries)
  exitsArms : c.exitsArms = ir.states.map fun s => (s.id, s.exits)
  durationRepeatArms : c.durationRepeatArms = indexArms (·.repeats) ir.symbols.durationTriggers
  actionArms : c.actionArms = indexArms id ir.symbols.actions
  eventVariantArms : c.eventVariantArms =
    ir.symbols.eventVariants.zipIdx.map fun (v, i) => (v.name, asU16 i)
  publicStateArms : c.publicStateArms =
    (ir.states.filter (·.parent.isSome)).map fun s => (s.id, s.name)
  activeDurings : c.activeDurings = activeDuringsPerInnermostState ir

theorem generate_spec {ir : Ir} {c : Chart} (h : generate ir = .ok c) : Generated ir c := by
  unfold generate at h
  simp only at h
  rw [Except.bind_eq_ok] at h
  obtain ⟨⟨pathData, pathRange⟩, h₁, h⟩ := h
  rw [Except.bind_eq_ok] at h
  obtain ⟨⟨terminateData, terminateRange⟩, h₂, h⟩ := h
  rw [Except.bind_eq_ok] at h
  obtain ⟨terminateRange', h₃, h⟩ := h
  rw [Except.bind_eq_ok] at h
  obtain ⟨dispatch, h₄, h⟩ := h
  obtain ⟨-, rfl⟩ := emitTable_eq_ok.mp h₃
  obtain ⟨hlen, rfl⟩ := emitTable_eq_ok.mp h₄
  cases h
  exact ⟨rfl, h₁, h₂, rfl, hlen, rfl, rfl, rfl, rfl, rfl, rfl, rfl, rfl, rfl, rfl, rfl, rfl, rfl,
    rfl, rfl, rfl⟩

section

variable {input : StatechartInput} {ir : Ir} {c : Chart}

theorem Generated.parentOf_eq (g : Generated ir c) (s : Nat) :
    c.parentOf s = parentOf ir.states s := by
  unfold Chart.parentOf parentOf
  rw [g.parent, List.getElem?_map]
  cases ir.states[s]? <;> rfl

theorem Generated.defaultOf_eq (g : Generated ir c) (s : Nat) :
    c.defaultOf s = defaultChildOf ir.states s := by
  unfold Chart.defaultOf defaultChildOf
  rw [g.defaultChild, List.getElem?_map]
  cases ir.states[s]? <;> rfl

theorem Generated.handlerLookup_eq (g : Generated ir c) (ht : TreeOk ir.states) (s k v : Nat) :
    c.handlerLookup s k v = (ir.states[s]?).bind fun x => (stateHandlerArms x).lookup (k, v) := by
  unfold Chart.handlerLookup Chart.arm
  rw [g.handlerArms, ht.lookup_arms]
  cases ir.states[s]? <;> rfl

theorem Generated.ownedTimers_eq (g : Generated ir c) (ht : TreeOk ir.states) (s : Nat) :
    c.ownedTimers s = ((ir.states[s]?).map (·.ownedTimers)).getD [] := by
  unfold Chart.ownedTimers Chart.arm
  rw [g.ownedTimersArms, ht.lookup_arms]

/-- A group stands for a handler, so every handler gives a group and every group has one. -/
theorem Generated.handlerLookup_some (g : Generated ir c) (ht : TreeOk ir.states) {s k v : Nat}
    {group : Group} (h : c.handlerLookup s k v = some group) :
    ∃ x ∈ ir.states, ir.states[s]? = some x ∧ groupFrom none ((sortHandlers x.handlers).filter
      fun h => decide (some (triggerKindId h.trigger) = some (k, v))) = some group := by
  rw [g.handlerLookup_eq ht] at h
  obtain ⟨x, hx, h⟩ := Option.bind_eq_some_iff.mp h
  rw [stateHandlerArms_eq, lookup_groups] at h
  exact ⟨x, List.mem_of_getElem? hx, hx, h⟩

/-- The number of events fits a `u16`, since a table of `n * nEvents` entries was filled. -/
theorem Generated.nEvents_lt (g : Generated ir c) (hpos : 0 < ir.states.length) :
    ir.symbols.eventVariants.length < 65536 := by
  have hlen := g.dispatch_length
  rw [g.dispatch, length_computeEventDispatch] at hlen
  have := Nat.eq_of_mul_eq_mul_left hpos hlen
  unfold asU16 at this
  omega

theorem eventId_lt {events : List EventVariantIr} {name : Ident} {v : Nat}
    (h : (events.zipIdx.map fun (e, i) => (e.name, asU16 i)).lookup name = some v) :
    v < events.length := by
  obtain ⟨l, l', hl, -⟩ := List.lookup_eq_some_iff.mp h
  have hmem : (name, v) ∈ events.zipIdx.map fun (e, i) => (e.name, asU16 i) := by simp [hl]
  obtain ⟨⟨e, i⟩, hei, he⟩ := List.mem_map.mp hmem
  cases he
  have hi := List.snd_lt_of_mem_zipIdx hei
  have := asU16_le i
  simp only [Nat.add_zero] at hi
  omega

theorem Ir.WellFormed.resolved (hw : ir.WellFormed) {x : StateIr} (hx : x ∈ ir.states)
    {k v : Nat} : ∀ h ∈ (sortHandlers x.handlers).filter
      (fun h => decide (some (triggerKindId h.trigger) = some (k, v))),
    ∀ name slot, h.kind = .transition name slot → slot.isSome := by
  intro h hh name slot hk
  obtain ⟨t, rfl, -⟩ := hw.target_lt x hx h (mem_sortHandlers.mp (List.mem_of_mem_filter hh))
    name slot hk
  rfl

theorem Accepted.nStates_le (ha : Accepted input c ir) : ir.states.length ≤ 255 :=
  length_le_of_pathTables (generate_spec ha.generated).paths

theorem Accepted.wf (ha : Accepted input c ir) : ir.WellFormed := by
  obtain ⟨ir₀, h₀, h₁⟩ := Except.bind_eq_ok.mp ha.resolved
  exact resolved_wellFormed h₀ h₁ (by have := ha.nStates_le; omega)

/-- A timer handler is there exactly for the owned timers. -/
theorem Accepted.mem_ownedTimers (ha : Accepted input c ir) {s t : Nat} :
    t ∈ c.ownedTimers s ↔ ∃ g, c.handlerLookup s 1 t = some g := by
  have g := generate_spec ha.generated
  have hw := ha.wf
  rw [g.ownedTimers_eq hw.tree, g.handlerLookup_eq hw.tree]
  cases hs : ir.states[s]? with
  | none => simp
  | some x =>
      have hx := List.mem_of_getElem? hs
      simp only [Option.map_some, Option.getD_some, Option.bind_some, hw.owned_iff x hx,
        stateHandlerArms_eq, lookup_groups, List.lookup_nil]
      have hkey : ∀ h : HandlerIr, some (triggerKindId h.trigger) = some (1, t) ↔
          h.trigger = .duration t := by
        intro h
        unfold triggerKindId
        cases h.trigger <;> simp
      constructor
      · rintro ⟨h, hh, ht⟩
        obtain ⟨grp, hgrp, -⟩ := groupFrom_ne_empty
          (List.ne_nil_of_mem (List.mem_filter.mpr ⟨mem_sortHandlers.mpr hh,
            decide_eq_true ((hkey h).mpr ht)⟩)) (hw.resolved hx)
        exact ⟨grp, hgrp⟩
      · rintro ⟨grp, hgrp⟩
        obtain ⟨h, hh⟩ := List.exists_mem_of_ne_nil _ (isSome_groupFrom hgrp)
        obtain ⟨hmem, hk⟩ := List.mem_filter.mp hh
        exact ⟨h, mem_sortHandlers.mp hmem, (hkey h).mp (of_decide_eq_true hk)⟩

/-- The tables of an accepted chart are those of its state tree. -/
def Accepted.sound (ha : Accepted input c ir) : c.Sound :=
  have g := generate_spec ha.generated
  have hw := ha.wf
  have hn := ha.nStates_le
  let T := hw.tree.stateTree hw.nonempty
  { tree := T.tree
    parent_eq := fun s => (g.parentOf_eq s).symm
    nStates_pos := by rw [g.nStates]; exact hw.nonempty
    nStates_le := by rw [g.nStates]; exact hn
    up_lt := by
      intro s x hs hx
      rw [g.nStates] at hs ⊢
      exact T.up_lt hs hx
    zero_mem := by
      intro s hs
      rw [g.nStates] at hs
      exact T.root_mem hs
    parent_zero := T.parent_root
    depth_get := by
      intro s hs
      rw [g.nStates] at hs
      rw [g.depth, List.getElem?_map, List.getElem?_eq_getElem hs, Option.map_some]
      have := T.depth_eq_level (T.shallow_of_length (by omega)) hs
      unfold depthOf at this
      rw [List.getElem?_eq_getElem hs] at this
      simpa using this
    path_get := by
      intro src dst hs hd
      rw [g.nStates] at hs hd ⊢
      exact pathTables_spec T g.paths hs hd
    terminate_get := by
      intro s hs
      rw [g.nStates] at hs
      exact terminatePaths_spec T hn g.terminate hs
    default_get := by
      intro s hs
      rw [g.nStates] at hs
      unfold Chart.defaultOf
      rw [g.defaultChild, List.getElem?_map, List.getElem?_eq_getElem hs]
      rfl
    default_lt := by
      intro s t h
      rw [g.defaultOf_eq] at h
      obtain ⟨x, hx, h⟩ := Option.bind_eq_some_iff.mp h
      rw [g.nStates]
      exact hw.default_lt x (List.mem_of_getElem? hx) t h
    default_ends := by
      intro s
      have hv := ha.validated
      unfold validate at hv
      rw [Except.bind_eq_ok] at hv
      obtain ⟨⟨⟩, hv, -⟩ := hv
      have : c.defaultOf = defaultChildOf ir.states := funext g.defaultOf_eq
      rw [this]
      exact ends_of_validateDefaultGraph hv s
    dispatch_get := by
      intro s v hs hv
      rw [g.nStates] at hs
      rw [g.nEvents] at hv ⊢
      have hlt := g.nEvents_lt hw.nonempty
      rw [g.dispatch, computeEventDispatch_spec T (by omega) hlt hs hv]
      congr 2
      congr 1
      funext h
      rw [g.handlerLookup_eq hw.tree]
      rfl
    dispatch_length := by rw [g.dispatch_length, g.nStates, g.nEvents]
    nEvents_le := by
      have := g.nEvents_lt hw.nonempty
      rw [g.nEvents]; unfold u16Max; omega
    eventId_lt := by
      intro name v h
      rw [g.eventVariantArms] at h
      rw [g.nEvents]
      exact Hsmc.eventId_lt h
    handler_event_lt := by
      intro s v grp h
      obtain ⟨x, hx, -, hgrp⟩ := g.handlerLookup_some hw.tree h
      obtain ⟨y, hy⟩ := List.exists_mem_of_ne_nil _ (isSome_groupFrom hgrp)
      obtain ⟨hmem, hk⟩ := List.mem_filter.mp hy
      have hint := hw.interned x hx y (mem_sortHandlers.mp hmem)
      have hk := of_decide_eq_true hk
      unfold triggerKindId at hk
      rw [g.nEvents]
      cases ht : y.trigger with
      | event id name p =>
          rw [ht] at hk hint
          simp only [Option.some.injEq, Prod.mk.injEq, true_and] at hk
          rw [← hk]; exact hint
      | duration id => rw [ht] at hk; simp at hk
    handler_target_lt := by
      intro s k v grp t h ht
      obtain ⟨x, hx, -, hgrp⟩ := g.handlerLookup_some hw.tree h
      rw [g.nStates]
      obtain ⟨y, hy, name, hk⟩ := groupFrom_target hgrp ht
      obtain ⟨t'', he, hlt⟩ := hw.target_lt x hx y
        (mem_sortHandlers.mp (List.mem_of_mem_filter hy)) name _ hk
      cases he
      exact hlt
    mem_ownedTimers := ha.mem_ownedTimers
    ownedTimers_nodup := by
      intro s
      rw [g.ownedTimers_eq hw.tree]
      cases hs : ir.states[s]? with
      | none => exact List.nodup_nil
      | some x => exact hw.owned_nodup x (List.mem_of_getElem? hs)
    timer_group := by
      intro s t grp h
      obtain ⟨x, hx, -, hgrp⟩ := g.handlerLookup_some hw.tree h
      obtain ⟨grp', hgrp', hne⟩ := groupFrom_ne_empty (isSome_groupFrom hgrp) (hw.resolved hx)
      rw [hgrp] at hgrp'
      cases hgrp'
      exact hne
    hasTimers_of_owned := by
      intro s t h
      rw [g.ownedTimers_eq hw.tree] at h
      cases hs : ir.states[s]? with
      | none => rw [hs] at h; cases h
      | some x =>
          rw [hs] at h
          have hx := List.mem_of_getElem? hs
          obtain ⟨y, hy, hk⟩ := (hw.owned_iff x hx t).mp h
          have hint := hw.interned x hx y hy
          rw [hk] at hint
          have hne : ir.symbols.durationTriggers ≠ [] := List.ne_nil_of_length_pos hint
          simpa [g.hasTimers] using hne }

end

/-- Every accepted chart is sound. -/
theorem sound {input : StatechartInput} {c : Chart} (h : statechartImpl input = .ok c) :
    Nonempty c.Sound := by
  obtain ⟨ir, ha⟩ := accepted_of_statechartImpl h
  exact ⟨ha.sound⟩

/-! ## Walks of a sound chart -/

namespace Chart.Sound

variable {c : Chart} (S : c.Sound)

theorem walkUp_eq : ∀ (fuel s : Nat), S.tree.level s < fuel → c.walkUp fuel s = S.tree.up s
  | 0, _, h => by omega
  | fuel + 1, s, h => by
      unfold Chart.walkUp
      rw [← S.parent_eq]
      cases hp : S.tree.parent s with
      | none => simp [S.tree.up_of_root hp]
      | some p =>
          have hlev := S.tree.level_parent hp
          simp only [walkUp_eq fuel p (by omega), S.tree.up_of_parent hp]

theorem level_lt {s : Nat} (hs : s < c.nStates) : S.tree.level s < c.nStates := by
  have hsub : S.tree.up s ⊆ List.range c.nStates :=
    fun x hx => List.mem_range.mpr (S.up_lt hs hx)
  have hlen := (S.tree.nodup_up s).length_le_of_subset hsub
  rw [S.tree.length_up, List.length_range] at hlen
  omega

theorem pathToRoot_eq {s : Nat} (hs : s < c.nStates) : c.pathToRoot s = S.tree.up s :=
  S.walkUp_eq _ _ (S.level_lt hs)

end Chart.Sound

end Hsmc
