import Hsmc.Link.Checks
import Hsmc.Link.Order
import Hsmc.Link.Parsed
import Hsmc.Safety.Calls

/-
  Handlers run in source order.

  For a trigger of a state, the names that its `on` declarations list are compared with what
  `run_handlers` does (`handlers_in_source_order`). They agree exactly when the trigger shares
  its id with no other trigger of the state and every action listed has an id of its own.
  Two durations that differ in the white space of a string literal alone share an id
  (`merged_order`).
-/

namespace Hsmc

open Machine

/-! ## What the text lists -/

/-- The trigger without the payload it binds. -/
def TriggerItem.bare : TriggerItem → TriggerItem
  | .event variant _ => .event variant none
  | .duration expr repeats => .duration expr repeats

def Trigger.bare : Trigger → TriggerItem
  | .event variant _ => .event variant none
  | .duration expr _ repeats => .duration expr repeats

theorem bare_parsed (t : TriggerItem) : t.parsed.bare = t.bare := by cases t <;> rfl

theorem bare_bare (t : Trigger) : t.bare.bare = t.bare := by cases t <;> rfl

/-- The right-hand sides of the `on(t) => ..` declarations, one after the other. -/
def listed (t : TriggerItem) (items : List Item) : List Ident :=
  items.flatMap fun
    | .on t' first rest => if t'.bare = t.bare then first :: rest else []
    | _ => []

theorem listed_eq (t : TriggerItem) (items : List Item) : listed t items =
    ((items.flatMap Item.written).filter fun x => decide (x.1.bare = t.bare)).map (·.2) := by
  unfold listed
  rw [List.filter_flatMap, List.map_flatMap]
  congr 1
  funext item
  cases item with
  | on t' first rest =>
      by_cases hb : t'.bare = t.bare
      · have hall : ((first :: rest).map (t'.parsed, ·)).filter
            (fun x => decide (x.1.bare = t.bare)) = (first :: rest).map (t'.parsed, ·) := by
          rw [List.filter_eq_self]
          intro x hx
          obtain ⟨i, -, rfl⟩ := List.mem_map.mp hx
          simpa [bare_parsed] using hb
        simp only [Item.written]
        rw [hall, List.map_map, if_pos hb]
        simp [Function.comp_def]
      · have hnone : ((first :: rest).map (t'.parsed, ·)).filter
            (fun x => decide (x.1.bare = t.bare)) = [] := by
          rw [List.filter_eq_nil_iff]
          intro x hx
          obtain ⟨i, -, rfl⟩ := List.mem_map.mp hx
          simpa [bare_parsed] using hb
        simp only [Item.written]
        rw [hnone, if_neg hb]
        rfl
  | _ => rfl

/-- The list is that of the handlers the parser made. -/
theorem listed_handlers {items : List Item} {hs : List Handler} {k : Nat}
    (h : Numbered k (items.flatMap Item.written) hs) (t : TriggerItem) :
    listed t items = (hs.filter fun h => decide (h.trigger.bare = t.bare)).map (·.target) := by
  rw [listed_eq, ← h.map_eq, List.filter_map, List.map_map]
  rfl

theorem listed_ne_nil {items : List Item} {hs : List Handler} {k : Nat}
    (h : Numbered k (items.flatMap Item.written) hs) {t : TriggerItem} :
    listed t items ≠ [] ↔ ∃ x ∈ hs, x.trigger.bare = t.bare := by
  rw [listed_handlers h, ne_eq, List.map_eq_nil_iff, List.filter_eq_nil_iff]
  simp

theorem Lists.parsed {items : List Item} {p : Placed} (h : Lists items p) :
    ∀ x ∈ p.decl.body.handlers, ∃ t : TriggerItem, x.trigger = t.parsed := by
  intro x hx
  obtain ⟨t, first, rest, -, heq⟩ := (h.trigger_iff _).mp ⟨x, hx, rfl⟩
  exact ⟨t, heq.symm⟩

/-! ## Ids -/

/-- The kind of a trigger and the id it is interned under. -/
def Ir.triggerKey (ir : Ir) : TriggerItem → Nat × Nat
  | .event variant _ => (0, asU16 ((ir.symbols.eventVariants.map (·.name)).idxOf variant))
  | .duration expr repeats => (1, asU16 ((ir.symbols.durationTriggers.map (·.key)).idxOf
      (durationKey (exprToString expr) repeats)))

/-- The place of an action in the table of actions. -/
def Ir.actionIndex (ir : Ir) (i : Ident) : Nat := (ir.symbols.actions.map (·.name)).idxOf i

theorem triggerKey_bare (ir : Ir) (t : TriggerItem) : ir.triggerKey t.bare = ir.triggerKey t := by
  cases t <;> rfl

theorem idxOf_map {α : Type} {f : α → String} {l : List α} (hnd : (l.map f).Nodup) {p : Nat}
    {a : α} (h : l[p]? = some a) : (l.map f).idxOf (f a) = p := by
  obtain ⟨hp, rfl⟩ := List.getElem?_eq_some_iff.mp h
  have hidx := hnd.idxOf_getElem p (by simpa using hp)
  rwa [List.getElem_map] at hidx

theorem variant_mem {syms : Symbols} {t : Trigger} {t' : TriggerIr} (h : syms.TriggerAt t t')
    {v : Ident} (hv : t.bare = .event v none) : v ∈ syms.eventVariants.map (·.name) := by
  obtain ⟨variant, payload, id, rfl, rfl, hat⟩ | ⟨expr, key, repeats, id, rfl, rfl, -⟩ := h.inv
  · cases hv
    obtain ⟨p, e, he, hname, -⟩ := hat
    exact List.mem_map.mpr ⟨e, List.mem_of_getElem? he, hname⟩
  · cases hv

theorem triggerKindId_eq {ir : Ir} (hok : ir.symbols.Ok) {t : TriggerItem} {t' : TriggerIr}
    (h : ir.symbols.TriggerAt t.parsed t') : triggerKindId t' = ir.triggerKey t := by
  cases t with
  | event variant payload =>
      cases t' with
      | duration id => exact h.elim
      | event id variant' payload' =>
          obtain ⟨-, -, p, e, he, rfl, rfl, -⟩ := h
          unfold triggerKindId Ir.triggerKey
          simp only
          rw [idxOf_map hok.events_nodup he]
  | duration expr repeats =>
      cases t' with
      | event id variant' payload' => exact h.elim
      | duration id =>
          obtain ⟨p, d, hd, hkey, -, rfl⟩ := h
          unfold triggerKindId Ir.triggerKey
          simp only
          rw [← hkey, idxOf_map hok.durations_nodup hd]

/-- The arm of an event variant has its place in the table. -/
theorem lookup_variant {v : Ident} : ∀ {l : List EventVariantIr} {k : Nat}, v ∈ l.map (·.name) →
    ((l.zipIdx k).map fun (e, i) => (e.name, asU16 i)).lookup v =
      some (asU16 (k + (l.map (·.name)).idxOf v))
  | e :: l, k, h => by
      rw [List.zipIdx_cons, List.map_cons, List.lookup_cons, List.map_cons]
      by_cases he : v = e.name
      · simp [he]
      · have hb : (v == e.name) = false := by simpa using he
        have hmem : v ∈ l.map (·.name) := (List.mem_cons.mp h).resolve_left he
        rw [hb, List.idxOf_cons_ne _ (Ne.symm he), lookup_variant hmem, Nat.add_succ, Nat.succ_add]
        rfl

variable {Ev Ctx Val : Type} {qn : Nat} {name : Ident} {input : StatechartInput}
  {items its : List Item} {c : Chart} {ir : Ir} {u : UserCode Ev Ctx Val} {sid : Nat}
  {t : TriggerItem}

/-- Triggers that code generation files together are one to `validate`. -/
theorem Accepted.triggerKey_of_kindId (ha : Accepted input c ir) {x x' : Trigger}
    {y y' : TriggerIr} (h : ir.symbols.TriggerAt x y) (h' : ir.symbols.TriggerAt x' y')
    (hk : triggerKindId y = triggerKindId y') : Hsmc.triggerKey y = Hsmc.triggerKey y' := by
  have hlt := (generate_spec ha.generated).nEvents_lt ha.laid.pos
  obtain ⟨v, p, id, rfl, rfl, hat⟩ | ⟨expr, key, rep, id, rfl, rfl, -⟩ := h.inv
  · obtain ⟨v', p', id', rfl, rfl, hat'⟩ | ⟨expr', key', rep', id', rfl, rfl, -⟩ := h'.inv
    · have hid : id = id' := by simpa [triggerKindId] using hk
      obtain ⟨i, e, he, rfl, rfl, -⟩ := hat
      obtain ⟨i', e', he', rfl, rfl, -⟩ := hat'
      have hi := (List.getElem?_eq_some_iff.mp he).1
      have hi' := (List.getElem?_eq_some_iff.mp he').1
      rw [asU16_of_lt (by omega), asU16_of_lt (by omega)] at hid
      subst hid
      rw [he] at he'
      cases he'
      rfl
    · simp [triggerKindId] at hk
  · obtain ⟨v', p', id', rfl, rfl, -⟩ | ⟨expr', key', rep', id', rfl, rfl, -⟩ := h'.inv
    · simp [triggerKindId] at hk
    · have hid : id = id' := by simpa [triggerKindId] using hk
      rw [hid]

/-! ## The handlers of one trigger -/

/-- What a listed name asks for: a state to go to, or a method to call. -/
def StatechartInput.workOf (input : StatechartInput) (ir : Ir) (x : Ident) : Work :=
  if x ∈ input.stateNames then .go ((nameMap ir).lookup x) else .call (some x)

/-- A handler does what its name asks for, unless the id of its action belongs to another. -/
theorem Accepted.kindWork_iff (ha : Accepted input c ir) {h : Handler} {y : HandlerIr}
    (hr : ResolvedHandler input.stateNames (nameMap ir) ir.symbols h y) :
    c.kindWork y.kind = input.workOf ir h.target ↔
      (h.target ∉ input.stateNames → ir.actionIndex h.target < 65536) := by
  have hkind := hr.kind
  revert hkind
  generalize y.kind = k
  intro hkind
  unfold StatechartInput.workOf
  cases hkind with
  | transition hmem _ _ hlook =>
      rw [if_pos hmem, hlook]
      exact iff_of_true rfl fun hno => absurd hmem hno
  | action hmem hat =>
      obtain ⟨p, a, hp, hname, rfl, -⟩ := hat
      have hnd := ha.laid.ok.actions_nodup
      have hidx : ir.actionIndex h.target = p := by
        rw [← hname]
        exact idxOf_map hnd hp
      rw [if_neg hmem, hidx]
      unfold Chart.kindWork Chart.callOf
      simp only
      rw [(generate_spec ha.generated).actionArms, lookup_indexArms _ _ (asU16_lt p)]
      simp only [hmem, not_false_eq_true, forall_const, Work.call.injEq, Option.map_map,
        Function.comp_def, id]
      constructor
      · intro hsome
        obtain ⟨b, hb, hbname⟩ := Option.map_eq_some_iff.mp hsome
        have heq := hnd.index_unique hb hp (hbname.trans hname.symm)
        rw [← heq]
        exact asU16_lt p
      · intro hlt
        rw [asU16_of_lt hlt, hp, ← hname]
        rfl

theorem Accepted.checked (ha : Accepted input c ir) {s : StateIr} (hs : s ∈ ir.states) :
    ∃ seen, s.handlers.foldlM (checkHandler ir s) {} = .ok seen := by
  have hv := ha.validated
  unfold validate at hv
  simp only [Except.check_bind_eq_ok, Except.forM_eq_ok, checkState_ok_iff] at hv
  exact (hv.2.2 s hs).2.2

/-- Resolved handlers are still numbered as they come. -/
theorem Lists.increasing {p : Placed} (hl : Lists its p) {names : List Ident}
    {map : List (Ident × Nat)} {syms : Symbols} {s : StateIr}
    (hs : ResolvedState names map syms p s) :
    s.handlers.Pairwise fun a b => a.declIndex < b.declIndex :=
  hs.handlers.flip.pairwise_left (Numbered.increasing hl) fun a b a' b' hab hab' hlt => by
    rw [hab.declIndex, hab'.declIndex]
    exact hlt

/-- What code generation files under the key of `t` are the handlers of all triggers with this
    key, actions first. -/
theorem Accepted.filed (ha : Accepted input c ir) {p : Placed}
    (hp : input.layout[sid]? = some p) (hl : Lists its p) (t : TriggerItem) :
    ∃ ys, c.handlerLookup sid (ir.triggerKey t).1 (ir.triggerKey t).2 = groupFrom none ys ∧
      List.Forall₂ (ResolvedHandler input.stateNames (nameMap ir) ir.symbols)
        (p.decl.body.handlers.filter
          fun h => decide (ir.triggerKey h.trigger.bare = ir.triggerKey t)) ys ∧
      ys.Pairwise fun a _ => a.kind.actionId.isSome := by
  obtain ⟨s, hs, hst⟩ := ha.laid.states.exists_of_getElem? hp
  have hinc := hl.increasing hst
  have hsorted : sortHandlers s.handlers = s.handlers :=
    (hinc.imp Nat.le_of_lt).insertionSort_eq
  refine ⟨s.handlers.filter fun y => decide (triggerKindId y.trigger = ir.triggerKey t), ?_, ?_, ?_⟩
  · rw [(generate_spec ha.generated).handlerLookup_eq ha.laid.tree, hs, Option.bind_some,
      stateHandlerArms_eq, lookup_groups, hsorted]
    simp
  · have hparsed := (List.forall₂_and_left p.decl.body.handlers s.handlers).mpr
      ⟨hl.parsed, hst.handlers⟩
    refine (List.rel_filter (fun {h y} hr => ?_) hparsed).imp fun _ _ hr => hr.2
    obtain ⟨⟨t', ht'⟩, hr⟩ := hr
    have hat := hr.trigger
    rw [ht'] at hat
    simp only [decide_eq_true_eq]
    rw [ht', bare_parsed, triggerKey_bare, triggerKindId_eq ha.laid.ok hat]
  · obtain ⟨_, hfold⟩ := ha.checked (List.mem_of_getElem? hs)
    have hlast := ((checkHandlers_iff (by simp [HandlerSeen.Before]) hinc).mp ⟨_, hfold⟩).2
    refine (hlast.filter _).imp_of_mem fun {a b} hma hmb hab => hab ?_
    obtain ⟨hma, hka⟩ := List.mem_filter.mp hma
    obtain ⟨hmb, hkb⟩ := List.mem_filter.mp hmb
    obtain ⟨x, -, hx⟩ := hst.handlers.exists_of_mem_right hma
    obtain ⟨x', -, hx'⟩ := hst.handlers.exists_of_mem_right hmb
    exact ha.triggerKey_of_kindId hx.trigger hx'.trigger
      ((of_decide_eq_true hka).trans (of_decide_eq_true hkb).symm)

/-- The handlers of one trigger are among those filed with it. -/
theorem filter_bare_sublist (ir : Ir) (t : TriggerItem) (hs : List Handler) :
    (hs.filter fun h => decide (h.trigger.bare = t.bare)).Sublist
      (hs.filter fun h => decide (ir.triggerKey h.trigger.bare = ir.triggerKey t)) := by
  refine List.monotone_filter_right hs fun h hb => ?_
  rw [decide_eq_true_eq] at hb ⊢
  rw [hb, triggerKey_bare]

/-- They are all of these exactly when no other trigger has the key. -/
theorem filter_bare_eq_iff {ir : Ir} {t : TriggerItem} {hs : List Handler} :
    hs.filter (fun h => decide (h.trigger.bare = t.bare)) =
        hs.filter (fun h => decide (ir.triggerKey h.trigger.bare = ir.triggerKey t)) ↔
      ∀ h ∈ hs, ir.triggerKey h.trigger.bare = ir.triggerKey t → h.trigger.bare = t.bare := by
  constructor
  · intro heq h hh hk
    have hmem : h ∈ hs.filter fun h => decide (ir.triggerKey h.trigger.bare = ir.triggerKey t) :=
      List.mem_filter.mpr ⟨hh, decide_eq_true hk⟩
    rw [← heq] at hmem
    exact of_decide_eq_true (List.mem_filter.mp hmem).2
  · intro h
    refine List.filter_congr fun x hx => decide_eq_decide.mpr ⟨fun hb => ?_, h x hx⟩
    rw [hb, triggerKey_bare]

/-! ## Source order -/

section

variable {hs : List Handler} {ys : List HandlerIr} {p : Placed}

/-- A filed group does the work of its handlers. -/
theorem workFor_filed {k : Nat × Nat}
    (hlook : c.handlerLookup sid k.1 k.2 = groupFrom none ys) (hne : ys ≠ [])
    (hfiled : List.Forall₂ (ResolvedHandler input.stateNames (nameMap ir) ir.symbols) hs ys)
    (hactions : ys.Pairwise fun a _ => a.kind.actionId.isSome) :
    c.workFor (sid, k) = ys.map fun y => c.kindWork y.kind := by
  unfold Chart.workFor
  rw [hlook, groupFrom_none hne, Option.map_some, Option.getD_some]
  refine groupWork_eq hactions fun y hy name slot hk => ?_
  obtain ⟨x, -, hr⟩ := hfiled.exists_of_mem_right hy
  have hkind := hr.kind
  rw [hk] at hkind
  cases hkind with
  | transition => rfl

/-- Only its last handler may lead to a state. -/
theorem targets_filed
    (hfiled : List.Forall₂ (ResolvedHandler input.stateNames (nameMap ir) ir.symbols) hs ys)
    (hactions : ys.Pairwise fun a _ => a.kind.actionId.isSome) :
    hs.Pairwise fun x _ => x.target ∉ input.stateNames :=
  hfiled.pairwise_left hactions fun x y _ _ hr _ hsome => by
    have hkind := hr.kind
    cases hk : y.kind with
    | transition target slot => rw [hk] at hsome; cases hsome
    | action aid i =>
        rw [hk] at hkind
        cases hkind with
        | action hmem _ => exact hmem

/-- An event goes by the id that its handlers are filed with. -/
theorem Accepted.eventToId_filed (ha : Accepted input c ir)
    (hfiled : List.Forall₂ (ResolvedHandler input.stateNames (nameMap ir) ir.symbols) hs ys)
    {x : Handler} (hx : x ∈ hs) (hb : x.trigger.bare = t.bare) {ev : Ev}
    (hev : t.bare = .event (u.variant ev) none) : eventToId c u ev = (ir.triggerKey t).2 := by
  obtain ⟨y, -, hr⟩ := hfiled.exists_of_mem_left hx
  have hmem := variant_mem hr.trigger (hb.trans hev)
  rw [← triggerKey_bare, hev]
  unfold eventToId Chart.arm Ir.triggerKey
  rw [(generate_spec ha.generated).eventVariantArms, lookup_variant hmem, Nat.zero_add]
  rfl

/-- That no other trigger listed has the key says so of the handlers. -/
theorem alone_iff (hl : Lists its p) :
    (∀ t', listed t' its ≠ [] → ir.triggerKey t' = ir.triggerKey t → t'.bare = t.bare) ↔
      ∀ h ∈ p.decl.body.handlers,
        ir.triggerKey h.trigger.bare = ir.triggerKey t → h.trigger.bare = t.bare := by
  simp only [listed_ne_nil hl]
  constructor
  · intro h x hx hk
    have hb := h x.trigger.bare ⟨x, hx, (bare_bare x.trigger).symm⟩ hk
    rwa [bare_bare] at hb
  · rintro h t' ⟨x, hx, hb⟩ hk
    rw [← hb]
    exact h x hx (by rw [hb, triggerKey_bare, hk])

end

/-- For a trigger that a state of an accepted chart handles: of the names listed for it only the
    last may be a state; an event goes by the id in the trigger's key, and a step in which the
    state handles the trigger does the work filed with that key, in order; this is the work
    listed exactly when no other trigger of the state has the key and no action listed has the
    id of another. -/
theorem handlers_in_source_order (hp : parseStatechart name items = .ok input)
    (ha : Accepted input c ir) (hs : (bodies items)[sid]? = some its) (ht : listed t its ≠ []) :
    ((listed t its).Pairwise fun x _ => x ∉ input.stateNames) ∧
    (∀ ev, t.bare = .event (u.variant ev) none → eventToId c u ev = (ir.triggerKey t).2) ∧
    (∀ (m m' : ChartMachine c Ev Ctx qn) (elapsed : Nat) (next : Option Nat), Reachable c u m →
      step c u m elapsed = .ok (next, m') → ∃ w, m'.journal = m.journal ++ w ∧
        (w.findSome? TraceEvent.handling = some (sid, ir.triggerKey t) →
          w.filterMap c.workOf = c.workFor (sid, ir.triggerKey t))) ∧
    (c.workFor (sid, ir.triggerKey t) = (listed t its).map (input.workOf ir) ↔
      (∀ t', listed t' its ≠ [] → ir.triggerKey t' = ir.triggerKey t → t'.bare = t.bare) ∧
        ∀ x ∈ listed t its, x ∉ input.stateNames → ir.actionIndex x < 65536) := by
  obtain ⟨p, hplaced, hl⟩ := (parseStatechart_lists hp).exists_of_getElem? hs
  obtain ⟨ys, hlook, hfiled, hactions⟩ := ha.filed hplaced hl t
  have hsub := filter_bare_sublist ir t p.decl.body.handlers
  have hlist := listed_handlers hl t
  obtain ⟨x, hx, hb⟩ := (listed_ne_nil hl).mp ht
  have hxfiled := hsub.subset (List.mem_filter.mpr ⟨hx, decide_eq_true hb⟩)
  have hne : ys ≠ [] := by
    obtain ⟨y, hy, -⟩ := hfiled.exists_of_mem_left hxfiled
    exact List.ne_nil_of_mem hy
  refine ⟨?_, fun ev => ha.eventToId_filed hfiled hxfiled hb, ?_, ?_⟩
  · rw [hlist, List.pairwise_map]
    exact (targets_filed hfiled hactions).sublist hsub
  · intro m m' elapsed next hm hstep
    obtain ⟨w, hj, hw⟩ := step_workFor ha.sound (hm.valid ha.sound) hstep
    refine ⟨w, hj, fun hhandles => ?_⟩
    rw [hw, hhandles]
    rfl
  · have heach := hfiled.map_eq_map_iff (f := fun y => c.kindWork y.kind)
      (g := fun h => input.workOf ir h.target) fun _ _ hr => ha.kindWork_iff hr
    rw [workFor_filed hlook hne hfiled hactions, alone_iff hl, ← filter_bare_eq_iff, hlist,
      List.map_map, List.forall_mem_map]
    constructor
    · intro h
      have hall := hsub.eq_of_length (by
        simpa [hfiled.length_eq] using (congrArg List.length h).symm)
      rw [hall] at h ⊢
      exact ⟨rfl, heach.mp h⟩
    · rintro ⟨hall, hids⟩
      rw [hall] at hids ⊢
      exact heach.mpr hids

/-- The text of the lamp. -/
def lampItems : List Item := [
  .context "LampCtx", .events "LampEvent", .terminate "Stop", .default "Off",
  .state "Off" [.on (.event "Toggle" none) "On" []],
  .state "On" [
    .entry "count" [],
    .on (.event "Toggle" none) "Off" [],
    .on (.duration ["Duration", "::", "from_nanos", "(", "50", ")"] false) "Off" []]]

theorem lamp_parsed : parseStatechart "Lamp" lampItems = .ok lamp := by rfl

/-- `Outside` of the porter, which lists what a call does in two places. -/
def outsideItems : List Item := [
  .on (.event "Call" (some call)) "hear" ["answer"],
  .on (.event "Knock" none) "wait" [],
  .on (.event "Call" none) "Inside" []]

/-- The text of the porter. -/
def porterItems : List Item := [
  .context "PorterCtx", .events "PorterEvent", .default "Outside",
  .state "Outside" outsideItems, .state "Inside" [.entry "greet" []]]

theorem porter_parsed : parseStatechart "Porter" porterItems = .ok porter := by rfl

def calling : TriggerItem := .event "Call" none

theorem calling_alone (t : TriggerItem) (hne : listed t outsideItems ≠ [])
    (hk : porterIr.triggerKey t = porterIr.triggerKey calling) : t.bare = calling.bare := by
  cases t with
  | duration expr repeats => cases hk
  | event variant payload =>
      by_cases hcall : variant = "Call"
      · rw [hcall]
        rfl
      by_cases hknock : variant = "Knock"
      · have hknocking :
            porterIr.triggerKey (.event "Knock" none) ≠ porterIr.triggerKey calling := by
          decide +kernel
        rw [hknock] at hk
        exact absurd hk hknocking
      · exact absurd (by simp [listed, outsideItems, TriggerItem.bare, Ne.symm hcall,
          Ne.symm hknock]) hne

/-- The call is heard, then answered, and only then is the caller let in; and so it goes in the
    step that handles it. -/
theorem handlers_in_source_order_porter :
    porterChart.workFor (1, porterIr.triggerKey calling) =
      [.call (some "hear"), .call (some "answer"), .go (some 2)] ∧
    ∃ w, porterCalled.journal = porterReady.journal ++ w ∧
      w.filterMap porterChart.workOf =
        [.call (some "hear"), .call (some "answer"), .go (some 2)] := by
  obtain ⟨-, -, hsteps, hall⟩ := @handlers_in_source_order (Ident × Nat) (List (Ident × List Nat))
    Nat 4 "Porter" porter porterItems outsideItems porterChart porterIr porterCode 1 calling
    porter_parsed porter_accepted rfl (by decide)
  have hwork : porterChart.workFor (1, porterIr.triggerKey calling) =
      [.call (some "hear"), .call (some "answer"), .go (some 2)] := by
    rw [hall.mpr ⟨calling_alone, by decide +kernel⟩]
    decide +kernel
  refine ⟨hwork, ?_⟩
  obtain ⟨w, hj, hw⟩ := hsteps porterReady porterCalled 0 _ porterReady_reachable
    (Except.eq_ok_get _ porterReady_isOk)
  have hdrop : w = porterCalled.journal.drop porterReady.journal.length := by
    rw [hj, List.drop_left]
  refine ⟨w, hj, ?_⟩
  rw [hw (by rw [hdrop]; decide +kernel), hwork]

/-- Two timers that count to one second, each spelled in its own way. -/
def ovenItems : List Item := [
  .context "OvenCtx", .default "Hot",
  .state "Hot" [
    .on (.duration ["parse", "(", "\"1 s\"", ")"] false) "tick" [],
    .on (.duration ["parse", "(", "\"1s\"", ")"] false) "tock" []]]

theorem oven_parses : (parseStatechart "Oven" ovenItems).isOk = true := by decide +kernel

def oven : StatechartInput := Except.get _ oven_parses

theorem ovenIr_isOk : (buildIr oven >>= resolveTransitions).isOk = true := by decide +kernel

def ovenIr : Ir := Except.get _ ovenIr_isOk

theorem oven_isOk : (statechartImpl oven).isOk = true := by decide +kernel

def ovenChart : Chart := Except.get _ oven_isOk

/-- The first of the two, as written. -/
def spaced : TriggerItem := .duration ["parse", "(", "\"1 s\"", ")"] false

theorem merged_order : parseStatechart "Oven" ovenItems = .ok oven ∧
    Accepted oven ovenChart ovenIr ∧
    ((bodies ovenItems)[1]?).map (listed spaced) = some ["tick"] ∧
    ovenChart.workFor (1, ovenIr.triggerKey spaced) =
      [.call (some "tick"), .call (some "tock")] := by
  refine ⟨Except.eq_ok_get _ oven_parses,
    .of_resolved (Except.eq_ok_get _ ovenIr_isOk) (Except.eq_ok_get _ oven_isOk), ?_, ?_⟩
  · decide +kernel
  · decide +kernel

end Hsmc
