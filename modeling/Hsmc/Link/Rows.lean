import Hsmc.Link.Walks
import Hsmc.Safety.Merges

/-
  The timers of each state, in the order in which the text uses them.

  Lowering collects the ids of a state's timers as it comes upon them (`Accepted.owns`). Where
  timers are told apart by their spelling, the id of a timer is its place among all timers of
  the chart (`Accepted.tid`), so the collected ids are the state's timers as written.
-/

namespace Hsmc

/-! ## Lowering -/

/-- The ids of a state's timers, each where it is first used. -/
def StateIr.Owns (s : StateIr) : Prop :=
  s.ownedTimers = (s.handlers.filterMap HandlerIr.timerId).eraseDups

theorem lowerHandlers_owned {names : List Ident} : ∀ {hs : List Handler} {syms syms' : Symbols}
    {owned owned' : List Nat} {hs' : List HandlerIr},
    lowerHandlers names syms owned hs = .ok (syms', owned', hs') →
    owned' = hs'.foldl (fun owned h => ownWith owned h.trigger) owned
  | [], _, _, _, _, _, h => by
      unfold lowerHandlers at h
      cases h
      rfl
  | x :: hs, _, _, owned, _, _, h => by
      obtain ⟨syms₁, owned₁, trig, syms₂, kind, rest, h₁, -, h₃, rfl⟩ := lowerHandlers_inv h
      rw [lowerTrigger_owned] at h₁
      cases hr : lowerTrigger _ [] x.trigger with
      | error e => rw [hr] at h₁; cases h₁
      | ok r =>
          rw [hr] at h₁
          cases h₁
          rw [lowerHandlers_owned h₃]
          rfl

theorem foldl_ownWith (hs : List HandlerIr) :
    hs.foldl (fun owned h => ownWith owned h.trigger) [] =
      (hs.filterMap HandlerIr.timerId).eraseDups := by
  induction hs using List.reverseRecOn with
  | nil => rfl
  | append_singleton hs h ih =>
      rw [List.foldl_append, ih, List.filterMap_append]
      cases ht : h.trigger with
      | event id name payload =>
          have hid : h.timerId = none := by simp [HandlerIr.timerId, ht]
          simp [ownWith, ht, hid]
      | duration id =>
          have hid : h.timerId = some id := by simp [HandlerIr.timerId, ht]
          rw [List.filterMap_cons_some hid, List.filterMap_nil, eraseDups_concat]
          simp [ownWith, ht]

mutual

theorem lowerBody_owns (names : List Ident) : ∀ (d : StateDecl) {syms syms' : Symbols}
    {states states' : List StateIr} {sid : Nat}, (∀ s ∈ states, s.Owns) →
    lowerBody names syms states sid d = .ok (syms', states') → ∀ s ∈ states', s.Owns
  | .mk _ body children, syms, syms', states, states', sid, hs, h => by
      obtain ⟨syms₁, entries, syms₂, exits, syms₃, owned, handlers, states₄, ids, -, -, h₃, h₄,
        rfl⟩ := lowerBody_inv h
      have howned : owned = (handlers.filterMap HandlerIr.timerId).eraseDups := by
        rw [← foldl_ownWith]
        exact lowerHandlers_owned h₃
      have hfilled := List.forall_mem_modify (i := sid) (f := fun s : StateIr =>
        { s with entries, exits, ownedTimers := owned, handlers, durings := body.durings })
        hs fun _ _ _ => howned
      exact List.forall_mem_modify (lowerChildren_owns names children hfilled h₄) fun _ _ hx => hx

theorem lowerChildren_owns (names : List Ident) : ∀ (cs : List StateDecl) {syms syms' : Symbols}
    {states states' : List StateIr} {sid depth : Nat} {ids : List Nat}, (∀ s ∈ states, s.Owns) →
    lowerChildren names syms states sid depth cs = .ok (syms', states', ids) →
    ∀ s ∈ states', s.Owns
  | [], _, _, _, _, _, _, _, hs, h => by
      unfold lowerChildren at h
      cases h
      exact hs
  | c :: cs, _, _, states, _, sid, depth, _, hs, h => by
      obtain ⟨syms₁, states₁, rest, h₁, h₂, rfl⟩ := lowerChildren_inv h
      have hnew : ∀ s ∈ (allocState states c.name (some sid) ((depth + 1) % 256)).1, s.Owns :=
        List.forall_mem_append.mpr ⟨hs, List.forall_mem_singleton.mpr rfl⟩
      exact lowerChildren_owns names cs (lowerBody_owns names c hnew h₁) h₂

end

theorem Resolved.owns {map : List (Ident × Nat)} {s s' : StateIr} (h : Resolved map s s')
    (hs : s.Owns) : s'.Owns := by
  have htriggers : s'.handlers.filterMap HandlerIr.timerId =
      s.handlers.filterMap HandlerIr.timerId := by
    refine (h.handlers.filterMap_eq fun x y hxy => ?_).symm
    obtain ⟨kind, -, hy⟩ := Except.bind_eq_ok.mp hxy
    cases hy
    rfl
  unfold StateIr.Owns
  rw [h.owned, htriggers]
  exact hs

theorem Accepted.owns {input : StatechartInput} {c : Chart} {ir : Ir} (ha : Accepted input c ir) :
    ∀ s ∈ ir.states, s.Owns := by
  obtain ⟨ir₀, hb, hr⟩ := Except.bind_eq_ok.mp ha.resolved
  obtain ⟨syms, hbody, -, -⟩ := buildIr_inv hb
  have hroot : ∀ s ∈ (allocState [] "__Root" none 0).1, s.Owns :=
    List.forall_mem_singleton.mpr rfl
  intro s hs
  obtain ⟨s₀, hs₀, hres⟩ := (resolveTransitions_spec hr).2.exists_of_mem_right hs
  exact hres.owns (lowerBody_owns _ _ hroot hbody s₀ hs₀)

/-! ## Ids by spelling -/

theorem uses_filterMap {β : Type} {f : Use → Option β} (hf : ∀ i, f (.action i) = none)
    (body : StateBody) :
    body.uses.filterMap f = body.handlers.filterMap fun h => f (.handler h) := by
  have hactions : ∀ is : List Ident, (is.map Use.action).filterMap f = [] := by
    intro is
    rw [List.filterMap_map]
    exact List.filterMap_eq_nil_iff.mpr fun i _ => hf i
  unfold StateBody.uses
  rw [List.filterMap_append, List.filterMap_append, hactions, hactions, List.nil_append,
    List.nil_append, List.filterMap_map]
  rfl

theorem allTimers_eq (input : StatechartInput) :
    input.allTimers = (input.root.uses.filterMap Use.timer).eraseDups := by
  unfold StatechartInput.allTimers
  rw [states_eq, uses_place input.root none 0, List.filterMap_flatMap, List.flatMap_map]
  refine congrArg List.eraseDups (List.flatMap_congr fun p _ => ?_)
  have h := uses_filterMap (f := Use.timer) (fun _ => rfl) p.decl.body
  exact h.symm

theorem mem_allTimers {input : StatechartInput} {t : Timer} :
    t ∈ input.allTimers ↔ t ∈ input.root.uses.filterMap Use.timer := by
  rw [allTimers_eq, List.mem_eraseDups]

section

variable {name : Ident} {items : List Item} {input : StatechartInput} {c : Chart} {ir : Ir}

theorem mem_allTimers_of_decl {p : Placed} (hp : p ∈ input.layout) {t : Timer}
    (ht : t ∈ p.decl.timers) : t ∈ input.allTimers := by
  have hmem : p.decl ∈ input.states := by
    rw [states_eq]
    exact List.mem_map_of_mem hp
  unfold StateDecl.timers at ht
  rw [List.mem_eraseDups] at ht
  unfold StatechartInput.allTimers
  rw [List.mem_eraseDups]
  exact List.mem_flatMap.mpr ⟨_, hmem, ht⟩

/-- Where timers are told apart by their spelling, the rows of the symbol table are the timers
    of the chart. -/
theorem timersOf_eq (hp : parseStatechart name items = .ok input) (hapart : Apart input.allTimers) :
    timersOf input.root.uses = input.allTimers.map writtenKey := by
  rw [timersOf_written (parsed_keyed hp), allTimers_eq]
  refine eraseDups_map fun t ht t' ht' => ?_
  rw [← mem_allTimers] at ht ht'
  exact writtenKey_inj_iff.mpr hapart.spelled t ht t' ht'

theorem Apart.length_le (hapart : Apart input.allTimers) : input.allTimers.length ≤ 65536 := by
  have hnd : input.allTimers.Nodup := nodup_eraseDups _
  rw [← List.toFinset_card_of_nodup hnd]
  exact hapart.few

theorem Accepted.rows (ha : Accepted input c ir) :
    timerRows ir.symbols.durationTriggers = keyed (timersOf input.root.uses) := by
  obtain ⟨ir₀, hb, hr⟩ := Except.bind_eq_ok.mp ha.resolved
  rw [(resolveTransitions_spec hr).1]
  exact buildIr_timers hb

theorem Accepted.durations_length (ha : Accepted input c ir)
    (hp : parseStatechart name items = .ok input) (hapart : Apart input.allTimers) :
    ir.symbols.durationTriggers.length = input.allTimers.length := by
  have h := congrArg List.length ha.rows
  rw [timersOf_eq hp hapart] at h
  simpa [timerRows, keyed] using h

theorem timerId_written (hp : parseStatechart name items = .ok input)
    (hapart : Apart input.allTimers) {t : Timer} (ht : t ∈ input.allTimers) :
    timerId (timersOf input.root.uses) (writtenKey t) = input.allTimers.idxOf t := by
  have hlt := List.idxOf_lt_length_of_mem ht
  have hnd : (input.allTimers.map writtenKey).Nodup := by
    rw [← timersOf_eq hp hapart]
    exact nodup_eraseDups _
  have hidx : (input.allTimers.map writtenKey).idxOf (writtenKey t) = input.allTimers.idxOf t := by
    have h := hnd.idxOf_getElem (input.allTimers.idxOf t) (by rwa [List.length_map])
    rwa [List.getElem_map, List.getElem_idxOf] at h
  unfold timerId
  rw [timersOf_eq hp hapart, hidx, asU16_of_lt (hlt.trans_le hapart.length_le)]

/-- A timer as written, and its id in a handler. -/
theorem Accepted.handler_timerId (ha : Accepted input c ir)
    (hp : parseStatechart name items = .ok input) (hapart : Apart input.allTimers) {p : Placed}
    (hpl : p ∈ input.layout) {h : Handler} (hh : h ∈ p.decl.body.handlers) {y : TriggerIr}
    (hat : ir.symbols.TriggerAt h.trigger y) {t : Timer} (ht : h.trigger.timer = some t) :
    y = .duration (input.allTimers.idxOf t) := by
  have hkey := parsed_keyed hp _ (mem_handler_uses.mpr ⟨p, hpl, hh⟩)
  have hmem : t ∈ input.allTimers :=
    mem_allTimers.mpr (List.mem_filterMap.mpr ⟨_, mem_handler_uses.mpr ⟨p, hpl, hh⟩, ht⟩)
  obtain ⟨variant, payload, id, htrig, -, -⟩ | ⟨expr, key, repeats, id, htrig, rfl, hdur⟩ := hat.inv
  · rw [htrig] at ht
    cases ht
  · have hid := Symbols.DurationAt.eq_timerId ha.laid.ok ha.rows hdur
    have hk : (key, repeats) = writtenKey t := by
      have hkey' : (Use.handler h).timerKey = some (key, repeats) := by
        show h.trigger.timerKey = some (key, repeats)
        rw [htrig]
        rfl
      have htimer : (Use.handler h).timer = some t := ht
      rw [hkey', htimer, Option.map_some, Option.some.injEq] at hkey
      exact hkey
    rw [hid, hk, timerId_written hp hapart hmem]

/-- The timers of a state, by their ids. -/
theorem Accepted.ownedTimers_eq (ha : Accepted input c ir)
    (hp : parseStatechart name items = .ok input) (hapart : Apart input.allTimers) {s : Nat}
    (hs : s < c.nStates) :
    c.ownedTimers s = (input.declAt s).timers.map input.allTimers.idxOf := by
  obtain ⟨p, x, hpl, hx, hdecl, hr⟩ := ha.placed hs
  have hmem := List.mem_of_getElem? hpl
  have hids : x.handlers.filterMap HandlerIr.timerId =
      (p.decl.body.handlers.filterMap (·.trigger.timer)).map input.allTimers.idxOf := by
    rw [List.map_filterMap]
    have hboth := (List.forall₂_and_left p.decl.body.handlers x.handlers).mpr
      ⟨fun h hh => hh, hr.handlers⟩
    refine (hboth.filterMap_eq fun h y hhy => ?_).symm
    obtain ⟨hh, hy⟩ := hhy
    cases ht : h.trigger.timer with
    | some t =>
        have hty := ha.handler_timerId hp hapart hmem hh hy.trigger ht
        simp [HandlerIr.timerId, hty]
    | none =>
        obtain ⟨variant, payload, id, -, hty, -⟩ | ⟨expr, key, repeats, id, htrig, -, -⟩ :=
          hy.trigger.inv
        · simp [HandlerIr.timerId, hty]
        · rw [htrig] at ht
          cases ht
  rw [(generate_spec ha.generated).ownedTimers_eq ha.laid.tree, hx, Option.map_some,
    Option.getD_some, ha.owns x (List.mem_of_getElem? hx), hids, hdecl]
  refine eraseDups_map fun t ht t' _ hidx => ?_
  have hall : t ∈ input.allTimers := mem_allTimers_of_decl hmem (List.mem_eraseDups.mpr ht)
  exact (List.idxOf_inj hall).mp hidx

end

/-! ## Event variants -/

def Use.awaited : Use → Option Ident
  | .action _ => none
  | .handler h => h.trigger.awaited

theorem internEvent_names {events events' : List EventVariantIr} {i : Ident}
    {payload : Option EventPayload} {id : Nat}
    (h : internEvent events i payload = .ok (events', id)) :
    events'.map (·.name) =
      if i ∈ events.map (·.name) then events.map (·.name) else events.map (·.name) ++ [i] := by
  unfold internEvent at h
  simp only at h
  split at h
  · rename_i p hp
    obtain ⟨e, he, hname⟩ := position_eq_some hp
    have hname : e.name = i := by simpa using hname
    have hmem : i ∈ events.map (·.name) :=
      List.mem_map.mpr ⟨e, List.mem_of_getElem? he, hname⟩
    simp only [he] at h
    obtain ⟨e', hmerge, h⟩ := Except.bind_eq_ok.mp h
    cases h
    rw [if_pos hmem]
    exact map_set_of_eq (f := fun e : EventVariantIr => e.name) he (mergeVariant_refines hmerge).1.1
  · rename_i hp
    cases h
    rw [if_neg (not_mem_of_position hp), List.map_append]
    rfl

theorem classifyTarget_variants {names : List Ident} {syms syms' : Symbols} {target : Ident}
    {trig : TriggerIr} {kind : HandlerKindIr}
    (h : classifyTarget syms target trig names = .ok (syms', kind)) :
    syms'.eventVariants = syms.eventVariants := by
  unfold classifyTarget at h
  split at h
  · split at h
    · cases h
    · split at h <;> cases h
      rfl
  · obtain ⟨⟨actions, aid⟩, -, h⟩ := Except.bind_eq_ok.mp h
    cases h
    rfl

/-- The variants are numbered in the order of their first uses. -/
theorem uses_variants {names : List Ident} {us : List Use} {syms : Symbols}
    (h : us.foldlM (applyUse names) {} = .ok syms) :
    syms.eventVariants.map (·.name) = (us.filterMap Use.awaited).eraseDups := by
  refine Except.foldlM_run (P := fun done syms =>
    syms.eventVariants.map (·.name) = (done.filterMap Use.awaited).eraseDups) ?_ rfl h
  intro done u syms syms' hnames hu
  rw [List.filterMap_append]
  cases u with
  | action i =>
      obtain ⟨⟨actions, aid⟩, -, hu⟩ := Except.bind_eq_ok.mp hu
      cases hu
      rw [List.filterMap_cons_none rfl, List.filterMap_nil, List.append_nil]
      exact hnames
  | handler x =>
      obtain ⟨⟨syms₁, owned, trig⟩, h₁, hu⟩ := Except.bind_eq_ok.mp hu
      obtain ⟨⟨syms₂, kind⟩, h₂, hu⟩ := Except.bind_eq_ok.mp hu
      cases hu
      rw [classifyTarget_variants h₂]
      cases ht : x.trigger with
      | duration expr key repeats =>
          rw [ht] at h₁
          cases h₁
          have hnone : (Use.handler x).awaited = none := by simp [Use.awaited, Trigger.awaited, ht]
          rw [List.filterMap_cons_none hnone, List.filterMap_nil, List.append_nil]
          exact hnames
      | event v payload =>
          rw [ht] at h₁
          obtain ⟨⟨events, id⟩, hi, h₁⟩ := Except.bind_eq_ok.mp h₁
          cases h₁
          have hsome : (Use.handler x).awaited = some v := by
            simp [Use.awaited, Trigger.awaited, ht]
          rw [List.filterMap_cons_some hsome, List.filterMap_nil, eraseDups_concat,
            internEvent_names hi, hnames]
          simp only [List.mem_eraseDups]

theorem Accepted.variants {input : StatechartInput} {c : Chart} {ir : Ir}
    (ha : Accepted input c ir) :
    ir.symbols.eventVariants.map (·.name) = input.variants.eraseDups := by
  obtain ⟨ir₀, hb, hr⟩ := Except.bind_eq_ok.mp ha.resolved
  obtain ⟨syms, hs, hterm⟩ := buildIr_uses hb
  have hused : input.root.uses.filterMap Use.awaited =
      input.states.flatMap fun d => d.body.handlers.filterMap (·.trigger.awaited) := by
    rw [states_eq, uses_place input.root none 0, List.filterMap_flatMap, List.flatMap_map]
    refine List.flatMap_congr fun p _ => ?_
    have h := uses_filterMap (f := Use.awaited) (fun _ => rfl) p.decl.body
    exact h
  rw [(resolveTransitions_spec hr).1]
  unfold StatechartInput.variants
  rw [← hused]
  cases ht : input.body.terminate with
  | none =>
      rw [ht] at hterm
      rw [← Except.ok.inj hterm, uses_variants hs, Option.toList_none, List.append_nil]
  | some v =>
      rw [ht] at hterm
      obtain ⟨⟨events, id⟩, hi, hterm⟩ := Except.bind_eq_ok.mp hterm
      rw [← Except.ok.inj hterm, Option.toList_some, eraseDups_concat, internEvent_names hi,
        uses_variants hs]
      simp only [List.mem_eraseDups]

end Hsmc
