import Hsmc.Link.Glossary
import Hsmc.Link.Rows

/-
  The glossary of an accepted chart.

  What `generate` emits is read table by table: the names of the trace, the actions, the groups
  of handlers. The conditions under which nothing is lost on the way are those of
  `StatechartInput.Regular`; with them `Accepted.glossary` holds every table against the
  declarations.
-/

namespace Hsmc

/-- The chart keeps within what names and ids can tell apart, and within the timer table. -/
structure StatechartInput.Regular (input : StatechartInput) (ir : Ir) : Prop where
  names : input.stateNames.Nodup
  timers : Apart input.allTimers
  actions : ir.symbols.actions.length ≤ 65536
  durings : ∀ d ∈ input.states, d.body.durings.length < 65536
  room : ∀ walk ∈ input.walks,
    (walk.flatMap StateDecl.timers).length ≤ max input.allTimers.length 1

/-! ## Arms under two keys -/

theorem lookup_pair {β : Type} (id i j : Nat) : ∀ l : List (Nat × β),
    (l.map fun r => ((id, r.1), r.2)).lookup (i, j) = if i = id then l.lookup j else none
  | [] => by simp
  | (k, b) :: l => by
      rw [List.map_cons, List.lookup_cons, List.lookup_cons, lookup_pair id i j l]
      by_cases hi : i = id
      · subst hi
        by_cases hj : j = k
        · simp [hj]
        · have hb : ((i, j) == (i, k)) = false := by simpa using hj
          have hb' : (j == k) = false := by simpa using hj
          simp [hb, hb']
      · have hb : ((i, j) == (id, k)) = false := by
          rw [beq_eq_false_iff_ne]
          exact fun h => hi (Prod.mk.inj h).1
        simp [hb, hi]

theorem lookup_pairs {β : Type} (f : StateIr → List (Nat × β)) : ∀ (l : List StateIr) (k i j : Nat),
    (∀ n s, l[n]? = some s → s.id = k + n) →
    (l.flatMap fun s => (f s).map fun r => ((s.id, r.1), r.2)).lookup (i, j) =
      if i < k then none else (l[i - k]?).bind fun s => (f s).lookup j
  | [], _, _, _, _ => by simp
  | s :: l, k, i, j, hid => by
      have hs := hid 0 s rfl
      rw [Nat.add_zero] at hs
      have hrest := lookup_pairs f l (k + 1) i j fun n s h => by
        rw [hid (n + 1) s h]
        omega
      rw [List.flatMap_cons, List.lookup_append, lookup_pair, hrest, hs]
      rcases Nat.lt_trichotomy i k with hi | rfl | hi
      · simp [show i < k + 1 by omega, Nat.ne_of_lt hi, hi]
      · simp
      · obtain ⟨n, rfl⟩ : ∃ n, i = k + 1 + n := ⟨i - (k + 1), by omega⟩
        have hsub : k + 1 + n - k = n + 1 := by omega
        rw [if_neg (Nat.ne_of_gt hi), if_neg (Nat.not_lt.mpr (Nat.le_add_right _ _)),
          if_neg (Nat.not_lt_of_gt hi), hsub, Nat.add_sub_cancel_left, List.getElem?_cons_succ,
          Option.none_or]

/-- In a numbered list of states, the arms of a state are found at its index. -/
theorem TreeOk.lookup_pairs {states : List StateIr} (ht : TreeOk states) {β : Type}
    (f : StateIr → List (Nat × β)) (i j : Nat) :
    (states.flatMap fun s => (f s).map fun r => ((s.id, r.1), r.2)).lookup (i, j) =
      (states[i]?).bind fun s => (f s).lookup j := by
  rw [Hsmc.lookup_pairs f states 0 i j fun n s h => by rw [ht.id_eq n s h, Nat.zero_add]]
  simp

theorem lookup_map_self {β : Type} {f : Nat → β} {k : Nat} : ∀ {l : List Nat}, k ∈ l →
    (l.map fun k => (k, f k)).lookup k = some (f k)
  | k' :: l, h => by
      rw [List.map_cons, List.lookup_cons]
      by_cases hk : k = k'
      · simp [hk]
      · have hb : (k == k') = false := by simpa using hk
        rw [hb]
        exact lookup_map_self ((List.mem_cons.mp h).resolve_left hk)

theorem generate_duringsArms {ir : Ir} {c : Chart} (h : generate ir = .ok c) :
    c.duringsCountArms = (ir.states.map fun s => (s.id, asU16 s.durings.length)) ∧
      c.terminateEvent = ir.terminateEvent := by
  unfold generate at h
  obtain ⟨⟨pathData, pathRange⟩, -, h⟩ := Except.bind_eq_ok.mp h
  obtain ⟨⟨terminateData, terminateRange⟩, -, h⟩ := Except.bind_eq_ok.mp h
  obtain ⟨terminateRange', -, h⟩ := Except.bind_eq_ok.mp h
  obtain ⟨dispatch, -, h⟩ := Except.bind_eq_ok.mp h
  cases h
  exact ⟨rfl, rfl⟩

section

variable {Ev Ctx Val : Type} {name : Ident} {items : List Item} {input : StatechartInput}
  {c : Chart} {ir : Ir} {u : UserCode Ev Ctx Val} {s : Nat}

/-! ## Names -/

/-- The root prints as the chart, any other state as itself. -/
theorem Accepted.printed_eq (ha : Accepted input c ir) (hs : s < c.nStates) {x : StateIr}
    (hx : ir.states[s]? = some x) : x.printed ir.name = (input.declAt s).name := by
  obtain ⟨p, x', hp, hx', hdecl, hr⟩ := ha.placed hs
  rw [hx] at hx'
  cases hx'
  unfold StateIr.printed
  rw [hr.parent, hr.name, hdecl]
  cases hpar : p.parent with
  | some q => rfl
  | none =>
      have hroot : p = ⟨none, input.root⟩ := by
        have hmem := List.mem_of_getElem? hp
        rw [input.layout_eq] at hmem
        rcases List.mem_cons.mp hmem with h | h
        · exact h
        · have := parent_isSome_placeAll input.children 0 1 p h
          rw [hpar] at this
          cases this
      rw [hroot, ha.laid.name]
      rfl

theorem Accepted.stateName_eq (ha : Accepted input c ir) (hs : s < c.nStates) :
    (traceNames ir).stateName s = (input.declAt s).name := by
  obtain ⟨p, x, -, hx, -, -⟩ := ha.placed hs
  show ((ir.states.map fun s => (s.id, s.printed ir.name)).lookup s).getD "<unknown>" = _
  rw [ha.laid.tree.lookup_arms, hx, Option.map_some, Option.getD_some, ha.printed_eq hs hx]

theorem Accepted.timerReason_eq (ha : Accepted input c ir) (hs : s < c.nStates) {tid : Nat}
    (ht : tid ∈ c.ownedTimers s) : (traceNames ir).timerReason s tid =
      "timer:" ++ (input.declAt s).name ++ "/" ++ timerLabel tid := by
  obtain ⟨p, x, -, hx, -, -⟩ := ha.placed hs
  rw [(generate_spec ha.generated).ownedTimers_eq ha.laid.tree, hx, Option.map_some,
    Option.getD_some] at ht
  have harms : (traceNames ir).timerReasonArms = ir.states.flatMap fun s =>
      (s.ownedTimers.map fun tid =>
        (tid, "timer:" ++ s.printed ir.name ++ "/" ++ timerLabel tid)).map
          fun r => ((s.id, r.1), r.2) :=
    List.flatMap_congr fun _ _ => by rw [List.map_map]; rfl
  unfold TraceNames.timerReason Chart.arm
  rw [harms, ha.laid.tree.lookup_pairs, hx, Option.bind_some]
  rw [lookup_map_self ht, Option.getD_some, ha.printed_eq hs hx]

/-- The durings of a state, in order. -/
theorem Accepted.durings_eq (ha : Accepted input c ir) (hreg : input.Regular ir)
    (hs : s < c.nStates) :
    (List.range (c.duringsCount s)).map ((traceNames ir).duringName s) =
      (input.declAt s).body.durings.map (·.fnName) := by
  obtain ⟨p, x, hp, hx, hdecl, hr⟩ := ha.placed hs
  have hlen : x.durings.length < 65536 := by
    rw [hr.durings]
    refine hreg.durings _ ?_
    rw [states_eq]
    exact List.mem_map_of_mem (List.mem_of_getElem? hp)
  have hcount : c.duringsCount s = x.durings.length := by
    unfold Chart.duringsCount Chart.arm
    rw [(generate_duringsArms ha.generated).1, ha.laid.tree.lookup_arms, hx, Option.map_some,
      Option.getD_some, asU16_of_lt hlen]
  have harms : (traceNames ir).duringNameArms = ir.states.flatMap fun s =>
      (indexArms (·.fnName) s.durings).map fun r => ((s.id, r.1), r.2) :=
    List.flatMap_congr fun _ _ => by unfold indexArms; rw [List.map_map]; rfl
  rw [hcount, hdecl, ← hr.durings]
  refine List.ext_getElem (by simp) fun i hi hi' => ?_
  rw [List.length_map] at hi'
  rw [List.getElem_map, List.getElem_map, List.getElem_range]
  unfold TraceNames.duringName Chart.arm
  rw [harms, ha.laid.tree.lookup_pairs, hx, Option.bind_some,
    lookup_indexArms _ _ (hi'.trans hlen), List.getElem?_eq_getElem hi']
  rfl

/-! ## Actions -/

theorem Accepted.actionName_eq (hn : ir.symbols.actions.length ≤ 65536) {i : Ident}
    {use : Option (Ident × EventPayload)} {aid : Nat} (h : ir.symbols.ActionAt i use aid) :
    (traceNames ir).actionName aid = i := by
  obtain ⟨p, a, hp, hname, rfl, -⟩ := h
  have hlt : p < 65536 := (List.getElem?_eq_some_iff.mp hp).1.trans_le hn
  show ((indexArms (·.name) ir.symbols.actions).lookup (asU16 p)).getD "<unknown>" = i
  rw [asU16_of_lt hlt, lookup_indexArms _ _ hlt, hp]
  exact hname

theorem runsAs_of_lookup {aid : Nat} {a : ActionIr} (h : c.actionArms.lookup aid = some a)
    (hparams : a.params = []) (event : Option Ev) : RunsAs c u aid event a.name [] := by
  intro qn tn m
  unfold runAction
  simp [h, hparams]

theorem Accepted.namesAction (ha : Accepted input c ir) (hn : ir.symbols.actions.length ≤ 65536)
    {i : Ident} {aid : Nat} (h : ir.symbols.ActionAt i none aid) :
    NamesAction c (traceNames ir) u i aid := by
  obtain ⟨a, hlook, rfl, hplain, -⟩ := ha.lookup_action hn h
  exact ⟨Accepted.actionName_eq hn h, runsAs_of_lookup hlook (hplain rfl)⟩

/-- The action of a handler gets the arguments that the handler binds. -/
theorem Accepted.runsAs_handler (ha : Accepted input c ir)
    (hn : ir.symbols.actions.length ≤ 65536) {h : Handler} {aid : Nat} {event : Option Ev}
    (hat : ir.symbols.ActionAt h.target h.trigger.use aid)
    (hev : ∀ v payload, h.trigger = .event v (some payload) →
      ∃ ev, event = some ev ∧ v = u.variant ev) :
    RunsAs c u aid event h.target (h.args u event) := by
  obtain ⟨a, hlook, hname, hplain, hbound⟩ := ha.lookup_action hn hat
  rw [← hname]
  unfold Handler.args
  split
  · rename_i v payload ev htrig
    obtain ⟨ev', hev', rfl⟩ := hev v payload htrig
    cases hev'
    obtain ⟨hparams, hmem, hact⟩ := hbound _ payload (by rw [htrig]; rfl)
    by_cases hempty : a.params = []
    · have hargs : payloadArgs u payload.fields payload.kind ev = [] := by
        rw [← hparams, hempty]
        unfold payloadArgs
        split <;> rfl
      rw [hargs]
      exact runsAs_of_lookup hlook hempty _
    · intro qn tn m
      obtain ⟨bv, hbv⟩ : ∃ bv, a.boundVariants.find? (fun bv => bv.name == u.variant ev) =
          some bv := Option.isSome_iff_exists.mp (by
        rw [List.find?_isSome]
        exact ⟨_, hmem, by simp⟩)
      have hkind := kind_of_bound ha.laid.ok hact (List.mem_of_find?_eq_some hbv) hmem
        (by simpa using List.find?_some hbv)
      unfold runAction
      simp only [hlook, hbv, hkind]
      rw [if_neg (by simpa using hempty), hparams]
  · rename_i hno
    refine runsAs_of_lookup hlook (hplain ?_) _
    cases htrig : h.trigger with
    | duration expr key repeats => rfl
    | event v payload =>
        cases payload with
        | none => rfl
        | some payload =>
            obtain ⟨ev, rfl, -⟩ := hev v payload htrig
            exact absurd rfl (hno v payload ev htrig)

/-! ## Groups of handlers -/

theorem Accepted.groupOf (ha : Accepted input c ir) (hn : ir.symbols.actions.length ≤ 65536)
    {event : Option Ev} {hs : List Handler} {ys : List HandlerIr}
    (hfiled : List.Forall₂ (ResolvedHandler input.stateNames (nameMap ir) ir.symbols) hs ys)
    (hactions : ys.Pairwise fun a _ => a.kind.actionId.isSome)
    (hev : ∀ h ∈ hs, ∀ v payload, h.trigger = .event v (some payload) →
      ∃ ev, event = some ev ∧ v = u.variant ev) :
    GroupOf input c (traceNames ir) u input.declAt event hs
      (ys.filterMap (·.kind.actionId), (ys.filterMap (·.kind.targetId)).getLast?) := by
  induction hfiled with
  | nil => exact .nil
  | @cons h y hs ys hr hrest ih =>
      obtain ⟨hlast, hactions⟩ := List.pairwise_cons.mp hactions
      obtain ⟨hevh, hev⟩ := List.forall_mem_cons.mp hev
      have hkind := hr.kind
      cases hk : y.kind with
      | action aid i =>
          rw [hk] at hkind
          cases hkind with
          | action hno hat =>
              have haid : y.kind.actionId = some aid := by rw [hk]; rfl
              have hnone : y.kind.targetId = none := by rw [hk]; rfl
              simp only [List.filterMap_cons, haid, hnone]
              exact .call hno (Accepted.actionName_eq hn hat) (ha.runsAs_handler hn hat hevh)
                (ih hactions hev)
      | transition i slot =>
          rw [hk] at hkind
          cases hkind with
          | @transition t hyes _ _ hlook =>
              -- only the last handler of a trigger may be a transition
              have hnil : ys = [] := List.eq_nil_iff_forall_not_mem.mpr fun b hb => by
                have := hlast b hb
                rw [hk] at this
                cases this
              subst hnil
              cases hrest
              obtain ⟨hlt, hname⟩ := ha.name_of_lookup hlook
              have hnone : y.kind.actionId = none := by rw [hk]; rfl
              have htid : y.kind.targetId = some t := by rw [hk]; rfl
              simp only [List.filterMap_cons, hnone, htid]
              exact .go hyes hlt hname

/-- A timer's trigger key is its id. -/
theorem Accepted.triggerKey_timer (ha : Accepted input c ir)
    (hp : parseStatechart name items = .ok input) (hapart : Apart input.allTimers) {p : Placed}
    (hpl : p ∈ input.layout) {h : Handler} (hh : h ∈ p.decl.body.handlers) {its : List Item}
    (hl : Lists its p) {x : StateIr}
    (hr : ResolvedState input.stateNames (nameMap ir) ir.symbols p x) {t : Timer}
    (ht : h.trigger.timer = some t) :
    ir.triggerKey h.trigger.bare = (1, input.allTimers.idxOf t) := by
  obtain ⟨y, -, hy⟩ := hr.handlers.exists_of_mem_left hh
  obtain ⟨t', ht'⟩ := hl.parsed h hh
  have hat := hy.trigger
  have hid := ha.handler_timerId hp hapart hpl hh hat ht
  rw [ht'] at hat
  rw [ht', bare_parsed, triggerKey_bare, ← triggerKindId_eq ha.laid.ok hat, hid]
  rfl

theorem bare_of_timer {tr : Trigger} {t : Timer} (h : tr.timer = some t) :
    tr.bare = .duration t.1 t.2 := by
  cases tr with
  | event v payload => cases h
  | duration expr key repeats =>
      cases h
      rfl

theorem triggerKey_of_timer_none {tr : Trigger} (h : tr.timer = none) :
    (ir.triggerKey tr.bare).1 = 0 := by
  cases tr with
  | event v payload => rfl
  | duration expr key repeats => cases h

theorem Accepted.onTimer (ha : Accepted input c ir) (hp : parseStatechart name items = .ok input)
    (hreg : input.Regular ir) (hs : s < c.nStates) {t : Timer}
    (ht : t ∈ (input.declAt s).timers) : ∃ g,
    c.handlerLookup s 1 (input.allTimers.idxOf t) = some g ∧
      GroupOf input c (traceNames ir) u input.declAt none ((input.declAt s).onTimer t) g := by
  obtain ⟨p, x, hpl, hx, hdecl, hr⟩ := ha.placed hs
  obtain ⟨its, -, hl⟩ := (parseStatechart_lists hp).exists_of_mem_right (List.mem_of_getElem? hpl)
  rw [hdecl] at ht ⊢
  have hmem := List.mem_of_getElem? hpl
  have hall := mem_allTimers_of_decl hmem ht
  obtain ⟨h, hh, hth⟩ : ∃ h ∈ p.decl.body.handlers, h.trigger.timer = some t := by
    rw [StateDecl.timers, List.mem_eraseDups, List.mem_filterMap] at ht
    exact ht
  have hkey := ha.triggerKey_timer hp hreg.timers hmem hh hl hr hth
  rw [bare_of_timer hth] at hkey
  obtain ⟨ys, hlook, hfiled, hactions⟩ := ha.filed hpl hl (.duration t.1 t.2)
  rw [hkey] at hlook hfiled
  have hfilter : (p.decl.body.handlers.filter fun h =>
      decide (ir.triggerKey h.trigger.bare = (1, input.allTimers.idxOf t))) =
      p.decl.onTimer t := by
    refine List.filter_congr fun y hy => ?_
    rw [Bool.eq_iff_iff, decide_eq_true_eq, beq_iff_eq]
    cases hty : y.trigger.timer with
    | none =>
        have h0 : (ir.triggerKey y.trigger.bare).1 = 0 := triggerKey_of_timer_none hty
        refine iff_of_false (fun hk => ?_) (by simp)
        rw [hk] at h0
        cases h0
    | some t' =>
        rw [ha.triggerKey_timer hp hreg.timers hmem hy hl hr hty, Prod.mk.injEq, eq_self_iff_true,
          true_and, Option.some.injEq]
        have hall' : t' ∈ input.allTimers := mem_allTimers_of_decl hmem (by
          rw [StateDecl.timers, List.mem_eraseDups, List.mem_filterMap]
          exact ⟨y, hy, hty⟩)
        exact List.idxOf_inj hall'
  rw [hfilter] at hfiled
  have hne : ys ≠ [] := by
    have hon : h ∈ p.decl.onTimer t := List.mem_filter.mpr ⟨hh, by rw [hth, beq_self_eq_true]⟩
    obtain ⟨y, hy, -⟩ := hfiled.exists_of_mem_left hon
    exact List.ne_nil_of_mem hy
  rw [groupFrom_none hne] at hlook
  refine ⟨_, hlook, ha.groupOf hreg.actions hfiled hactions fun y hy v payload htrig => ?_⟩
  have htimer := (List.mem_filter.mp hy).2
  rw [htrig] at htimer
  cases htimer

/-! ## Events -/

theorem Accepted.variants_lt (ha : Accepted input c ir) :
    (ir.symbols.eventVariants.map (·.name)).length < 65536 := by
  have h := ha.sound.nEvents_le
  rw [(generate_spec ha.generated).nEvents] at h
  rw [List.length_map]
  unfold u16Max at h
  omega

theorem Accepted.eventToId_mem (ha : Accepted input c ir) {ev : Ev}
    (hv : u.variant ev ∈ ir.symbols.eventVariants.map (·.name)) :
    eventToId c u ev = (ir.symbols.eventVariants.map (·.name)).idxOf (u.variant ev) := by
  have hlt := (List.idxOf_lt_length_of_mem hv).trans ha.variants_lt
  unfold eventToId Chart.arm
  rw [(generate_spec ha.generated).eventVariantArms, lookup_variant hv, Nat.zero_add,
    Option.getD_some, asU16_of_lt hlt]

theorem Accepted.eventToId_not_mem (ha : Accepted input c ir) {ev : Ev}
    (hv : u.variant ev ∉ ir.symbols.eventVariants.map (·.name)) : eventToId c u ev = u16Max := by
  have hnone : c.eventVariantArms.lookup (u.variant ev) = none := by
    rw [(generate_spec ha.generated).eventVariantArms, List.lookup_eq_none_iff]
    intro r hr
    obtain ⟨y, hy, rfl⟩ := List.mem_map.mp hr
    have hmem : y.1.name ∈ ir.symbols.eventVariants.map (·.name) :=
      List.mem_map_of_mem (List.fst_mem_of_mem_zipIdx hy)
    have hne : u.variant ev ≠ y.1.name := fun heq => hv (heq ▸ hmem)
    simpa using hne
  unfold eventToId Chart.arm
  rw [hnone]
  rfl

theorem Accepted.eventName_eq (ha : Accepted input c ir) (ev : Ev) :
    (traceNames ir).eventName (eventToId c u ev) = input.eventName (u.variant ev) := by
  have hmem : u.variant ev ∈ ir.symbols.eventVariants.map (·.name) ↔
      u.variant ev ∈ input.variants := by
    rw [ha.variants, List.mem_eraseDups]
  unfold StatechartInput.eventName
  show ((indexArms (·.name) ir.symbols.eventVariants).lookup _).getD "<unknown>" = _
  by_cases hv : u.variant ev ∈ ir.symbols.eventVariants.map (·.name)
  · have hlt := List.idxOf_lt_length_of_mem hv
    rw [if_pos (hmem.mp hv), ha.eventToId_mem hv,
      lookup_indexArms _ _ (hlt.trans ha.variants_lt), ← List.getElem?_map,
      List.getElem?_eq_getElem hlt, List.getElem_idxOf, Option.getD_some]
  · have hle := ha.variants_lt
    rw [List.length_map] at hle
    rw [if_neg (fun h => hv (hmem.mpr h)), ha.eventToId_not_mem hv,
      lookup_indexArms _ _ (by decide), List.getElem?_eq_none (by unfold u16Max; omega)]
    rfl

theorem bare_of_awaited {tr : Trigger} {v : Ident} (h : tr.awaited = some v) :
    tr.bare = .event v none := by
  cases tr with
  | event v' payload =>
      cases h
      rfl
  | duration expr key repeats => cases h

theorem triggerKey_of_awaited_none {tr : Trigger} (h : tr.awaited = none) :
    (ir.triggerKey tr.bare).1 = 1 := by
  cases tr with
  | event v payload => cases h
  | duration expr key repeats => rfl

/-- The handlers filed for an event that the chart knows. -/
theorem Accepted.event_filed (ha : Accepted input c ir)
    (hp : parseStatechart name items = .ok input) (hs : s < c.nStates) {ev : Ev}
    (hv : u.variant ev ∈ ir.symbols.eventVariants.map (·.name)) : ∃ ys,
    c.handlerLookup s 0 (eventToId c u ev) = groupFrom none ys ∧
      List.Forall₂ (ResolvedHandler input.stateNames (nameMap ir) ir.symbols)
        ((input.declAt s).onEvent (u.variant ev)) ys ∧
      ys.Pairwise fun a _ => a.kind.actionId.isSome := by
  obtain ⟨p, x, hpl, hx, hdecl, hr⟩ := ha.placed hs
  obtain ⟨its, -, hl⟩ := (parseStatechart_lists hp).exists_of_mem_right (List.mem_of_getElem? hpl)
  have hlt : ∀ {v : Ident}, v ∈ ir.symbols.eventVariants.map (·.name) →
      asU16 ((ir.symbols.eventVariants.map (·.name)).idxOf v) =
        (ir.symbols.eventVariants.map (·.name)).idxOf v := fun hmem =>
    asU16_of_lt ((List.idxOf_lt_length_of_mem hmem).trans ha.variants_lt)
  have hkey : ir.triggerKey (.event (u.variant ev) none) = (0, eventToId c u ev) := by
    rw [ha.eventToId_mem hv, ← hlt hv]
    rfl
  obtain ⟨ys, hlook, hfiled, hactions⟩ := ha.filed hpl hl (.event (u.variant ev) none)
  rw [hkey] at hlook hfiled
  have hfilter : (p.decl.body.handlers.filter fun h =>
      decide (ir.triggerKey h.trigger.bare = (0, eventToId c u ev))) =
      p.decl.onEvent (u.variant ev) := by
    refine List.filter_congr fun y hy => ?_
    rw [Bool.eq_iff_iff, decide_eq_true_eq, beq_iff_eq]
    cases hty : y.trigger.awaited with
    | none =>
        have h1 : (ir.triggerKey y.trigger.bare).1 = 1 := triggerKey_of_awaited_none hty
        refine iff_of_false (fun hk => ?_) (by simp)
        rw [hk] at h1
        cases h1
    | some v =>
        obtain ⟨y', -, hy'⟩ := hr.handlers.exists_of_mem_left hy
        have hmem := variant_mem hy'.trigger (bare_of_awaited hty)
        have hkey' : ir.triggerKey (.event v none) =
            (0, (ir.symbols.eventVariants.map (·.name)).idxOf v) := by
          rw [← hlt hmem]
          rfl
        rw [bare_of_awaited hty, hkey', ha.eventToId_mem hv, Prod.mk.injEq, eq_self_iff_true,
          true_and, Option.some.injEq]
        exact List.idxOf_inj hmem
  rw [hfilter, ← hdecl] at hfiled
  exact ⟨ys, hlook, hfiled, hactions⟩

theorem Accepted.onEvent_none (ha : Accepted input c ir)
    (hp : parseStatechart name items = .ok input) (hs : s < c.nStates) {ev : Ev}
    (hnil : (input.declAt s).onEvent (u.variant ev) = []) :
    c.handlerLookup s 0 (eventToId c u ev) = none := by
  by_cases hv : u.variant ev ∈ ir.symbols.eventVariants.map (·.name)
  · obtain ⟨ys, hlook, hfiled, -⟩ := ha.event_filed hp hs hv
    rw [hnil] at hfiled
    cases hfiled
    exact hlook
  · rw [ha.eventToId_not_mem hv]
    cases hlook : c.handlerLookup s 0 u16Max with
    | none => rfl
    | some g =>
        have h₁ := ha.sound.handler_event_lt hlook
        have h₂ := ha.sound.nEvents_le
        omega

theorem Accepted.onEvent_some (ha : Accepted input c ir)
    (hp : parseStatechart name items = .ok input) (hreg : input.Regular ir) (hs : s < c.nStates)
    {ev : Ev} (hne : (input.declAt s).onEvent (u.variant ev) ≠ []) : ∃ g,
    c.handlerLookup s 0 (eventToId c u ev) = some g ∧
      GroupOf input c (traceNames ir) u input.declAt (some ev)
        ((input.declAt s).onEvent (u.variant ev)) g ∧
      (traceNames ir).eventReason (eventToId c u ev) = s!"event:{u.variant ev}" := by
  obtain ⟨h, hh⟩ := List.exists_mem_of_ne_nil _ hne
  have hv : u.variant ev ∈ ir.symbols.eventVariants.map (·.name) := by
    obtain ⟨p, x, -, -, hdecl, hr⟩ := ha.placed hs
    rw [hdecl] at hh
    obtain ⟨hmem, hawaits⟩ := List.mem_filter.mp hh
    obtain ⟨y, -, hy⟩ := hr.handlers.exists_of_mem_left hmem
    exact variant_mem hy.trigger (bare_of_awaited (by simpa using hawaits))
  obtain ⟨ys, hlook, hfiled, hactions⟩ := ha.event_filed hp hs hv
  have hys : ys ≠ [] := by
    obtain ⟨y, hy, -⟩ := hfiled.exists_of_mem_left hh
    exact List.ne_nil_of_mem hy
  rw [groupFrom_none hys] at hlook
  refine ⟨_, hlook, ha.groupOf hreg.actions hfiled hactions ?_, ?_⟩
  · intro y hy v payload htrig
    have hawaits := (List.mem_filter.mp hy).2
    rw [htrig] at hawaits
    exact ⟨ev, rfl, by simpa [Trigger.awaited] using hawaits⟩
  · have hlt := List.idxOf_lt_length_of_mem hv
    have hget : (ir.symbols.eventVariants.map (·.name))[
        (ir.symbols.eventVariants.map (·.name)).idxOf (u.variant ev)]? = some (u.variant ev) := by
      rw [List.getElem?_eq_getElem hlt, List.getElem_idxOf]
    obtain ⟨e, he, hname⟩ := Option.map_eq_some_iff.mp (List.getElem?_map.symm.trans hget)
    show ((indexArms (fun v => "event:" ++ v.name) ir.symbols.eventVariants).lookup _).getD
      "event:?" = _
    rw [ha.eventToId_mem hv, lookup_indexArms _ _ (hlt.trans ha.variants_lt), he, Option.map_some,
      Option.getD_some, hname]
    rfl

/-! ## The glossary -/

theorem Accepted.namesTimer (ha : Accepted input c ir)
    (hp : parseStatechart name items = .ok input) (hreg : input.Regular ir)
    (hu : ∀ t ∈ input.allTimers, u.duration t.1 < 2 ^ 64) (hs : s < c.nStates) {t : Timer}
    (ht : t ∈ (input.declAt s).timers) : t ∈ input.allTimers ∧
      NamesTimer input c (traceNames ir) u s (input.declAt s) t (input.allTimers.idxOf t) := by
  obtain ⟨p, x, hpl, hx, hdecl, hr⟩ := ha.placed hs
  have hall : t ∈ input.allTimers := by
    rw [hdecl] at ht
    exact mem_allTimers_of_decl (List.mem_of_getElem? hpl) ht
  have howned : input.allTimers.idxOf t ∈ c.ownedTimers s := by
    rw [ha.ownedTimers_eq hp hreg.timers hs]
    exact List.mem_map_of_mem ht
  obtain ⟨ir₀, hb, hres⟩ := Except.bind_eq_ok.mp ha.resolved
  obtain ⟨syms, huses, hterm⟩ := buildIr_uses hb
  have hwritten : RowsWritten input.root.uses ir.symbols.durationTriggers := by
    rw [(resolveTransitions_spec hres).1, internTerminate_timers hterm]
    exact uses_rows huses
  have hnum : (⟨t.1, t.2, timerId (timersOf input.root.uses) (writtenKey t)⟩ : InternedTimer) ∈
      numbered input.root.uses := List.mem_map_of_mem (mem_allTimers.mp hall)
  have hapart : Apart (input.root.uses.filterMap Use.timer) :=
    (apart_congr fun t => mem_allTimers).mp hreg.timers
  have hrow := hapart.row (parsed_keyed hp) ha.rows hwritten hnum
  rw [timerId_written hp hreg.timers hall] at hrow
  obtain ⟨hlt, d, hd, hexpr, hrep⟩ := hrow
  refine ⟨hall, ⟨?_, hu t hall, ?_, ?_, ?_⟩⟩
  · unfold durationFor
    rw [generate_exprArms ha.generated, lookup_indexArms _ _ hlt, hd]
    simp [hexpr]
  · unfold Chart.durationRepeats Chart.arm
    rw [(generate_spec ha.generated).durationRepeatArms, lookup_indexArms _ _ hlt, hd]
    simp [hrep]
  · have harms : (traceNames ir).timerNameArms =
        (ir.symbols.durationTriggers.zipIdx.map fun r => asU16 r.2).map
          fun tid => (tid, timerLabel tid) := by
      rw [List.map_map]
      rfl
    have hkey : input.allTimers.idxOf t ∈
        ir.symbols.durationTriggers.zipIdx.map fun r => asU16 r.2 :=
      List.mem_map.mpr ⟨(d, input.allTimers.idxOf t), List.mem_zipIdx_iff_getElem?.mpr hd,
        asU16_of_lt hlt⟩
    unfold TraceNames.timerName Chart.arm
    rw [harms, lookup_map_self hkey]
    rfl
  · rw [ha.timerReason_eq hs howned]
    rfl

theorem Accepted.terminate_eq (ha : Accepted input c ir) :
    c.terminateEvent = input.body.terminate := by
  obtain ⟨ir₀, hb, hr⟩ := Except.bind_eq_ok.mp ha.resolved
  have h₁ : ir.terminateEvent = ir₀.terminateEvent := by
    unfold resolveTransitions at hr
    obtain ⟨states, -, hr⟩ := Except.bind_eq_ok.mp hr
    obtain ⟨states', -, hr⟩ := Except.bind_eq_ok.mp hr
    cases hr
    rfl
  have h₂ : ir₀.terminateEvent = input.body.terminate := by
    unfold buildIr at hb
    split at hb
    · cases hb
    · obtain ⟨⟨syms, states⟩, -, hb⟩ := Except.bind_eq_ok.mp hb
      obtain ⟨syms', -, hb⟩ := Except.bind_eq_ok.mp hb
      cases hb
      rfl
  rw [(generate_duringsArms ha.generated).2, h₁, h₂]

/-- The timers of one path fit the table. -/
theorem Accepted.room (ha : Accepted input c ir) (hp : parseStatechart name items = .ok input)
    (hreg : input.Regular ir) (hs : s < c.nStates) :
    ((ha.sound.tree.up s).flatMap c.ownedTimers).length ≤ c.maxTimers := by
  have hwalk := hreg.room _ (List.mem_of_getElem? (ha.walk_get hs))
  have hlen : ((ha.sound.tree.up s).flatMap c.ownedTimers).length =
      (((ha.sound.tree.up s).map input.declAt).flatMap StateDecl.timers).length := by
    rw [List.flatMap_map, List.length_flatMap, List.length_flatMap]
    refine congrArg List.sum (List.map_congr_left fun x hx => ?_)
    rw [ha.ownedTimers_eq hp hreg.timers (ha.sound.up_lt hs hx), List.length_map]
  rw [hlen, (generate_spec ha.generated).maxTimers, ha.durations_length hp hreg.timers]
  exact hwalk

/-- What was generated from a chart says what the chart says. -/
def Accepted.glossary (ha : Accepted input c ir) (hp : parseStatechart name items = .ok input)
    (hreg : input.Regular ir) (hu : ∀ t ∈ input.allTimers, u.duration t.1 < 2 ^ 64) :
    Glossary input c (traceNames ir) u where
  sound := ha.sound
  decl := input.declAt
  tid := input.allTimers.idxOf
  root := declAt_zero input
  walkTo := ha.walkTo_eq hreg.names
  decl_inj := ha.declAt_inj hreg.names
  stateName := ha.stateName_eq
  entries hs := by
    obtain ⟨p, x, -, hx, hdecl, hr⟩ := ha.placed hs
    rw [ha.entriesOf_eq, hx, hdecl]
    exact hr.entries.imp fun _ _ => ha.namesAction hreg.actions
  exits hs := by
    obtain ⟨p, x, -, hx, hdecl, hr⟩ := ha.placed hs
    rw [ha.exitsOf_eq, hx, hdecl]
    exact hr.exits.imp fun _ _ => ha.namesAction hreg.actions
  durings := ha.durings_eq hreg
  default_none hs hnone := by
    obtain ⟨p, x, -, hx, hdecl, hr⟩ := ha.placed hs
    have hd := hr.default_
    rw [← hdecl, hnone] at hd
    rw [(generate_spec ha.generated).defaultOf_eq]
    simpa [defaultChildOf, hx] using hd
  default_some hs hsome := by
    obtain ⟨p, x, -, hx, hdecl, hr⟩ := ha.placed hs
    have hd := hr.default_
    rw [← hdecl, hsome] at hd
    obtain ⟨t, hlook, ht⟩ := hd
    refine ⟨t, ?_, (ha.name_of_lookup hlook).2⟩
    rw [(generate_spec ha.generated).defaultOf_eq]
    simpa [defaultChildOf, hx] using ht
  ownedTimers := ha.ownedTimers_eq hp hreg.timers
  tid_inj hs ht _ h := (List.idxOf_inj (ha.namesTimer hp hreg hu hs ht).1).mp h
  timer hs ht := ha.namesTimer hp hreg hu hs ht
  onTimer hs ht := ha.onTimer hp hreg hs ht
  onEvent_none hs hnil := ha.onEvent_none hp hs hnil
  onEvent_some hs hne := ha.onEvent_some hp hreg hs hne
  eventName := ha.eventName_eq
  terminate := ha.terminate_eq
  room := ha.room hp hreg

end

end Hsmc
