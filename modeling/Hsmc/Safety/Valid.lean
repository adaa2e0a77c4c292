import Hsmc.Safety.Names
import Hsmc.Safety.Order

/-
  Valid charts that are rejected.

  `StatechartInput.Valid` is what the documentation asks of a chart. The four stages before code
  generation accept a valid chart exactly when it is `Clean`: it has at most 65536 states, none of
  them declares a default alone, and none called `__Root` is a target; and neither a payload
  without fields nor two timers with one `u16` make the tables mistake one thing for another
  (`valid_passes_iff`). `leaf_rejected` is a state that only passes on to its default.
-/

namespace Hsmc

/-- Parse-tree checks, lowering, resolving and validation all succeed. -/
def StatechartInput.Passes (input : StatechartInput) : Prop :=
  validateParseTree input = .ok () ∧ ∃ ir₀ ir, buildIr input = .ok ir₀ ∧
    resolveTransitions ir₀ = .ok ir ∧ validate ir = .ok ()

/-! ## Valid charts -/

/-- A state called `x` declares the default `y`. -/
def StatechartInput.DefaultsTo (input : StatechartInput) (x y : Ident) : Prop :=
  ∃ p ∈ input.layout, p.decl.name = x ∧ p.decl.body.defaultChild = some y

/-- An entry, an exit, a handler, a during or a child is declared. -/
def StateDecl.DeclaresMore (d : StateDecl) : Prop :=
  d.body.entries ≠ [] ∨ d.body.exits ≠ [] ∨ d.body.handlers ≠ [] ∨ d.body.durings ≠ [] ∨
    d.children ≠ []

instance (d : StateDecl) : Decidable d.DeclaresMore :=
  inferInstanceAs (Decidable (_ ∨ _ ∨ _ ∨ _ ∨ ¬ d.children = []))

/-- What is asked of a chart. A name that a handler lists is an action when it names no state. -/
structure StatechartInput.Valid (input : StatechartInput) : Prop where
  context : input.body.contextTy.isSome
  /-- The states have distinct names, and none is called as the chart. -/
  names : input.stateNames.Nodup
  default_ : ∀ p ∈ input.layout, p.decl.body.defaultCount ≤ 1
  terminate : ∀ p ∈ input.layout, p.decl.body.terminateCount ≤ 1
  nested : ∀ p ∈ input.layout, p.parent.isSome → p.decl.body.terminate = none
  targets : ∀ p ∈ input.layout, ∀ x ∈ p.decl.body.defaultChild, x ∈ input.stateNames
  acyclic : ∀ x, ¬ Relation.TransGen input.DefaultsTo x x
  /-- A transition is the last handler of its trigger. -/
  last : ∀ p ∈ input.layout, p.decl.body.handlers.Pairwise fun h h' =>
    h.trigger.bare = h'.trigger.bare → h.target ∉ input.stateNames
  /-- Neither a payload nor an `every` timer leads to a state. -/
  transitions : ∀ p ∈ input.layout, ∀ h ∈ p.decl.body.handlers, h.target ∈ input.stateNames →
    h.trigger.payload = none ∧ ∀ t ∈ h.trigger.timerKey, t.2 = false
  /-- A variant is bound with one payload kind and field count. -/
  binds : ∀ u ∈ input.root.uses, ∀ u' ∈ input.root.uses, ∀ b ∈ u.binds, ∀ b' ∈ u'.binds,
    b.1 = b'.1 → b.2.kind = b'.2.kind ∧ b.2.fields.length = b'.2.fields.length
  /-- An action is used with one parameter list. -/
  calls : ∀ u ∈ input.root.uses, ∀ u' ∈ input.root.uses, ∀ c ∈ u.calls input.stateNames,
    ∀ c' ∈ u'.calls input.stateNames, c.1 = c'.1 → boundFields c.2 = boundFields c'.2
  durings : ∀ p ∈ input.layout, (p.decl.body.durings.flatMap (·.fields)).Nodup
  /-- Every state but the root declares something. -/
  declares : ∀ p ∈ input.layout, p.parent.isSome →
    p.decl.body.defaultChild ≠ none ∨ p.decl.DeclaresMore

/-- What the handlers of a state are told apart by. -/
def handlerKey (timers : List (String × Bool)) : Trigger → Ident ⊕ Nat
  | .event variant _ => .inl variant
  | .duration _ key repeats => .inr (timerId timers (key, repeats))

/-- What a valid chart has to avoid. -/
structure StatechartInput.Clean (input : StatechartInput) : Prop where
  /-- Every state has a `u16` of its own. -/
  count : input.stateNames.length ≤ 65536
  /-- No state declares a default alone. -/
  declares : ∀ p ∈ input.layout, p.parent.isSome → p.decl.DeclaresMore
  /-- No state called `__Root` is a target. -/
  root : input.Targets "__Root" → input.name = "__Root"
  /-- No action that was used before is bound to a payload without fields. -/
  bindings : input.root.uses.Pairwise (Use.Before input.stateNames)
  /-- No transition has the `u16` of an `every` timer. -/
  fires : ∀ u ∈ input.root.uses, u.Fires input.stateNames (timersOf input.root.uses)
  /-- No handler comes after a transition on its event variant or the `u16` of its timer. -/
  keys : ∀ p ∈ input.layout, p.decl.body.handlers.Pairwise fun h h' =>
    handlerKey (timersOf input.root.uses) h.trigger =
      handlerKey (timersOf input.root.uses) h'.trigger → h.target ∉ input.stateNames

theorem StatechartInput.Valid.agree {input : StatechartInput} (hv : input.Valid) :
    Agree input.stateNames input.root.uses :=
  ⟨hv.calls, hv.binds, fun _ hh hmem => by
    obtain ⟨p, hp, hh⟩ := mem_handler_uses.mp hh
    exact (hv.transitions p hp _ hh hmem).1⟩

/-! ## Trigger keys -/

theorem repr_inj {a b : Nat} (h : a.repr = b.repr) : a = b := by
  have h' := congrArg (fun s : String => Nat.ofDigitChars 10 s.toList 0) h
  simpa [Nat.toList_repr] using h'

section

variable {syms : Symbols} {timers : List (String × Bool)}

/-- The strings that `validate` compares tell apart what the keys do. -/
theorem triggerKey_eq_iff (hok : syms.Ok)
    (hrows : timerRows syms.durationTriggers = keyed timers) {t t' : Trigger} {y y' : TriggerIr}
    (h : syms.TriggerAt t y) (h' : syms.TriggerAt t' y') :
    triggerKey y = triggerKey y' ↔ handlerKey timers t = handlerKey timers t' := by
  have hinj : ∀ {p a b : String}, p ++ a = p ++ b ↔ a = b := by
    intro p a b
    refine ⟨fun he => ?_, fun he => by rw [he]⟩
    have hl := congrArg String.toList he
    rw [String.toList_append, String.toList_append] at hl
    exact String.toList_inj.mp (List.append_cancel_left hl)
  have hdiff : ∀ a b : String, "ev:" ++ a ≠ "dur:" ++ b := by
    intro a b he
    have hl := congrArg String.toList he
    simp at hl
  obtain ⟨v, p, id, rfl, rfl, -⟩ | ⟨expr, key, rep, id, rfl, rfl, hat⟩ := h.inv
  · obtain ⟨v', p', id', rfl, rfl, -⟩ | ⟨expr', key', rep', id', rfl, rfl, -⟩ := h'.inv
    · simp [triggerKey, handlerKey, hinj]
    · simp [triggerKey, handlerKey, hdiff]
  · obtain ⟨v', p', id', rfl, rfl, -⟩ | ⟨expr', key', rep', id', rfl, rfl, hat'⟩ := h'.inv
    · simp [triggerKey, handlerKey, (hdiff _ _).symm]
    · have hid := Symbols.DurationAt.eq_timerId hok hrows hat
      have hid' := Symbols.DurationAt.eq_timerId hok hrows hat'
      simp only [triggerKey, handlerKey, hinj, Sum.inr.injEq, ← hid, ← hid']
      exact ⟨repr_inj, fun he => by rw [he]⟩

end

/-! ## Resolved states -/

section

variable {names : List Ident} {syms : Symbols} {p : Placed} {s : StateIr} {input : StatechartInput}
  {ir : Ir}

theorem ResolvedState.blank_iff {map : List (Ident × Nat)}
    (hs : ResolvedState names map syms p s) :
    s.Blank ↔ p.parent.isSome ∧ ¬ p.decl.DeclaresMore := by
  have hnil : ∀ {α β : Type} {l : List α} {l' : List β}, l.length = l'.length →
      (l' = [] ↔ l = []) := by
    intro α β l l' h
    rw [← List.length_eq_zero_iff, ← h, List.length_eq_zero_iff]
  have he := hnil hs.entries.length_eq
  have hx := hnil hs.exits.length_eq
  have hh := hnil hs.handlers.length_eq
  have hc := hnil hs.children.symm
  unfold StateDecl.DeclaresMore
  simp only [not_or, not_not]
  rw [← he, ← hx, ← hh, ← hc, ← hs.parent, ← hs.durings]
  exact ⟨fun h => ⟨h.parent, h.entries, h.exits, h.handlers, h.durings, h.children⟩,
    fun ⟨h₁, h₂, h₃, h₄, h₅, h₆⟩ => ⟨h₁, h₂, h₃, h₄, h₆, h₅⟩⟩

theorem ResolvedHandler.isAction_iff {map : List (Ident × Nat)} {h : Handler} {y : HandlerIr}
    (hr : ResolvedHandler names map syms h y) : y.kind.actionId.isSome ↔ h.target ∉ names := by
  have hkind := hr.kind
  revert hkind
  generalize y.kind = kind
  intro hkind
  cases hkind with
  | transition hmem _ _ _ => exact iff_of_false (fun h => (nomatch h)) fun hno => hno hmem
  | action hmem _ => exact iff_of_true rfl hmem

theorem ResolvedHandler.known {h : Handler} {y : HandlerIr}
    (hr : ResolvedHandler names (nameMap ir) syms h y) : y.kind.Known ir := by
  have hkind := hr.kind
  revert hkind
  generalize y.kind = kind
  intro hkind
  cases hkind with
  | transition _ _ _ hlook => exact Option.isSome_of_eq_some hlook
  | action _ _ => trivial

/-- The handlers of a state pass when none comes after a transition with its key. -/
theorem ResolvedState.handlers_ok_iff {its : List Item} {timers : List (String × Bool)}
    (hs : ResolvedState names (nameMap ir) ir.symbols p s) (hlists : Lists its p)
    (hok : ir.symbols.Ok) (hrows : timerRows ir.symbols.durationTriggers = keyed timers) :
    (∃ seen, s.handlers.foldlM (checkHandler ir s) {} = .ok seen) ↔
      p.decl.body.handlers.Pairwise fun h h' =>
        handlerKey timers h.trigger = handlerKey timers h'.trigger → h.target ∉ names := by
  rw [checkHandlers_iff (by simp [HandlerSeen.Before]) (hlists.increasing hs)]
  have hknown : ∀ y ∈ s.handlers, y.kind.Known ir ∧
      (({} : HandlerSeen).txn.lookup (triggerKey y.trigger)) = none := by
    intro y hy
    obtain ⟨h, -, hr⟩ := hs.handlers.exists_of_mem_right hy
    exact ⟨hr.known, rfl⟩
  rw [and_iff_right hknown]
  refine (hs.handlers.pairwise_iff fun h y h' y' hr hr' => ?_).symm
  rw [triggerKey_eq_iff hok hrows hr.trigger hr'.trigger, hr.isAction_iff]

end

/-! ## The stages on a valid chart -/

section

variable {name : Ident} {items : List Item} {input : StatechartInput} {ir₀ ir : Ir}

namespace StatechartInput.Valid

theorem parse_ok (hv : input.Valid) : validateParseTree input = .ok () :=
  validateParseTree_ok_iff.mpr fun p hp => ⟨hv.default_ p hp, hv.terminate p hp, hv.nested p hp⟩

/-- Resolving looks up what the chart targets. -/
theorem resolves_iff (hv : input.Valid) (hb : buildIr input = .ok ir₀)
    (hcount : input.stateNames.length ≤ 65536) :
    (∃ ir, resolveTransitions ir₀ = .ok ir) ↔ (input.Targets "__Root" → input.name = "__Root") := by
  have hlen : ir₀.states.length ≤ 65536 := by rwa [buildIr_length hb]
  obtain ⟨hname, -, hlaid⟩ := buildIr_lays hb hlen
  obtain ⟨ht, hpos, -⟩ := buildIr_spec hb hlen
  have hnames := map_name_of_layout (fun _ _ h => h.name) hlaid
  have hlook : ∀ x, input.Targets x →
      (((nameMap ir₀).lookup x).isSome ↔ (x = "__Root" → input.name = "__Root")) := by
    rintro x ⟨p, hp, hdef | ⟨hmem, -⟩⟩
    · exact lookup_isSome_iff ht hpos hname hnames (hv.targets p hp x hdef)
    · exact lookup_isSome_iff ht hpos hname hnames hmem
  rw [resolveTransitions_ok_iff hlaid]
  constructor
  · rintro hall ⟨p, hp, hor⟩
    refine (hlook "__Root" ⟨p, hp, hor⟩).mp ?_ rfl
    rcases hor with hdef | ⟨hmem, h, hh, htarget⟩
    · exact (hall p hp).2 _ hdef
    · rw [← htarget] at hmem ⊢
      exact (hall p hp).1 h hh hmem
  · intro hroot p hp
    refine ⟨fun h hh hmem => ?_, fun x hx => ?_⟩
    · have htarget : input.Targets h.target := ⟨p, hp, .inr ⟨hmem, h, hh, rfl⟩⟩
      exact (hlook _ htarget).mpr fun he => hroot (he ▸ htarget)
    · have htarget : input.Targets x := ⟨p, hp, .inl hx⟩
      exact (hlook _ htarget).mpr fun he => hroot (he ▸ htarget)

/-- The defaults of the states lead where the declared ones do. -/
theorem defaultsTo (hv : input.Valid) (hl : Laid input ir) {i t : Nat}
    (h : defaultChildOf ir.states i = some t) :
    input.DefaultsTo (input.stateNames.getD i "") (input.stateNames.getD t "") := by
  have hat : ∀ {j : Nat} {p : Placed}, input.layout[j]? = some p →
      input.stateNames.getD j "" = p.decl.name := by
    intro j p hp
    rw [← layout_names, List.getD_eq_getElem?_getD, List.getElem?_map, hp]
    rfl
  obtain ⟨s, hs, hdef⟩ := Option.bind_eq_some_iff.mp h
  obtain ⟨p, hp, hst⟩ := hl.states.flip.exists_of_getElem? hs
  have hd := hst.default_
  cases hx : p.decl.body.defaultChild with
  | none =>
      rw [hx] at hd
      rw [hdef] at hd
      cases hd
  | some x =>
      rw [hx] at hd
      obtain ⟨t', hlook, ht'⟩ := hd
      rw [hdef] at ht'
      cases ht'
      have hmem := hv.targets p (List.mem_of_getElem? hp) x hx
      rw [← layout_names] at hmem
      obtain ⟨q, hq, rfl⟩ := List.mem_map.mp hmem
      obtain ⟨j, hj⟩ := List.mem_iff_getElem?.mp hq
      rw [hl.eq_of_lookup hv.names hlook hj rfl, hat hp, hat hj]
      exact ⟨p, List.mem_of_getElem? hp, rfl, hx⟩

/-- What `validate` has left to ask of a state. -/
theorem state_ok_iff (hv : input.Valid) (hl : Laid input ir)
    (hrows : timerRows ir.symbols.durationTriggers = keyed (timersOf input.root.uses))
    {its : List Item} {p : Placed} {s : StateIr} (hp : p ∈ input.layout) (hlists : Lists its p)
    (hs : ResolvedState input.stateNames (nameMap ir) ir.symbols p s) :
    (¬ s.Blank ∧ (s.durings.flatMap (·.fields)).Nodup ∧
        ∃ seen, s.handlers.foldlM (checkHandler ir s) {} = .ok seen) ↔
      (p.parent.isSome → p.decl.DeclaresMore) ∧
        p.decl.body.handlers.Pairwise fun h h' =>
          handlerKey (timersOf input.root.uses) h.trigger =
            handlerKey (timersOf input.root.uses) h'.trigger → h.target ∉ input.stateNames := by
  have hdurings : (s.durings.flatMap (·.fields)).Nodup := by
    rw [hs.durings]
    exact hv.durings p hp
  rw [and_iff_right hdurings, hs.handlers_ok_iff hlists hl.ok hrows, hs.blank_iff]
  simp only [not_and, not_not]

theorem validates_iff (hv : input.Valid) (hparse : parseStatechart name items = .ok input)
    (hb : buildIr input = .ok ir₀) (hr : resolveTransitions ir₀ = .ok ir)
    (hcount : input.stateNames.length ≤ 65536) : validate ir = .ok () ↔
      (∀ p ∈ input.layout, p.parent.isSome → p.decl.DeclaresMore) ∧
        ∀ p ∈ input.layout, p.decl.body.handlers.Pairwise fun h h' =>
          handlerKey (timersOf input.root.uses) h.trigger =
            handlerKey (timersOf input.root.uses) h'.trigger → h.target ∉ input.stateNames := by
  obtain ⟨hsyms, hstates⟩ := resolveTransitions_spec hr
  have hlen : ir.states.length ≤ 65536 := by rwa [← hstates.length_eq, buildIr_length hb]
  have hl : Laid input ir := resolved_lays (Except.bind_eq_ok.mpr ⟨ir₀, hb, hr⟩) hlen
  have hw := resolved_wellFormed hb hr hlen
  have hrows : timerRows ir.symbols.durationTriggers = keyed (timersOf input.root.uses) := by
    rw [hsyms]
    exact buildIr_timers hb
  have hnocycle : ∀ l, ¬ IsCycle (defaultChildOf ir.states) l := by
    intro l hcycle
    obtain ⟨i, hi⟩ := hcycle.transGen
    exact hv.acyclic _ (hi.lift (fun i => input.stateNames.getD i "")
      fun _ _ hstep => hv.defaultsTo hl hstep)
  have hnames : ((ir.states.map (·.name)).filter (· != "__Root")).Nodup := by
    rw [hl.map_name, List.filter_cons_of_neg (by decide)]
    exact (List.nodup_cons.mp hv.names).2.filter _
  have hdefault : ∀ s t, defaultChildOf ir.states s = some t → t < ir.states.length := by
    intro s t hs
    obtain ⟨st, hst, hdef⟩ := Option.bind_eq_some_iff.mp hs
    exact hw.default_lt st (List.mem_of_getElem? hst) t hdef
  have hplaced := (List.forall₂_and_left input.layout ir.states).mpr ⟨fun _ hp => hp, hl.states⟩
  rw [validate_ok_iff hdefault, and_iff_right hnocycle, and_iff_right hnames,
    ← hplaced.forall_mem_iff fun p s hps => by
      obtain ⟨its, -, hlists⟩ := (parseStatechart_lists hparse).exists_of_mem_right hps.1
      exact (hv.state_ok_iff hl hrows hps.1 hlists hps.2).symm]
  exact ⟨fun h => ⟨fun p hp => (h p hp).1, fun p hp => (h p hp).2⟩,
    fun h p hp => ⟨h.1 p hp, h.2 p hp⟩⟩

end StatechartInput.Valid

/-- A valid chart passes every stage exactly when it is clean. -/
theorem valid_passes_iff (hp : parseStatechart name items = .ok input) (hv : input.Valid) :
    input.Passes ↔ input.Clean := by
  unfold StatechartInput.Passes
  rw [and_iff_right hv.parse_ok]
  constructor
  · rintro ⟨ir₀, ir, hb, hr, hval⟩
    have hcount : input.stateNames.length ≤ 65536 :=
      Nat.le_of_not_lt fun hmany => not_validate_of_many hb hr hmany hval
    obtain ⟨hbindings, hfires⟩ := (buildIr_ok_iff hv.context hv.agree).mp ⟨ir₀, hb⟩
    obtain ⟨hdeclares, hkeys⟩ := (hv.validates_iff hp hb hr hcount).mp hval
    exact ⟨hcount, hdeclares, (hv.resolves_iff hb hcount).mp ⟨ir, hr⟩, hbindings, hfires, hkeys⟩
  · intro hc
    obtain ⟨ir₀, hb⟩ := (buildIr_ok_iff hv.context hv.agree).mpr ⟨hc.bindings, hc.fires⟩
    obtain ⟨ir, hr⟩ := (hv.resolves_iff hb hc.count).mpr hc.root
    exact ⟨ir₀, ir, hb, hr, (hv.validates_iff hp hb hr hc.count).mpr ⟨hc.declares, hc.keys⟩⟩

end

/-! ## A leaf with a default -/

/-- A chart whose defaults climb a ladder of names has no cycle. -/
theorem acyclic_of_rank {input : StatechartInput} (rank : Ident → Nat)
    (h : ∀ p ∈ input.layout, ∀ y ∈ p.decl.body.defaultChild, rank p.decl.name < rank y) :
    ∀ x, ¬ Relation.TransGen input.DefaultsTo x x := by
  have hlt : ∀ {x y}, Relation.TransGen input.DefaultsTo x y → rank x < rank y := by
    intro x y hxy
    induction hxy with
    | single hstep =>
        obtain ⟨p, hp, rfl, hy⟩ := hstep
        exact h p hp _ hy
    | tail _ hstep ih =>
        obtain ⟨p, hp, rfl, hy⟩ := hstep
        exact ih.trans (h p hp _ hy)
  exact fun x hx => lt_irrefl _ (hlt hx)

theorem lamp_valid : lamp.Valid where
  context := rfl
  names := by decide +kernel
  default_ := by decide +kernel
  terminate := by decide +kernel
  nested := by decide +kernel
  targets := by decide +kernel
  acyclic := acyclic_of_rank (fun x => if x = "Lamp" then 0 else 1) (by decide +kernel)
  last := by decide +kernel
  transitions := by decide +kernel
  binds := by decide +kernel
  calls := by decide +kernel
  durings := by decide +kernel
  declares := by decide +kernel

theorem lamp_clean : lamp.Clean where
  count := by decide +kernel
  declares := by decide +kernel
  root := by decide +kernel
  bindings := by decide +kernel
  fires := by decide +kernel
  keys := by decide +kernel

theorem valid_passes_iff_lamp : lamp.Passes :=
  (valid_passes_iff lamp_parsed lamp_valid).mpr lamp_clean

/-- `Idle` passes on to `Open` on every entry. -/
def gateItems : List Item := [
  .context "GateCtx", .default "Idle",
  .state "Idle" [.default "Open"],
  .state "Open" [.entry "chime" []]]

theorem gate_parses : (parseStatechart "Gate" gateItems).isOk = true := by decide +kernel

def gate : StatechartInput := Except.get _ gate_parses

def gateRank (x : Ident) : Nat := if x = "Gate" then 0 else if x = "Idle" then 1 else 2

theorem gate_valid : gate.Valid where
  context := by decide +kernel
  names := by decide +kernel
  default_ := by decide +kernel
  terminate := by decide +kernel
  nested := by decide +kernel
  targets := by decide +kernel
  acyclic := acyclic_of_rank gateRank (by decide +kernel)
  last := by decide +kernel
  transitions := by decide +kernel
  binds := by decide +kernel
  calls := by decide +kernel
  durings := by decide +kernel
  declares := by decide +kernel

theorem leaf_rejected : parseStatechart "Gate" gateItems = .ok gate ∧ gate.Valid ∧
    (buildIr gate >>= resolveTransitions >>= validate) = .error "empty state `Idle`" ∧
    ¬ gate.Passes := by
  have herror : (buildIr gate >>= resolveTransitions >>= validate) =
      .error "empty state `Idle`" := by decide +kernel
  refine ⟨Except.eq_ok_get _ gate_parses, gate_valid, herror, ?_⟩
  rintro ⟨-, ir₀, ir, hb, hr, hv⟩
  rw [hb, Except.ok_bind_eq, hr, Except.ok_bind_eq, hv] at herror
  cases herror

end Hsmc
