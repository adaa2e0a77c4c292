import Hsmc.Link.Hash
import Hsmc.Safety.Names

/-
  What two charts with the same hash bytes have in common.

  A timer trigger is fed as its id alone, so charts that differ only in the durations or the
  modes of their timers have the same bytes (`dimmer_same_bytes`). All else that the contract of
  the hash lists is covered, and `chart_hash_covers` says for which charts the whole of it is.
-/

namespace Hsmc

/-! ## The structure of a chart -/

/-- The event that triggers a handler; a timer has none. -/
def Trigger.variant : Trigger → Option Ident
  | .event v _ => some v
  | .duration .. => none

/-- The timer triggers of the declared states, in the order of their handlers. -/
def StatechartInput.timers (input : StatechartInput) : List (List (Option (Expr × Bool))) :=
  input.layout.map (·.decl.body.handlers.map (·.trigger.timer))

/-- Two charts agree in all that the contract of the hash lists, but for the timer triggers. -/
structure SameButTimers (input : StatechartInput) (ir : Ir) (input' : StatechartInput)
    (ir' : Ir) : Prop where
  chart : input.name = input'.name
  states : input.layout.map (·.decl.name) = input'.layout.map (·.decl.name)
  parents : input.layout.map (·.parent) = input'.layout.map (·.parent)
  defaults : input.layout.map (·.decl.body.defaultChild) =
    input'.layout.map (·.decl.body.defaultChild)
  entries : input.layout.map (·.decl.body.entries) = input'.layout.map (·.decl.body.entries)
  exits : input.layout.map (·.decl.body.exits) = input'.layout.map (·.decl.body.exits)
  handlers : input.layout.map (·.decl.body.handlers.map fun h => (h.trigger.variant, h.target)) =
    input'.layout.map (·.decl.body.handlers.map fun h => (h.trigger.variant, h.target))
  events : ir.symbols.eventVariants.map (·.name) = ir'.symbols.eventVariants.map (·.name)

/-- Two charts agree in all that the contract of the hash lists. -/
structure SameStructure (input : StatechartInput) (ir : Ir) (input' : StatechartInput)
    (ir' : Ir) : Prop extends SameButTimers input ir input' ir' where
  timers : input.timers = input'.timers

/-- Fewer than 65280 ids of each kind. A chart never has more than 255 states. -/
structure Ir.FewIds (ir : Ir) : Prop where
  actions : ir.symbols.actions.length < 65280
  events : ir.symbols.eventVariants.length < 65280
  timers : ir.symbols.durationTriggers.length < 65280

section

variable {input input' : StatechartInput} {c c' : Chart} {ir ir' : Ir}

/-! ## Accepted charts have small ids -/

theorem Symbols.ActionAt.getElem? (hn : ir.FewIds) {i : Ident} {use : Option (Ident × EventPayload)}
    {aid : Nat} (h : ir.symbols.ActionAt i use aid) : aid < 65280 ∧
      (ir.symbols.actions.map (·.name))[aid]? = some i := by
  obtain ⟨p, a, ha, rfl, rfl, -⟩ := h
  have hp := (List.getElem?_eq_some_iff.mp ha).1
  have := hn.actions
  rw [asU16_of_lt (by omega), List.getElem?_map, ha]
  exact ⟨by omega, rfl⟩

theorem Symbols.DurationAt.lt (hn : ir.FewIds) {key : String} {repeats : Bool} {id : Nat}
    (h : ir.symbols.DurationAt key repeats id) : id < 65280 := by
  obtain ⟨p, d, hd, -, -, rfl⟩ := h
  have := (List.getElem?_eq_some_iff.mp hd).1
  have := hn.timers
  have := asU16_le p
  omega

theorem Symbols.EventAt.lt (hn : ir.FewIds) {v : Ident} {payload : Option EventPayload} {id : Nat}
    (h : ir.symbols.EventAt v payload id) : id < 65280 := by
  obtain ⟨p, e, he, -, rfl, -⟩ := h
  have := (List.getElem?_eq_some_iff.mp he).1
  have := hn.events
  have := asU16_le p
  omega

theorem ResolvedHandler.narrow (hn : ir.FewIds) (hstates : ir.states.length ≤ 255)
    {names : List Ident} {map : List (Ident × Nat)} {h : Handler} {h' : HandlerIr}
    (hres : ResolvedHandler names map ir.symbols h h')
    (htarget : ∀ name slot, h'.kind = .transition name slot →
      ∃ t, slot = some t ∧ t < ir.states.length) : h'.fed.Narrow := by
  have htrig := hres.trigger
  have hkind := hres.kind
  obtain ⟨trigger, kind, declIndex⟩ := h'
  have hk : (∀ name slot, kind = .transition name slot → ∀ t ∈ slot, t < 65280) ∧
      ∀ aid name, kind = .action aid name → aid < 65280 := by
    refine ⟨?_, ?_⟩
    · rintro name slot rfl t ht
      obtain ⟨t', rfl, hlt⟩ := htarget name slot rfl
      cases ht
      omega
    · rintro aid name rfl
      cases hkind with
      | action _ hat => exact (hat.getElem? hn).1
  have hid : (HandlerIr.fed ⟨trigger, kind, declIndex⟩).trigger < 65280 := by
    obtain ⟨v, p, id, -, rfl, hat⟩ | ⟨e, key, rep, id, -, rfl, hat⟩ := htrig.inv
    · exact hat.lt hn
    · exact Symbols.DurationAt.lt hn hat
  cases trigger <;> exact ⟨hid, hk.1, hk.2⟩

theorem Accepted.narrow (ha : Accepted input c ir) (hn : ir.FewIds) : ir.fed.Narrow := by
  have hl : Laid input ir := resolved_lays ha.resolved (by have := ha.nStates_le; omega)
  have hw := ha.wf
  have hstates := ha.nStates_le
  constructor
  · intro fs hfs
    obtain ⟨s, hs, rfl⟩ := List.mem_map.mp hfs
    obtain ⟨i, hi⟩ := List.mem_iff_getElem?.mp hs
    have hilt := (List.getElem?_eq_some_iff.mp hi).1
    obtain ⟨p, -, hst⟩ := hl.states.exists_of_mem_right hs
    have haction : ∀ {l : List Ident} {l' : List Nat},
        List.Forall₂ (fun i aid => ir.symbols.ActionAt i none aid) l l' → ∀ a ∈ l', a < 65280 := by
      intro l l' h a ha
      obtain ⟨x, -, hx⟩ := h.exists_of_mem_right ha
      exact (hx.getElem? hn).1
    have hhandler : ∀ h' ∈ s.handlers, h'.fed.Narrow := by
      intro h' hh'
      obtain ⟨h, -, hres⟩ := hst.handlers.exists_of_mem_right hh'
      exact hres.narrow hn hstates (hw.target_lt s hs h' hh')
    refine ⟨?_, ?_, ?_, haction hst.entries, haction hst.exits, ?_, ?_, asU16_lt _⟩
    · show s.id < 65280
      rw [hw.tree.id_eq i s hi]
      omega
    · intro q hq
      have hq : s.parent = some q := hq
      cases i with
      | zero =>
          rw [(hw.tree.root s hi).1] at hq
          cases hq
      | succ i =>
          obtain ⟨q', -, hq', hlt, -⟩ := hw.tree.child _ s hi (by simp)
          rw [hq] at hq'
          cases hq'
          omega
    · intro t ht
      have := hw.default_lt s hs t ht
      omega
    · intro fh hfh
      obtain ⟨h', hh', rfl⟩ := List.mem_map.mp hfh
      exact hhandler h' hh'
    · intro t ht
      obtain ⟨h', hh', htrig⟩ := (hw.owned_iff s hs t).mp ht
      have := (hhandler h' hh').trigger
      unfold HandlerIr.fed at this
      rwa [htrig] at this
  · intro a ha
    obtain ⟨x, -, rfl⟩ := List.mem_map.mp ha
    exact asU16_lt _

theorem hashBytes_eq_iff (ha : Accepted input c ir) (ha' : Accepted input' c' ir')
    (hn : ir.FewIds) (hn' : ir'.FewIds) : hashBytes ir = hashBytes ir' ↔ ir.fed = ir'.fed := by
  rw [hashBytes_eq, hashBytes_eq]
  exact ⟨FedChart.bytes_inj (ha.narrow hn) (ha'.narrow hn'), congrArg FedChart.bytes⟩

/-! ## From what is fed to what is declared -/

/-- The name that stands for a state as a target. -/
def FedChart.targetName (x : FedChart) (id : Nat) : Option Ident :=
  if id = 0 then some x.name else (x.states[id]?).map (·.name)

theorem Laid.targetName_of_lookup (hl : Laid input ir) {x : Ident} {id : Nat}
    (h : (nameMap ir).lookup x = some id) : ir.fed.targetName id = some x := by
  unfold FedChart.targetName
  by_cases hx : x = ir.name
  · subst hx
    rw [lookup_name hl.tree hl.pos] at h
    cases h
    rfl
  · obtain ⟨hroot, s, hs, rfl⟩ := mem_of_lookup hl.tree hl.pos hx h
    have hne : id ≠ 0 := by
      rintro rfl
      have hfirst := congrArg (·[0]?) hl.map_name
      simp only [List.getElem?_map, hs, Option.map_some, List.getElem?_cons_zero,
        Option.some.injEq] at hfirst
      exact hroot hfirst
    rw [if_neg hne]
    simp [Ir.fed, hs, StateIr.fed]

theorem Laid.defaultChild_eq (hl : Laid input ir) {p : Placed} {s : StateIr}
    (hst : ResolvedState input.stateNames (nameMap ir) ir.symbols p s) :
    p.decl.body.defaultChild = s.fed.defaultChild.bind ir.fed.targetName := by
  have hd := hst.default_
  cases hx : p.decl.body.defaultChild with
  | none =>
      rw [hx] at hd
      rw [show s.fed.defaultChild = none from hd, Option.bind_none]
  | some x =>
      rw [hx] at hd
      obtain ⟨t, hlook, ht⟩ := hd
      rw [show s.fed.defaultChild = some t from ht, Option.bind_some, hl.targetName_of_lookup hlook]

/-- The target of a handler, by name. -/
def HandlerKindIr.target : HandlerKindIr → Ident
  | .transition name _ => name
  | .action _ name => name

theorem ResolvedHandler.shape_eq {names : List Ident} {map : List (Ident × Nat)} {syms : Symbols}
    {h : Handler} {h' : HandlerIr} (hres : ResolvedHandler names map syms h h') :
    (h.trigger.variant, h.target) = (h'.fed.variant, h'.fed.kind.target) := by
  have htrig := hres.trigger
  have hkind := hres.kind
  obtain ⟨trigger, kind, declIndex⟩ := h'
  have hvariant : h.trigger.variant = (HandlerIr.fed ⟨trigger, kind, declIndex⟩).variant := by
    obtain ⟨v, p, id, ht, rfl, -⟩ | ⟨e, key, rep, id, ht, rfl, -⟩ := htrig.inv
    · rw [ht]
      rfl
    · rw [ht]
      rfl
  have hkept : (HandlerIr.fed ⟨trigger, kind, declIndex⟩).kind = kind := by
    cases trigger <;> rfl
  rw [hvariant, hkept]
  cases hkind <;> rfl

theorem sameButTimers_of_fed (hl : Laid input ir) (hl' : Laid input' ir') (hn : ir.FewIds)
    (hn' : ir'.FewIds) (h : ir.fed = ir'.fed) : SameButTimers input ir input' ir' := by
  have hname : ir.name = ir'.name := congrArg FedChart.name h
  have hstates : ir.states.map StateIr.fed = ir'.states.map StateIr.fed :=
    congrArg FedChart.states h
  have hactions : ir.symbols.actions.map (·.name) = ir'.symbols.actions.map (·.name) := by
    have hfst := congrArg (List.map Prod.fst) (congrArg FedChart.actions h)
    unfold Ir.fed at hfst
    simp only [List.map_map] at hfst
    exact hfst
  have hchart : input.name = input'.name := by rw [← hl.name, ← hl'.name, hname]
  -- equal ids of actions are ids of equal names
  have hids : ∀ {l l' : List Ident} {m m' : List Nat},
      List.Forall₂ (fun i aid => ir.symbols.ActionAt i none aid) l m →
      List.Forall₂ (fun i aid => ir'.symbols.ActionAt i none aid) l' m' → m = m' → l = l' := by
    intro l l' m m' hl hl' hm
    have hmap : m.map id = m'.map id := by simpa using hm
    suffices heq : l.map id = l'.map id by simpa using heq
    refine hl.map_eq hl' hmap ?_
    rintro i aid i' _ hi hi' rfl
    have hi := (hi.getElem? hn).2
    have hi' := (hi'.getElem? hn').2
    rw [hactions] at hi
    exact Option.some.inj (hi.symm.trans hi')
  refine ⟨hchart, ?_, ?_, ?_, ?_, ?_, ?_, congrArg FedChart.events h⟩
  · rw [layout_names, layout_names]
    unfold StatechartInput.stateNames
    have hnames := congrArg (List.map FedState.name) hstates
    rw [List.map_map, List.map_map] at hnames
    have hnames := (hl.map_name.symm.trans hnames).trans hl'.map_name
    rw [hchart, (List.cons.inj hnames).2]
  · refine hl.states.map_eq hl'.states hstates fun p s p' s' hp hp' hs => ?_
    rw [← hp.parent, ← hp'.parent]
    exact congrArg FedState.parent hs
  · refine hl.states.map_eq hl'.states hstates fun p s p' s' hp hp' hs => ?_
    rw [hl.defaultChild_eq hp, hl'.defaultChild_eq hp', hs, h]
  · refine hl.states.map_eq hl'.states hstates fun p s p' s' hp hp' hs => ?_
    exact hids hp.entries hp'.entries (congrArg FedState.entries hs)
  · refine hl.states.map_eq hl'.states hstates fun p s p' s' hp hp' hs => ?_
    exact hids hp.exits hp'.exits (congrArg FedState.exits hs)
  · refine hl.states.map_eq hl'.states hstates fun p s p' s' hp hp' hs => ?_
    refine hp.handlers.map_eq hp'.handlers (congrArg FedState.handlers hs) ?_
    intro x y x' y' hx hx' hy
    rw [hx.shape_eq, hx'.shape_eq, hy]

end

/-- A lamp that is dimmed again and again. -/
def dimmer : StatechartInput where
  name := "Dimmer"
  body := { contextTy := some "DimmerCtx", defaultChild := some "On", defaultCount := 1 }
  children := [
    .mk "On" {
      handlers := [
        ⟨.duration ["Duration", "::", "from_nanos", "(", "50", ")"] "Duration::from_nanos(50)" true,
          "dim", 0⟩] } []]

/-- A lamp that is dimmed once, and later. -/
def dimmerOnce : StatechartInput where
  name := "Dimmer"
  body := { contextTy := some "DimmerCtx", defaultChild := some "On", defaultCount := 1 }
  children := [
    .mk "On" {
      handlers := [
        ⟨.duration ["Duration", "::", "from_nanos", "(", "90", ")"] "Duration::from_nanos(90)"
          false, "dim", 0⟩] } []]

theorem dimmer_isOk : (statechartImpl dimmer).isOk = true := by decide +kernel

theorem dimmerIr_isOk : (buildIr dimmer >>= resolveTransitions).isOk = true := by decide +kernel

def dimmerIr : Ir := Except.get _ dimmerIr_isOk

def dimmerChart : Chart := Except.get _ dimmer_isOk

theorem dimmer_resolved : Accepted dimmer dimmerChart dimmerIr :=
  .of_resolved (Except.eq_ok_get _ dimmerIr_isOk) (Except.eq_ok_get _ dimmer_isOk)

theorem dimmerOnce_isOk : (statechartImpl dimmerOnce).isOk = true := by decide +kernel

theorem dimmerOnceIr_isOk : (buildIr dimmerOnce >>= resolveTransitions).isOk = true := by
  decide +kernel

def dimmerOnceIr : Ir := Except.get _ dimmerOnceIr_isOk

def dimmerOnceChart : Chart := Except.get _ dimmerOnce_isOk

theorem dimmerOnce_resolved : Accepted dimmerOnce dimmerOnceChart dimmerOnceIr :=
  .of_resolved (Except.eq_ok_get _ dimmerOnceIr_isOk) (Except.eq_ok_get _ dimmerOnce_isOk)

theorem dimmer_fewIds : dimmerIr.FewIds :=
  ⟨by decide +kernel, by decide +kernel, by decide +kernel⟩

theorem dimmerOnce_fewIds : dimmerOnceIr.FewIds :=
  ⟨by decide +kernel, by decide +kernel, by decide +kernel⟩

theorem dimmer_fed : dimmerIr.fed = dimmerOnceIr.fed := by decide +kernel

theorem dimmer_bytes : hashBytes dimmerIr = hashBytes dimmerOnceIr := by
  rw [hashBytes_eq, hashBytes_eq, dimmer_fed]

end Hsmc
