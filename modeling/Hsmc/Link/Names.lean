import Hsmc.Link.Layout

/-
  What resolving makes of a laid-out chart.

  `lookup_name` and `mem_of_lookup` say what the name map holds: the chart's own name stands
  for the root, every other name for a state of that name. `resolved_lays` extends
  `buildIr_lays` to the resolved states: `ResolvedState` is a declaration together with the
  state that code generation gets for it.
-/

namespace Hsmc

/-! ## The name map -/

section

variable {ir : Ir}

theorem find_root (ht : TreeOk ir.states) (hpos : 0 < ir.states.length) :
    ∃ root, ir.states.find? (fun s => s.parent.isNone) = some root ∧ root.id = 0 := by
  obtain ⟨root, hroot⟩ : ∃ root, ir.states[0]? = some root :=
    ⟨ir.states[0], List.getElem?_eq_getElem hpos⟩
  refine ⟨root, ?_, ht.id_eq 0 root hroot⟩
  cases hs : ir.states with
  | nil => rw [hs] at hroot; simp at hroot
  | cons s rest =>
      rw [hs, List.getElem?_cons_zero, Option.some.injEq] at hroot
      subst hroot
      have hnone : s.parent = none := (ht.root s (by rw [hs]; rfl)).1
      rw [List.find?_cons_of_pos (by rw [hnone]; rfl)]

/-- The chart's own name is the root. -/
theorem lookup_name (ht : TreeOk ir.states) (hpos : 0 < ir.states.length) :
    (nameMap ir).lookup ir.name = some 0 := by
  obtain ⟨root, hfind, hid⟩ := find_root ht hpos
  unfold nameMap
  simp only [hfind, hid]
  simp

/-- A name other than the chart's is looked up among the states, later ones first. -/
theorem lookup_of_ne (ht : TreeOk ir.states) (hpos : 0 < ir.states.length) {x : Ident}
    (hx : x ≠ ir.name) : (nameMap ir).lookup x =
      ((ir.states.filter fun s => s.name != "__Root").map fun s => (s.name, s.id)).reverse.lookup
        x := by
  obtain ⟨root, hfind, -⟩ := find_root ht hpos
  have hb : (x == ir.name) = false := by simpa using hx
  unfold nameMap
  simp only [hfind, List.singleton_append, List.lookup_cons, hb]

/-- What a name other than the chart's stands for is a state of that name. -/
theorem mem_of_lookup (ht : TreeOk ir.states) (hpos : 0 < ir.states.length) {x : Ident} {id : Nat}
    (hx : x ≠ ir.name) (h : (nameMap ir).lookup x = some id) :
    x ≠ "__Root" ∧ ∃ s, ir.states[id]? = some s ∧ s.name = x := by
  rw [lookup_of_ne ht hpos hx] at h
  obtain ⟨l, l', hl, -⟩ := List.lookup_eq_some_iff.mp h
  have hmem : (x, id) ∈ ((ir.states.filter fun s => s.name != "__Root").map
      fun s => (s.name, s.id)).reverse := by
    rw [hl]
    simp
  rw [List.mem_reverse] at hmem
  obtain ⟨s, hs, he⟩ := List.mem_map.mp hmem
  obtain ⟨hs, hne⟩ := List.mem_filter.mp hs
  cases he
  obtain ⟨i, hi⟩ := List.mem_iff_getElem?.mp hs
  exact ⟨by simpa using hne, s, by rw [ht.id_eq i s hi, hi], rfl⟩

/-- A declared state can be looked up, unless it is called as the root is inside. -/
theorem isSome_lookup (ht : TreeOk ir.states) (hpos : 0 < ir.states.length) {s : StateIr}
    (hs : s ∈ ir.states) (hne : s.name ≠ "__Root") :
    ((nameMap ir).lookup s.name).isSome = true := by
  by_cases hx : s.name = ir.name
  · rw [hx, lookup_name ht hpos]
    rfl
  · rw [lookup_of_ne ht hpos hx, List.lookup_isSome_iff]
    refine ⟨_, List.mem_reverse.mpr (List.mem_map.mpr
      ⟨s, List.mem_filter.mpr ⟨hs, by simpa using hne⟩, rfl⟩), by simp⟩

end

/-! ## Resolved states -/

/-- What a target was turned into: a state by way of the map, or an action. -/
inductive ResolvedKind (names : List Ident) (map : List (Ident × Nat)) (syms : Symbols)
    (h : Handler) (trig : TriggerIr) : HandlerKindIr → Prop where
  | transition {t : Nat} : h.target ∈ names → h.trigger.use = none →
      triggerRepeats syms.durationTriggers trig = false → map.lookup h.target = some t →
      ResolvedKind names map syms h trig (.transition h.target (some t))
  | action {aid : Nat} : h.target ∉ names → syms.ActionAt h.target h.trigger.use aid →
      ResolvedKind names map syms h trig (.action aid h.target)

structure ResolvedHandler (names : List Ident) (map : List (Ident × Nat)) (syms : Symbols)
    (h : Handler) (h' : HandlerIr) : Prop where
  trigger : syms.TriggerAt h.trigger h'.trigger
  kind : ResolvedKind names map syms h h'.trigger h'.kind
  declIndex : h'.declIndex = h.declIndex

/-- A declaration and the state that code generation gets for it. -/
structure ResolvedState (names : List Ident) (map : List (Ident × Nat)) (syms : Symbols)
    (p : Placed) (s : StateIr) : Prop where
  name : s.name = if p.parent.isNone then "__Root" else p.decl.name
  parent : s.parent = p.parent
  entries : List.Forall₂ (fun i aid => syms.ActionAt i none aid) p.decl.body.entries s.entries
  exits : List.Forall₂ (fun i aid => syms.ActionAt i none aid) p.decl.body.exits s.exits
  handlers : List.Forall₂ (ResolvedHandler names map syms) p.decl.body.handlers s.handlers
  durings : s.durings = p.decl.body.durings
  children : s.children.length = p.decl.children.length
  ident : s.defaultTargetIdent = p.decl.body.defaultChild
  default_ : match p.decl.body.defaultChild with
    | none => s.defaultChild = none
    | some x => ∃ t, map.lookup x = some t ∧ s.defaultChild = some t

theorem resolveHandler_laid {names : List Ident} {map : List (Ident × Nat)} {syms : Symbols}
    {h : Handler} {h₁ h' : HandlerIr} (hl : LaidHandler names syms h h₁)
    (hr : resolveHandler map h₁ = .ok h') : ResolvedHandler names map syms h h' := by
  unfold resolveHandler at hr
  obtain ⟨kind, hk, hr⟩ := Except.bind_eq_ok.mp hr
  cases hr
  refine ⟨hl.trigger, ?_, hl.declIndex⟩
  have hkind := hl.kind
  revert hkind hk
  generalize h₁.kind = k
  intro hk hkind
  cases hkind with
  | transition hmem huse hrep =>
      unfold resolveKind at hk
      simp only at hk
      split at hk
      · rename_i id hid
        cases hk
        exact .transition hmem huse hrep hid
      · cases hk
  | action hmem ha =>
      cases hk
      exact .action hmem ha

theorem resolveState_laid {names : List Ident} {map : List (Ident × Nat)} {syms : Symbols}
    {p : Placed} {s s₁ s' : StateIr} (hl : LaidState names syms p s)
    (h₁ : resolveHandlers map s = .ok s₁) (h₂ : resolveDefault map s₁ = .ok s') :
    ResolvedState names map syms p s' := by
  unfold resolveHandlers at h₁
  obtain ⟨hs, hhs, h₁⟩ := Except.bind_eq_ok.mp h₁
  cases h₁
  have hb := hl.body
  have hhandlers : List.Forall₂ (ResolvedHandler names map syms) p.decl.body.handlers hs :=
    (hb.handlers.comp (Except.mapM_forall₂ hhs)).imp
      fun _ _ ⟨_, hlaid, hres⟩ => resolveHandler_laid hlaid hres
  have hident := hb.default_
  unfold resolveDefault at h₂
  simp only at h₂
  split at h₂
  · rename_i hd
    cases h₂
    refine ⟨hl.name, hl.parent, hb.entries, hb.exits, hhandlers, hb.durings, hb.children,
      hident, ?_⟩
    rw [← hident, hd]
    exact hb.unresolved
  · rename_i x hd
    split at h₂
    · rename_i t hlook
      cases h₂
      refine ⟨hl.name, hl.parent, hb.entries, hb.exits, hhandlers, hb.durings, hb.children, hident,
        ?_⟩
      rw [← hident, hd]
      exact ⟨t, hlook, rfl⟩
    · cases h₂

/-! ## The whole chart -/

/-- The resolved states are the declared states, item by item. -/
structure Laid (input : StatechartInput) (ir : Ir) : Prop where
  name : ir.name = input.name
  tree : TreeOk ir.states
  pos : 0 < ir.states.length
  ok : ir.symbols.Ok
  states : List.Forall₂ (ResolvedState input.stateNames (nameMap ir) ir.symbols)
    input.layout ir.states

theorem nameMap_of_skeleton {ir ir' : Ir} (hname : ir'.name = ir.name)
    (h : ir'.states.map StateIr.skeleton = ir.states.map StateIr.skeleton) :
    nameMap ir' = nameMap ir := by
  -- the map reads only names, parents and ids
  have hmap : ∀ states : List StateIr, nameMap { ir with states } =
      (match (states.map StateIr.skeleton).find? fun k => k.2.2.1.isNone with
        | some k => [(ir.name, k.1)]
        | none => []) ++
      (((states.map StateIr.skeleton).filter fun k => k.2.1 != "__Root").map
        fun k => (k.2.1, k.1)).reverse := by
    intro states
    unfold nameMap
    rw [List.filter_map, List.map_map, List.find?_map]
    have hfind : (fun k : Nat × Ident × Option Nat × Nat => k.2.2.1.isNone) ∘ StateIr.skeleton =
        fun s => s.parent.isNone := rfl
    have hfilter : (fun k : Nat × Ident × Option Nat × Nat => k.2.1 != "__Root") ∘
        StateIr.skeleton = fun s => s.name != "__Root" := rfl
    rw [hfind, hfilter]
    cases states.find? fun s => s.parent.isNone <;> rfl
  have h' := hmap ir'.states
  rw [h, ← hmap ir.states] at h'
  rw [← h']
  unfold nameMap
  rw [hname]

theorem resolved_lays {input : StatechartInput} {ir : Ir}
    (h : buildIr input >>= resolveTransitions = .ok ir) (hlen : ir.states.length ≤ 65536) :
    Laid input ir := by
  obtain ⟨ir₀, h₀, h₁⟩ := Except.bind_eq_ok.mp h
  have hw := resolved_wellFormed h₀ h₁ hlen
  have hres := resolveTransitions_spec h₁
  unfold resolveTransitions at h₁
  simp only at h₁
  obtain ⟨states₁, hhs, h₁⟩ := Except.bind_eq_ok.mp h₁
  obtain ⟨states₂, hds, h₁⟩ := Except.bind_eq_ok.mp h₁
  cases h₁
  have hlen₀ : ir₀.states.length = states₂.length := hres.2.length_eq
  obtain ⟨hname, hok, hlaid⟩ := buildIr_lays h₀ (by rw [hlen₀]; exact hlen)
  have hmap : nameMap { ir₀ with states := states₂ } = nameMap ir₀ :=
    nameMap_of_skeleton rfl (map_skeleton_of_resolved hres.2)
  refine ⟨hname, hw.tree, hw.nonempty, hok, ?_⟩
  rw [hmap]
  exact ((hlaid.comp (Except.mapM_forall₂ hhs)).comp (Except.mapM_forall₂ hds)).imp
    fun _ _ ⟨_, ⟨_, hl, hh⟩, hd⟩ => resolveState_laid hl hh hd

end Hsmc
