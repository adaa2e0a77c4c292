import Hsmc.Link.Checks
import Hsmc.Link.Sound

/-
  Which state a name stands for.

  A state is numbered by its place in the layout of the chart. `TargetsResolve` says that every
  target was resolved to the state of that name. The check for duplicate names leaves out the
  chart's own name, which stands for the root, and every state called `__Root`, so it rejects
  all ambiguous charts but two kinds (`names_unambiguous_iff`).
-/

namespace Hsmc

/-- `x` is used as the target of a transition or of a default. -/
def StatechartInput.Targets (input : StatechartInput) (x : Ident) : Prop :=
  ∃ p ∈ input.layout, p.decl.body.defaultChild = some x ∨
    x ∈ input.stateNames ∧ ∃ h ∈ p.decl.body.handlers, h.target = x

instance (input : StatechartInput) (x : Ident) : Decidable (input.Targets x) :=
  inferInstanceAs (Decidable (∃ p ∈ input.layout, p.decl.body.defaultChild = some x ∨
    x ∈ input.stateNames ∧ ∃ h ∈ p.decl.body.handlers, h.target = x))

/-- Some use of `x` as a target was resolved to the state `id`. -/
def StatechartInput.ResolvesTo (input : StatechartInput) (ir : Ir) (x : Ident) (id : Nat) : Prop :=
  ∃ (i : Nat) (p : Placed) (s : StateIr), input.layout[i]? = some p ∧ ir.states[i]? = some s ∧
    ((p.decl.body.defaultChild = some x ∧ s.defaultChild = some id) ∨
      ∃ (j : Nat) (h : Handler) (h' : HandlerIr), p.decl.body.handlers[j]? = some h ∧
        s.handlers[j]? = some h' ∧ h.target = x ∧ h'.kind = .transition x (some id))

/-- Every target is resolved, and wherever a state of that name is declared, to that state. The
    chart's own name is the name of state 0, the root. -/
structure StatechartInput.TargetsResolve (input : StatechartInput) (ir : Ir) : Prop where
  resolves : ∀ x, input.Targets x → ∃ id, input.ResolvesTo ir x id
  unique : ∀ (x : Ident) (id i : Nat) (p : Placed), input.ResolvesTo ir x id →
    input.layout[i]? = some p → p.decl.name = x → id = i

/-! ## Distinct names -/

/-- A list without duplicates but for one item has none when that item stands there once. -/
theorem nodup_of_filter_ne {α : Type} [DecidableEq α] {l : List α} {x : α}
    (h : (l.filter (· != x)).Nodup) (hx : l.count x ≤ 1) : l.Nodup := by
  rw [List.nodup_iff_count_le_one] at h ⊢
  intro a
  by_cases ha : a = x
  · rw [ha]
    exact hx
  · have := h a
    rwa [List.count_filter (by simpa using ha)] at this

section

variable {input : StatechartInput} {ir : Ir}

/-- The names of the lowered states: the root is renamed. -/
theorem Laid.map_name (hl : Laid input ir) :
    ir.states.map (·.name) = "__Root" :: collectStateNames input.root :=
  map_name_of_layout (fun _ _ h => h.name) hl.states

theorem layout_names (input : StatechartInput) :
    input.layout.map (·.decl.name) = input.stateNames := by
  unfold StatechartInput.layout StatechartInput.stateNames
  rw [map_name_place]
  rfl

/-- No two states have one name, apart from the kinds that the check does not see. -/
theorem nodup_stateNames_iff (hl : Laid input ir) (hv : validate ir = .ok ()) :
    input.stateNames.Nodup ↔ input.name ∉ collectStateNames input.root ∧
      (collectStateNames input.root).count "__Root" ≤ 1 := by
  unfold validate at hv
  simp only [Except.check_bind_eq_ok, checkDuplicateNames_ok_iff] at hv
  have hnd := hv.2.1.1
  rw [hl.map_name] at hnd
  unfold StatechartInput.stateNames
  rw [List.nodup_cons]
  refine and_congr_right fun _ => ⟨fun h => List.nodup_iff_count_le_one.mp h _, fun h => ?_⟩
  exact nodup_of_filter_ne (by simpa using hnd) h

/-! ## Resolved targets -/

theorem Laid.lookup_of_resolvesTo (hl : Laid input ir) {x : Ident} {id : Nat}
    (h : input.ResolvesTo ir x id) : (nameMap ir).lookup x = some id := by
  obtain ⟨i, p, s, hp, hs, hor⟩ := h
  obtain ⟨s', hs', hst⟩ := hl.states.exists_of_getElem? hp
  rw [hs] at hs'
  cases hs'
  rcases hor with ⟨hdef, hid⟩ | ⟨j, h, h', hh, hh', -, hkind⟩
  · have hd := hst.default_
    rw [hdef] at hd
    obtain ⟨t, hlook, ht⟩ := hd
    rw [hid] at ht
    cases ht
    exact hlook
  · obtain ⟨h'', hh'', hres⟩ := hst.handlers.exists_of_getElem? hh
    rw [hh'] at hh''
    cases hh''
    have hk := hres.kind
    rw [hkind] at hk
    cases hk with
    | transition _ _ _ hlook => exact hlook

theorem Laid.resolves (hl : Laid input ir) {x : Ident} (h : input.Targets x) :
    ∃ id, input.ResolvesTo ir x id := by
  obtain ⟨p, hp, hor⟩ := h
  obtain ⟨i, hi⟩ := List.mem_iff_getElem?.mp hp
  obtain ⟨s, hs, hst⟩ := hl.states.exists_of_getElem? hi
  rcases hor with hdef | ⟨hx, h, hh, rfl⟩
  · have hd := hst.default_
    rw [hdef] at hd
    obtain ⟨t, -, ht⟩ := hd
    exact ⟨t, i, p, s, hi, hs, .inl ⟨hdef, ht⟩⟩
  · obtain ⟨j, hj⟩ := List.mem_iff_getElem?.mp hh
    obtain ⟨h', hj', hres⟩ := hst.handlers.exists_of_getElem? hj
    have hk := hres.kind
    generalize hkind : h'.kind = kind at hk
    cases hk with
    | @transition t _ _ _ _ => exact ⟨t, i, p, s, hi, hs, .inr ⟨j, h, h', hj, hj', rfl, hkind⟩⟩
    | action hno _ => exact absurd hx hno

/-- With distinct names, the map takes each name to the state of that name. -/
theorem Laid.eq_of_lookup (hl : Laid input ir) (hnd : input.stateNames.Nodup) {x : Ident}
    {id i : Nat} {p : Placed} (hlook : (nameMap ir).lookup x = some id)
    (hp : input.layout[i]? = some p) (hx : p.decl.name = x) : id = i := by
  rw [← layout_names] at hnd
  have hindex : ∀ {q : Placed}, input.layout[id]? = some q → q.decl.name = x → id = i :=
    fun hq hname =>
      hnd.index_unique (f := fun p : Placed => p.decl.name) hq hp (hname.trans hx.symm)
  by_cases hroot : x = ir.name
  · rw [hroot, lookup_name hl.tree hl.pos, Option.some.injEq] at hlook
    subst hlook
    refine hindex (q := ⟨none, input.root⟩) (by rw [input.layout_eq]; rfl) ?_
    rw [hroot, hl.name]
    rfl
  · obtain ⟨hne, s, hs, hname⟩ := mem_of_lookup hl.tree hl.pos hroot hlook
    obtain ⟨q, hq, hst⟩ := hl.states.flip.exists_of_getElem? hs
    refine hindex hq ?_
    -- the root was renamed, and `x` is not its new name
    have hqname := hst.name
    rw [hname] at hqname
    split at hqname
    · exact absurd hqname hne
    · exact hqname.symm

end

/-! ## Unambiguous names -/

/-- Every target is resolved to the state of that name, and no name denotes two states. -/
def StatechartInput.Unambiguous (input : StatechartInput) (ir : Ir) : Prop :=
  input.TargetsResolve ir ∧ input.stateNames.Nodup

/-- An accepted chart is unambiguous unless a state is called as the chart is, or two are called
    `__Root`. -/
theorem names_unambiguous_iff {input : StatechartInput} {c : Chart} {ir : Ir}
    (h : Accepted input c ir) : input.Unambiguous ir ↔
      input.name ∉ collectStateNames input.root ∧
        (collectStateNames input.root).count "__Root" ≤ 1 := by
  have hl : Laid input ir := resolved_lays h.resolved (by have := h.nStates_le; omega)
  rw [← nodup_stateNames_iff hl h.validated]
  refine ⟨fun hu => hu.2, fun hnd => ⟨⟨fun x hx => hl.resolves hx, ?_⟩, hnd⟩⟩
  intro x id i p hres hp hx
  exact hl.eq_of_lookup hnd (hl.lookup_of_resolvesTo hres) hp hx

/-! ## A state called as its chart -/

theorem lampIr_isOk : (buildIr lamp >>= resolveTransitions).isOk = true := by decide +kernel

def lampIr : Ir := Except.get _ lampIr_isOk

theorem lamp_resolved : Accepted lamp lampChart lampIr :=
  .of_resolved (Except.eq_ok_get _ lampIr_isOk) lamp_accepted

theorem names_unambiguous_iff_lamp : lamp.Unambiguous lampIr :=
  (names_unambiguous_iff lamp_resolved).mpr (by decide +kernel)

/-- Going down asks for the state `Shade`, and gets the root. -/
def shade : StatechartInput where
  name := "Shade"
  body := {
    contextTy := some "ShadeCtx", eventTy := some "ShadeEvent", defaultChild := some "Raised"
    defaultCount := 1 }
  children := [
    .mk "Raised" { handlers := [⟨.event "Lower" none, "Shade", 0⟩] } [],
    .mk "Shade" { entries := ["unroll"] } []]

theorem shade_isOk : (statechartImpl shade).isOk = true := by decide +kernel

theorem shadeIr_isOk : (buildIr shade >>= resolveTransitions).isOk = true := by decide +kernel

def shadeIr : Ir := Except.get _ shadeIr_isOk

def shadeChart : Chart := Except.get _ shade_isOk

theorem shade_resolved : Accepted shade shadeChart shadeIr :=
  .of_resolved (Except.eq_ok_get _ shadeIr_isOk) (Except.eq_ok_get _ shade_isOk)

/-- The handler of `Raised`, lowered and resolved. -/
def lowerRaised : HandlerIr := ⟨.event 0 "Lower" none, .transition "Shade" (some 0), 0⟩

theorem shade_ambiguous : Accepted shade shadeChart shadeIr ∧
    shade.ResolvesTo shadeIr "Shade" 0 ∧ shade.layout[2]?.map (·.decl.name) = some "Shade" ∧
    ¬ shade.Unambiguous shadeIr := by
  have hraised : shadeIr.states[1]?.map (·.handlers) = some [lowerRaised] := by decide +kernel
  obtain ⟨s, hs, hh⟩ := Option.map_eq_some_iff.mp hraised
  refine ⟨shade_resolved, ⟨1, ⟨some 0, .mk "Raised"
    { handlers := [⟨.event "Lower" none, "Shade", 0⟩] } []⟩, s, rfl, hs, .inr ⟨0,
      ⟨.event "Lower" none, "Shade", 0⟩, lowerRaised, rfl, by rw [hh]; rfl, rfl, rfl⟩⟩, rfl, ?_⟩
  rintro ⟨-, hnd⟩
  exact absurd hnd (by decide +kernel)

end Hsmc
