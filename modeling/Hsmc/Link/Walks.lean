import Hsmc.Abstract.Meaning
import Hsmc.Safety.Calls
import Hsmc.Safety.Names

/-
  The walks to the root, by name and by id.

  A state is numbered by its place in the layout, and its walk stands at the same place among
  the walks of the chart (`layout_walks`). So the walk that a name stands for is the chain of
  parents of the state's id (`Accepted.walkTo_eq`), which is what lets the meaning, where no ids
  occur, follow the tables.
-/

namespace Hsmc

/-! ## One walk for each place -/

/-- The walk of a placed state: itself, before the walk of its parent. -/
def WalkOf (walks : List (List StateDecl)) (p : Placed) (walk : List StateDecl) : Prop :=
  walk = p.decl :: (p.parent.bind fun i => walks[i]?).getD []

mutual

theorem place_walks {walks : List (List StateDecl)} : ∀ (d : StateDecl) {above : List StateDecl}
    {parent : Option Nat} {id : Nat} {pre post : List (List StateDecl)}, id = pre.length →
    walks = pre ++ (d.walks above ++ post) → above = (parent.bind fun i => walks[i]?).getD [] →
    List.Forall₂ (WalkOf walks) (d.place parent id) (d.walks above)
  | .mk name body children, above, parent, id, pre, post, hid, hw, habove => by
      unfold StateDecl.walks at hw ⊢
      unfold StateDecl.place
      refine .cons (by rw [habove]; rfl) ?_
      have hnext : id + 1 = (pre ++ [.mk name body children :: above]).length := by simp [hid]
      refine placeAll_walks children hnext (by simpa using hw) ?_
      rw [hw, hid]
      simp

theorem placeAll_walks {walks : List (List StateDecl)} : ∀ (cs : List StateDecl)
    {above : List StateDecl} {parent next : Nat} {pre post : List (List StateDecl)},
    next = pre.length → walks = pre ++ (walksAll above cs ++ post) →
    above = (walks[parent]?).getD [] →
    List.Forall₂ (WalkOf walks) (placeAll parent next cs) (walksAll above cs)
  | [], _, _, _, _, _, _, _, _ => by
      unfold placeAll walksAll
      exact .nil
  | c :: cs, above, parent, next, pre, post, hnext, hw, habove => by
      unfold walksAll at hw ⊢
      unfold placeAll
      rw [List.append_assoc] at hw
      have hfirst : List.Forall₂ (WalkOf walks) (c.place (some parent) next) (c.walks above) :=
        place_walks c hnext hw habove
      have hlen : next + (c.place (some parent) next).length =
          (pre ++ c.walks above).length := by
        rw [hfirst.length_eq, hnext, List.length_append]
      exact List.rel_append hfirst (placeAll_walks cs hlen (by simpa using hw) habove)

end

/-- The states of the layout and the walks, in the same order. -/
theorem layout_walks (input : StatechartInput) :
    List.Forall₂ (WalkOf input.walks) input.layout input.walks := by
  have hid : 0 = ([] : List (List StateDecl)).length := rfl
  have hw : input.walks = [] ++ (input.root.walks [] ++ []) := by
    rw [List.nil_append, List.append_nil]
    rfl
  exact place_walks input.root hid hw rfl

theorem heads_walks {walks : List (List StateDecl)} {ps : List Placed}
    {ws : List (List StateDecl)} (h : List.Forall₂ (WalkOf walks) ps ws) :
    ws.map List.head? = ps.map fun p => some p.decl := by
  induction h with
  | nil => rfl
  | cons hp _ ih => rw [List.map_cons, List.map_cons, ih, hp, List.head?_cons]

/-- The declared states are the placed ones. -/
theorem states_eq (input : StatechartInput) : input.states = input.layout.map (·.decl) := by
  have h := heads_walks (layout_walks input)
  calc input.states = (input.walks.map List.head?).filterMap id := by
        rw [List.filterMap_map]
        rfl
    _ = input.layout.map (·.decl) := by
        rw [h, List.filterMap_map]
        exact congrFun List.filterMap_eq_map _

/-- The declaration with this id. -/
def StatechartInput.declAt (input : StatechartInput) (s : Nat) : StateDecl :=
  ((input.layout[s]?).map (·.decl)).getD input.root

theorem declAt_zero (input : StatechartInput) : input.declAt 0 = input.root := by
  unfold StatechartInput.declAt
  rw [input.layout_eq]
  rfl

section

variable {input : StatechartInput} {c : Chart} {ir : Ir} {s : Nat}

/-- What stands at an id: the declaration and the lowered state. -/
theorem Accepted.placed (ha : Accepted input c ir) (hs : s < c.nStates) : ∃ p x,
    input.layout[s]? = some p ∧ ir.states[s]? = some x ∧ input.declAt s = p.decl ∧
      ResolvedState input.stateNames (nameMap ir) ir.symbols p x := by
  rw [(generate_spec ha.generated).nStates] at hs
  obtain ⟨p, hp, hr⟩ :=
    ha.laid.states.flip.exists_of_getElem? (List.getElem?_eq_getElem hs)
  refine ⟨p, _, hp, List.getElem?_eq_getElem hs, ?_, hr⟩
  unfold StatechartInput.declAt
  rw [hp]
  rfl

theorem Accepted.walk_get (ha : Accepted input c ir) (hs : s < c.nStates) :
    input.walks[s]? = some ((ha.sound.tree.up s).map input.declAt) := by
  induction s using ha.sound.tree.upInduction with
  | root s hroot =>
      obtain ⟨p, x, hp, hx, hdecl, hr⟩ := ha.placed hs
      obtain ⟨w, hw, hwalk⟩ := (layout_walks input).exists_of_getElem? hp
      have hparent : p.parent = none := by
        rw [← hr.parent]
        rw [ha.sound.parent_eq, (generate_spec ha.generated).parentOf_eq] at hroot
        simpa [parentOf, hx] using hroot
      rw [hw, hwalk, hparent, ha.sound.tree.up_of_root hroot, List.map_singleton, hdecl]
      rfl
  | step s q hq ih =>
      obtain ⟨p, x, hp, hx, hdecl, hr⟩ := ha.placed hs
      obtain ⟨w, hw, hwalk⟩ := (layout_walks input).exists_of_getElem? hp
      have hparent : p.parent = some q := by
        rw [← hr.parent]
        rw [ha.sound.parent_eq, (generate_spec ha.generated).parentOf_eq] at hq
        simpa [parentOf, hx] using hq
      have hqlt : q < c.nStates := ha.sound.up_lt hs (by
        rw [ha.sound.tree.up_of_parent hq]
        exact List.mem_cons_of_mem _ (ha.sound.tree.mem_up_self q))
      rw [hw, hwalk, hparent, Option.bind_some, ih hqlt, Option.getD_some,
        ha.sound.tree.up_of_parent hq, List.map_cons, hdecl]

theorem Accepted.declAt_name (ha : Accepted input c ir) (hs : s < c.nStates) :
    input.stateNames[s]? = some (input.declAt s).name := by
  obtain ⟨p, -, hp, -, hdecl, -⟩ := ha.placed hs
  rw [← layout_names, List.getElem?_map, hp, hdecl]
  rfl

/-- Different states have different names. -/
theorem Accepted.declAt_inj (ha : Accepted input c ir) (hnd : input.stateNames.Nodup) {s' : Nat}
    (hs : s < c.nStates) (hs' : s' < c.nStates)
    (h : (input.declAt s).name = (input.declAt s').name) : s = s' := by
  have hlt : s < input.stateNames.length :=
    (List.getElem?_eq_some_iff.mp (ha.declAt_name hs)).1
  refine (List.getElem?_inj hlt hnd).mp ?_
  rw [ha.declAt_name hs, ha.declAt_name hs', h]

/-- The state that a target was resolved to has the target's name. -/
theorem Accepted.name_of_lookup (ha : Accepted input c ir) {x : Ident}
    (h : (nameMap ir).lookup x = some s) : s < c.nStates ∧ (input.declAt s).name = x := by
  have hl := ha.laid
  rw [(generate_spec ha.generated).nStates]
  by_cases hroot : x = ir.name
  · rw [hroot, lookup_name hl.tree hl.pos, Option.some.injEq] at h
    rw [← h, declAt_zero, hroot, hl.name]
    exact ⟨hl.pos, rfl⟩
  · obtain ⟨hne, y, hy, hname⟩ := mem_of_lookup hl.tree hl.pos hroot h
    have hlt : s < ir.states.length := (List.getElem?_eq_some_iff.mp hy).1
    rw [← (generate_spec ha.generated).nStates] at hlt
    obtain ⟨p, x', -, hx', hdecl, hr⟩ := ha.placed hlt
    rw [hy] at hx'
    cases hx'
    have hr' := hr.name
    rw [hname] at hr'
    split at hr'
    · exact absurd hr' hne
    · rw [(generate_spec ha.generated).nStates] at hlt
      exact ⟨hlt, by rw [hdecl, hr']⟩

/-- The walk that a state's name stands for is the chain of its parents. -/
theorem Accepted.walkTo_eq (ha : Accepted input c ir) (hnd : input.stateNames.Nodup)
    (hs : s < c.nStates) :
    input.walkTo (input.declAt s).name = (ha.sound.tree.up s).map input.declAt := by
  have hget := ha.walk_get hs
  have hhead : ∀ {i : Nat}, i < c.nStates →
      ((ha.sound.tree.up i).map input.declAt).head? = some (input.declAt i) := by
    intro i hi
    obtain ⟨l, hl⟩ := ha.sound.tree.up_eq_cons i
    rw [hl]
    rfl
  obtain ⟨w, hw⟩ : ∃ w, input.walks.find?
      (fun walk => walk.head?.any (·.name == (input.declAt s).name)) = some w := by
    rw [← Option.isSome_iff_exists, List.find?_isSome]
    exact ⟨_, List.mem_of_getElem? hget, by rw [hhead hs]; simp⟩
  unfold StatechartInput.walkTo
  rw [hw, Option.getD_some]
  obtain ⟨i, hi⟩ := List.mem_iff_getElem?.mp (List.mem_of_find?_eq_some hw)
  have hlt : i < c.nStates := by
    rw [(generate_spec ha.generated).nStates, ← ha.laid.states.length_eq,
      (layout_walks input).length_eq]
    exact (List.getElem?_eq_some_iff.mp hi).1
  rw [ha.walk_get hlt, Option.some.injEq] at hi
  have hfound := List.find?_some hw
  rw [← hi, hhead hlt] at hfound
  have hname : (input.declAt i).name = (input.declAt s).name := by simpa using hfound
  rw [← hi, ha.declAt_inj hnd hlt hs hname]

end

end Hsmc
