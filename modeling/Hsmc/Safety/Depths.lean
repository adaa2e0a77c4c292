import Hsmc.Link.Layout
import Hsmc.Link.Paths
import Hsmc.Safety.Order

/-
  Depths do not wrap.

  `lower_body` counts depths in a `u8` and checks nothing. Still a chart nested 256 deep never
  gets its path tables: the exits from the states on one branch to the states above them grow
  with the cube of its length (`StateTree.level_cube_le`), and their offsets are `u16`. So where
  the tables are built, every stored depth is the nesting depth of the declaration
  (`depths_exact`).
-/

namespace Hsmc

/-! ## Nesting -/

mutual

/-- How deep a declaration and those within it are nested, in the order of their ids. -/
def StateDecl.nesting (depth : Nat) : StateDecl → List Nat
  | .mk _ _ children => depth :: nestingAll (depth + 1) children

def nestingAll (depth : Nat) : List StateDecl → List Nat
  | [] => []
  | c :: cs => c.nesting depth ++ nestingAll depth cs

end

def StatechartInput.nesting (input : StatechartInput) : List Nat := input.root.nesting 0

/-- `level` counts one more for a declaration than for the one it is declared in. -/
def LevelsOf (level : Nat → Nat) (ps : List Placed) (id : Nat) : Prop :=
  ∀ x ∈ ps.zipIdx id, ∀ parent, x.1.parent = some parent → level x.2 = level parent + 1

section

variable {level : Nat → Nat}

theorem levelsOf_cons {p : Placed} {ps : List Placed} {id : Nat} :
    LevelsOf level (p :: ps) id ↔
      (∀ parent, p.parent = some parent → level id = level parent + 1) ∧
        LevelsOf level ps (id + 1) := by
  unfold LevelsOf
  rw [List.zipIdx_cons, List.forall_mem_cons]

theorem levelsOf_append {ps ps' : List Placed} {id : Nat} :
    LevelsOf level (ps ++ ps') id ↔ LevelsOf level ps id ∧ LevelsOf level ps' (id + ps.length) := by
  unfold LevelsOf
  rw [List.zipIdx_append, List.forall_mem_append]

mutual

/-- Such levels are the nesting depths. -/
theorem map_level_place : ∀ (d : StateDecl) (parent : Option Nat) (id : Nat),
    LevelsOf level (d.place parent id) id →
    (List.range' id (d.place parent id).length).map level = d.nesting (level id)
  | .mk name body children, parent, id, h => by
      unfold StateDecl.place at h ⊢
      unfold StateDecl.nesting
      obtain ⟨-, hchildren⟩ := levelsOf_cons.mp h
      rw [List.length_cons, List.range'_succ, List.map_cons,
        map_level_placeAll children id (id + 1) hchildren]

theorem map_level_placeAll : ∀ (cs : List StateDecl) (parent next : Nat),
    LevelsOf level (placeAll parent next cs) next →
    (List.range' next (placeAll parent next cs).length).map level = nestingAll (level parent + 1) cs
  | [], _, _, _ => by
      unfold placeAll nestingAll
      rfl
  | c :: cs, parent, next, h => by
      unfold placeAll at h ⊢
      unfold nestingAll
      obtain ⟨hc, hcs⟩ := levelsOf_append.mp h
      have hnext : level next = level parent + 1 := by
        cases c with
        | mk name body children =>
            unfold StateDecl.place at hc
            exact (levelsOf_cons.mp hc).1 parent rfl
      rw [List.length_append, ← List.range'_append_1, List.map_append,
        map_level_place c (some parent) next hc, map_level_placeAll cs parent _ hcs, hnext]

end

end

variable {input : StatechartInput} {ir : Ir}

/-- The levels of the lowered tree are the nesting depths of the text. -/
theorem map_levelOf (hb : buildIr input = .ok ir) (hn : ir.states.length ≤ 65536) :
    (List.range ir.states.length).map (levelOf ir.states) = input.nesting := by
  obtain ⟨ht, hpos, -⟩ := buildIr_spec hb hn
  obtain ⟨-, -, hlaid⟩ := buildIr_lays hb hn
  have hlevels : LevelsOf (levelOf ir.states) input.layout 0 := by
    rintro ⟨p, i⟩ hx parent hp
    have hget := List.mem_zipIdx_iff_getElem?.mp hx
    obtain ⟨s, hs, hstate⟩ := hlaid.exists_of_getElem? hget
    have hparent : parentOf ir.states i = some parent := by
      unfold parentOf
      rw [hs, Option.bind_some, hstate.parent, hp]
    exact levelOf_of_some hparent (ht.parent_lt hparent).1
  have hmap := map_level_place input.root none 0 hlevels
  have hroot : levelOf ir.states 0 = 0 := levelOf_of_none (ht.stateTree hpos).parent_root
  rw [hroot] at hmap
  rw [List.range_eq_range', ← hlaid.length_eq]
  exact hmap

theorem map_depthOf (states : List StateIr) :
    (List.range states.length).map (depthOf states) = states.map (·.depth) := by
  refine List.ext_getElem (by simp) fun i hi hi' => ?_
  have hlt : i < states.length := by simpa using hi'
  simp [depthOf, List.getElem?_eq_getElem hlt]

/-- In a chart of at most 65535 states whose path tables are built, no declaration is nested 256
    deep; the stored depths are the nesting depths; the depth-aligned search finds the deepest
    common ancestor of any two states; and the depths by which the timer table picks an expired
    timer are the nesting depths too. -/
theorem depths_exact (hb : buildIr input = .ok ir) (hn : ir.states.length ≤ 65535)
    {t : TransitionPathTables} (ht : computeTransitionPaths ir.states = .ok t) :
    (∀ d ∈ input.nesting, d < 256) ∧
    ir.states.map (·.depth) = input.nesting ∧
    (∃ T : StateTree ir.states, (List.range ir.states.length).map T.level = input.nesting ∧
      ∀ a b, a < ir.states.length → b < ir.states.length →
        ∃ L, lca ir.states a b = some L ∧ T.tree.IsLca a b L) ∧
    ∀ ir' c, resolveTransitions ir = .ok ir' → generate ir' = .ok c → c.depth = input.nesting := by
  obtain ⟨htree, hpos, -⟩ := buildIr_spec hb (hn.trans (by decide))
  have hnesting := map_levelOf hb (hn.trans (by decide))
  have hshallow := (htree.stateTree hpos).shallow_of_paths hn ht
  have hdepths : ir.states.map (·.depth) = input.nesting := by
    rw [← hnesting, ← map_depthOf]
    refine List.map_congr_left fun s hs => ?_
    exact (htree.stateTree hpos).depth_eq_level hshallow (List.mem_range.mp hs)
  refine ⟨?_, hdepths, ⟨htree.stateTree hpos, hnesting, fun a b ha hb =>
    (htree.stateTree hpos).lca_isLca hshallow ha hb⟩, fun ir' c hr hg => ?_⟩
  · rw [← hnesting, List.forall_mem_map]
    exact fun s hs => hshallow s (List.mem_range.mp hs)
  · have hskeleton := map_skeleton_of_resolved (resolveTransitions_spec hr).2
    have hkept := congrArg (List.map fun k => k.2.2.2) hskeleton
    rw [List.map_map, List.map_map] at hkept
    rw [(generate_spec hg).depth, ← hdepths]
    exact hkept

theorem lamp_builds : (buildIr lamp).isOk = true := by decide +kernel

theorem lamp_paths : (computeTransitionPaths (Except.get _ lamp_builds).states).isOk = true := by
  decide +kernel

theorem depths_exact_lamp : (Except.get _ lamp_builds).states.map (·.depth) = [0, 1, 1] :=
  (depths_exact (Except.eq_ok_get _ lamp_builds) (by decide +kernel)
    (Except.eq_ok_get _ lamp_paths)).2.1

end Hsmc
