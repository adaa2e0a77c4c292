import Hsmc.Lib.ParentTree
import Hsmc.Link.Build

/-
  The state tree behind an `Ir`, and the walks of code generation on it.

  A `StateTree states` is a rooted tree on the indices of `states`, with any numbering, whose
  parents are the stored ones and whose levels are the stored depths modulo 256. `TreeOk` gives
  one (`TreeOk.stateTree`), so every `Ir` that is lowered has it.

  The walks of `codegen.rs` are walks of this tree: `walkToRoot` is `up`, `walkBelow` and
  `upWalk` are `segment`, `isStrictAncestor` is membership in `up`, and `lca` finds the deepest
  common ancestor.
-/

namespace Hsmc

/-- The states form a rooted tree. -/
structure StateTree (states : List StateIr) where
  level : Nat → Nat
  root : Nat
  level_root : ∀ {s}, parentOf states s = none → level s = 0
  level_parent : ∀ {s p}, parentOf states s = some p → level s = level p + 1
  parent_lt : ∀ {s p}, parentOf states s = some p → p < states.length
  root_lt : root < states.length
  parent_root : parentOf states root = none
  root_unique : ∀ {s}, s < states.length → parentOf states s = none → s = root
  depth_eq : ∀ {s}, s < states.length → depthOf states s = level s % 256

/-- The level of a state, for parents numbered before their children. -/
def levelOf (states : List StateIr) (s : Nat) : Nat :=
  match parentOf states s with
  | none => 0
  | some p => if p < s then levelOf states p + 1 else 0
termination_by s

theorem levelOf_of_none {states : List StateIr} {s : Nat} (h : parentOf states s = none) :
    levelOf states s = 0 := by
  rw [levelOf, h]

theorem levelOf_of_some {states : List StateIr} {s p : Nat} (h : parentOf states s = some p)
    (hlt : p < s) : levelOf states s = levelOf states p + 1 := by
  rw [levelOf, h]
  simp [hlt]

theorem TreeOk.parent_lt {states : List StateIr} (ht : TreeOk states) {s p : Nat}
    (h : parentOf states s = some p) : p < s ∧ p < states.length := by
  unfold parentOf at h
  obtain ⟨x, hx, hp⟩ := Option.bind_eq_some_iff.mp h
  by_cases h0 : s = 0
  · subst h0
    rw [(ht.root x hx).1] at hp
    cases hp
  · obtain ⟨p', q, hp', hlt, hq, -⟩ := ht.child s x hx h0
    rw [hp] at hp'
    cases hp'
    exact ⟨hlt, (List.getElem?_eq_some_iff.mp hq).1⟩

theorem TreeOk.depth_eq {states : List StateIr} (ht : TreeOk states) : ∀ (s : Nat),
    s < states.length → depthOf states s = levelOf states s % 256 := by
  intro s
  induction s using Nat.strong_induction_on with
  | _ s ih =>
      intro hs
      obtain ⟨x, hx⟩ : ∃ x, states[s]? = some x := ⟨_, List.getElem?_eq_getElem hs⟩
      by_cases h0 : s = 0
      · subst h0
        have hp : parentOf states 0 = none := by simp [parentOf, hx, (ht.root x hx).1]
        simp [depthOf, hx, (ht.root x hx).2, levelOf_of_none hp]
      · obtain ⟨p, q, hp, hlt, hq, hd⟩ := ht.child s x hx h0
        have hps : parentOf states s = some p := by simp [parentOf, hx, hp]
        have hih := ih p hlt (hlt.trans hs)
        have hdp : depthOf states p = q.depth := by simp [depthOf, hq]
        rw [levelOf_of_some hps hlt]
        have : depthOf states s = x.depth := by simp [depthOf, hx]
        rw [this, hd, ← hdp, hih]
        omega

/-- Parents before children is one numbering of a rooted tree. -/
def TreeOk.stateTree {states : List StateIr} (ht : TreeOk states) (hpos : 0 < states.length) :
    StateTree states where
  level := levelOf states
  root := 0
  level_root := levelOf_of_none
  level_parent h := levelOf_of_some h (ht.parent_lt h).1
  parent_lt h := (ht.parent_lt h).2
  root_lt := hpos
  parent_root := by
    obtain ⟨x, hx⟩ : ∃ x, states[0]? = some x := ⟨_, List.getElem?_eq_getElem hpos⟩
    simp [parentOf, hx, (ht.root x hx).1]
  root_unique {s} hs h := by
    by_contra h0
    obtain ⟨x, hx⟩ : ∃ x, states[s]? = some x := ⟨_, List.getElem?_eq_getElem hs⟩
    obtain ⟨p, -, hp, -⟩ := ht.child s x hx h0
    simp [parentOf, hx, hp] at h
  depth_eq {s} hs := ht.depth_eq s hs

namespace StateTree

variable {states : List StateIr} (T : StateTree states)

def tree : ParentTree Nat where
  parent := parentOf states
  level := T.level
  level_root := T.level_root
  level_parent := T.level_parent

@[simp] theorem tree_parent (s : Nat) : T.tree.parent s = parentOf states s := rfl

@[simp] theorem tree_level (s : Nat) : T.tree.level s = T.level s := rfl

/-! ## Bounds -/

theorem up_lt {s x : Nat} (hs : s < states.length) (h : x ∈ T.tree.up s) : x < states.length := by
  induction s using T.tree.upInduction with
  | root s hp =>
      rw [T.tree.up_of_root hp, List.mem_singleton] at h
      rw [h]; exact hs
  | step s p hp ih =>
      rw [T.tree.up_of_parent hp, List.mem_cons] at h
      rcases h with rfl | h
      · exact hs
      · exact ih (T.parent_lt hp) h

theorem root_mem {s : Nat} (hs : s < states.length) : T.root ∈ T.tree.up s := by
  induction s using T.tree.upInduction with
  | root s hp =>
      rw [T.root_unique hs hp]
      exact T.tree.mem_up_self _
  | step s p hp ih =>
      rw [T.tree.up_of_parent hp]
      exact List.mem_cons_of_mem _ (ih (T.parent_lt hp))

/-- A walk visits no state twice, so it has at most as many steps as there are states. -/
theorem level_lt {s : Nat} (hs : s < states.length) : T.level s < states.length := by
  have hsub : T.tree.up s ⊆ List.range states.length :=
    fun x hx => List.mem_range.mpr (T.up_lt hs hx)
  have hlen := (T.tree.nodup_up s).length_le_of_subset hsub
  rw [T.tree.length_up, List.length_range, tree_level] at hlen
  omega

/-- Every level fits a `u8`. -/
def Shallow : Prop := ∀ s < states.length, T.level s < 256

theorem shallow_of_length (hn : states.length ≤ 256) : T.Shallow :=
  fun _ hs => (T.level_lt hs).trans_le hn

/-- Then no stored depth has wrapped. -/
theorem depth_eq_level (hshallow : T.Shallow) {s : Nat} (hs : s < states.length) :
    depthOf states s = T.level s := by
  rw [T.depth_eq hs, Nat.mod_eq_of_lt (hshallow s hs)]

/-! ## The walks of code generation -/

theorem walkToRoot_eq : ∀ (fuel s : Nat), T.level s < fuel →
    walkToRoot states fuel (some s) = .ok (T.tree.up s)
  | 0, _, h => by omega
  | fuel + 1, s, h => by
      unfold walkToRoot
      cases hp : parentOf states s with
      | none =>
          rw [T.tree.up_of_root hp]
          cases fuel <;> rfl
      | some p =>
          have hlev := T.level_parent hp
          rw [walkToRoot_eq fuel p (by omega), T.tree.up_of_parent hp]
          rfl

theorem walkBelow_eq (stop : Option Nat) : ∀ (fuel s : Nat), T.level s < fuel →
    walkBelow states stop fuel s = .ok (T.tree.segment stop s)
  | 0, _, h => by omega
  | fuel + 1, s, h => by
      unfold walkBelow
      by_cases hstop : some s = stop
      · subst hstop
        simp
      · rw [if_neg hstop]
        cases hp : parentOf states s with
        | none =>
            have : T.tree.segment stop s = [s] := by
              simp [ParentTree.segment, T.tree.up_of_root hp, hstop]
            rw [this]
        | some p =>
            have hlev := T.level_parent hp
            have : T.tree.segment stop s = s :: T.tree.segment stop p := by
              simp [ParentTree.segment, T.tree.up_of_parent hp, hstop]
            simp only [walkBelow_eq stop fuel p (by omega), Except.ok_bind_eq, this]

theorem upWalk_eq {dst : Nat} : ∀ (fuel s : Nat), T.level s < fuel → dst ∈ T.tree.up s →
    upWalk states dst fuel s = .ok (T.tree.segment (some dst) s)
  | 0, _, h, _ => by omega
  | fuel + 1, s, h, hmem => by
      unfold upWalk
      by_cases he : s = dst
      · subst he
        simp
      · rw [if_neg he]
        cases hp : parentOf states s with
        | none =>
            rw [T.tree.up_of_root hp, List.mem_singleton] at hmem
            exact absurd hmem.symm he
        | some p =>
            have hlev := T.level_parent hp
            rw [T.tree.up_of_parent hp, List.mem_cons] at hmem
            have hmem := hmem.resolve_left (Ne.symm he)
            simp only [upWalk_eq fuel p (by omega) hmem, Except.ok_bind_eq,
              T.tree.segment_cons hp he]

theorem isAncestorFrom_iff {anc : Nat} : ∀ (fuel s : Nat), T.level s < fuel →
    (isAncestorFrom states anc fuel (some s) = true ↔ anc ∈ T.tree.up s)
  | 0, _, h => by omega
  | fuel + 1, s, h => by
      unfold isAncestorFrom
      by_cases he : s = anc
      · subst he
        simp
      · rw [if_neg he]
        cases hp : parentOf states s with
        | none =>
            rw [T.tree.up_of_root hp, List.mem_singleton]
            cases fuel <;> simp [isAncestorFrom, Ne.symm he]
        | some p =>
            have hlev := T.level_parent hp
            rw [isAncestorFrom_iff fuel p (by omega), T.tree.up_of_parent hp, List.mem_cons]
            simp [Ne.symm he]

theorem isStrictAncestor_iff {anc s : Nat} (hs : s < states.length) :
    isStrictAncestor states anc s = true ↔ anc ∈ T.tree.up s ∧ anc ≠ s := by
  unfold isStrictAncestor
  cases hp : parentOf states s with
  | none =>
      rw [T.tree.up_of_root hp, List.mem_singleton]
      simp [isAncestorFrom]
  | some p =>
      have hlt := T.level_lt (T.parent_lt hp)
      rw [T.isAncestorFrom_iff _ _ (by omega), T.tree.up_of_parent hp, List.mem_cons]
      constructor
      · intro h
        refine ⟨Or.inr h, ?_⟩
        rintro rfl
        exact T.tree.not_mem_up_parent hp h
      · rintro ⟨h, hne⟩
        exact h.resolve_left hne

theorem climb_eq : ∀ (k s : Nat), climb states k s = T.tree.climb k s
  | 0, _ => rfl
  | k + 1, s => by
      unfold climb ParentTree.climb
      rw [tree_parent]
      congr 1
      funext p
      exact climb_eq k p

theorem lockstep_eq : ∀ (k a b : Nat), lockstep states k a b = T.tree.meet k a b
  | 0, _, _ => rfl
  | k + 1, a, b => by
      unfold lockstep ParentTree.meet
      simp only [tree_parent]
      split
      · rfl
      · congr 1
        funext p
        congr 1
        funext q
        exact lockstep_eq k p q

/-- The depth-aligned search finds the deepest common ancestor. -/
theorem lca_isLca (hshallow : T.Shallow) {a b : Nat} (ha : a < states.length)
    (hb : b < states.length) : ∃ L, lca states a b = some L ∧ T.tree.IsLca a b L := by
  have hda := T.depth_eq_level hshallow ha
  have hdb := T.depth_eq_level hshallow hb
  have hla := T.level_lt ha
  obtain ⟨x, hx, hxa, hlx⟩ := T.tree.climb_of_le (T.level a - T.level b) a (Nat.sub_le _ _)
  obtain ⟨y, hy, hyb, hly⟩ := T.tree.climb_of_le (T.level b - T.level a) b (Nat.sub_le _ _)
  simp only [tree_level] at hlx hly
  have hxlt := T.up_lt ha hxa
  have hylt := T.up_lt hb hyb
  obtain ⟨L, hL, hlca⟩ := T.tree.meet_isLca (states.length + 1) x y T.root
    (by simp only [tree_level]; omega) (by simp only [tree_level]; omega)
    (T.root_mem hxlt) (T.root_mem hylt)
  refine ⟨L, ?_, ?_⟩
  · simp [lca, hda, hdb, T.climb_eq, T.lockstep_eq, hx, hy, hL]
  · -- only the deeper of the two was moved
    rcases Nat.le_total (T.level b) (T.level a) with hle | hle
    · rw [Nat.sub_eq_zero_of_le hle] at hy
      cases hy
      exact hlca.climb hxa (by simp only [tree_level]; omega)
    · rw [Nat.sub_eq_zero_of_le hle] at hx
      cases hx
      exact (hlca.symm.climb hyb (by simp only [tree_level]; omega)).symm

end StateTree

end Hsmc
