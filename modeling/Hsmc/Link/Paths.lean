import Mathlib.Algebra.BigOperators.Group.List.Basic
import Mathlib.Algebra.GroupWithZero.Nat
import Hsmc.Lib.Slices
import Hsmc.Link.Tree

/-
  The precomputed path tables.

  * `computeOne_eq`: when no depth has wrapped, the exit and the enter path of a pair are those
    of the tree (`ParentTree.exitPath`, `ParentTree.enterPath`).
  * `StateTree.level_cube_le`: the offsets bound the depth of the tree, whatever depths are
    stored.
  * `pathTables_spec`: the two blobs folded into one hold the paths of every pair, each found
    again by its range; and the tables can only be built for at most 255 states.
  * `path_tables_lca`: these are the paths around the effective lowest common ancestor.
  * `terminatePaths_spec`: the same for the walks to the root.
-/

namespace Hsmc

variable {states : List StateIr}

/-! ## One pair -/

/-- Going up to a state above leaves the walk to it, whatever depths are stored. -/
theorem computeOne_up (T : StateTree states) {src dst : Nat} (hs : src < states.length)
    (hm : dst ∈ T.tree.up src) (hne : src ≠ dst) :
    computeOne states src dst = .ok (T.tree.segment (some dst) src, []) := by
  have hls := T.level_lt hs
  have hanc : isStrictAncestor states dst src = true :=
    (T.isStrictAncestor_iff hs).mpr ⟨hm, Ne.symm hne⟩
  unfold computeOne
  rw [if_pos ⟨hne, hanc⟩, T.upWalk_eq _ _ (by omega) hm]
  rfl

/-- No walk fails, whatever depths are stored. -/
theorem computeOne_isOk (T : StateTree states) {src dst : Nat} (hs : src < states.length)
    (hd : dst < states.length) : ∃ r, computeOne states src dst = .ok r := by
  have hls := T.level_lt hs
  have hld := T.level_lt hd
  by_cases he : src = dst
  · exact ⟨([dst], [dst]), by simp [computeOne, he]⟩
  · by_cases hm : dst ∈ T.tree.up src
    · exact ⟨_, computeOne_up T hs hm he⟩
    · have hanc : ¬ (src ≠ dst ∧ isStrictAncestor states dst src = true) :=
        fun h => hm ((T.isStrictAncestor_iff hs).mp h.2).1
      unfold computeOne
      rw [if_neg hanc, if_neg he]
      simp only [T.walkBelow_eq _ _ _ (Nat.lt_succ_of_lt hls),
        T.walkBelow_eq _ _ _ (Nat.lt_succ_of_lt hld), Except.ok_bind_eq]
      exact ⟨_, rfl⟩

theorem computeOne_eq (T : StateTree states) (hshallow : T.Shallow) {src dst : Nat}
    (hs : src < states.length) (hd : dst < states.length) :
    computeOne states src dst = .ok (T.tree.exitPath src dst, T.tree.enterPath src dst) := by
  have hls := T.level_lt hs
  have hld := T.level_lt hd
  unfold ParentTree.exitPath ParentTree.enterPath ParentTree.turn
  by_cases he : src = dst
  · subst he
    have := T.tree.segment_parent src
    rw [StateTree.tree_parent] at this
    simp [computeOne, this]
  · by_cases hm : dst ∈ T.tree.up src
    · rw [computeOne_up T hs hm he]
      simp [he, hm]
    · have hanc : ¬ (src ≠ dst ∧ isStrictAncestor states dst src = true) :=
        fun h => hm ((T.isStrictAncestor_iff hs).mp h.2).1
      obtain ⟨L, hL, hlca⟩ := T.lca_isLca hshallow hs hd
      obtain ⟨L', hL', hlca'⟩ := T.tree.lca_isLca (T.root_mem hs) (T.root_mem hd)
      rw [hlca'.unique hlca] at hL'
      unfold computeOne
      rw [if_neg hanc, if_neg he, if_neg he, if_neg hm]
      simp only [hL, hL', T.walkBelow_eq _ _ _ (Nat.lt_succ_of_lt hls),
        T.walkBelow_eq _ _ _ (Nat.lt_succ_of_lt hld), Except.ok_bind_eq]

theorem eq_of_walkBelow_nil {stop : Option Nat} {fuel s : Nat}
    (h : walkBelow states stop fuel s = .ok []) : some s = stop := by
  cases fuel with
  | zero => cases h
  | succ fuel =>
      unfold walkBelow at h
      split at h
      · assumption
      · split at h
        · cases h
        · rw [Except.bind_eq_ok] at h
          obtain ⟨rest, -, h⟩ := h
          cases h

/-- Every pair leaves or enters something, whatever the tree. -/
theorem computeOne_ne_nil {src dst : Nat} {ep np : List Nat}
    (h : computeOne states src dst = .ok (ep, np)) : 0 < ep.length + np.length := by
  by_contra h0
  obtain ⟨rfl, rfl⟩ : ep = [] ∧ np = [] := by
    constructor <;> apply List.eq_nil_of_length_eq_zero <;> omega
  unfold computeOne at h
  split at h
  · rename_i hc
    rw [Except.bind_eq_ok] at h
    obtain ⟨path, h₁, h⟩ := h
    cases h
    unfold upWalk at h₁
    rw [if_neg hc.1] at h₁
    split at h₁
    · cases h₁
    · rw [Except.bind_eq_ok] at h₁
      obtain ⟨rest, -, h₁⟩ := h₁
      cases h₁
  · split at h
    · cases h
    · rename_i hne
      simp only at h
      rw [Except.bind_eq_ok] at h
      obtain ⟨path, h₁, h⟩ := h
      rw [Except.bind_eq_ok] at h
      obtain ⟨rev, h₂, h⟩ := h
      simp only [Except.ok.injEq, Prod.mk.injEq, List.reverse_eq_nil_iff] at h
      obtain ⟨rfl, rfl⟩ := h
      have := (eq_of_walkBelow_nil h₁).trans (eq_of_walkBelow_nil h₂).symm
      exact hne (Option.some.inj this)

/-! ## All pairs -/

theorem toU16_eq_ok {x y : Nat} {msg : String} : toU16 x msg = .ok y ↔ x ≤ u16Max ∧ y = x := by
  unfold toU16
  split
  · rename_i h
    simp [h, eq_comm]
  · rename_i h
    simp [h]

theorem sliceOf_eq_ok {α : Type} {data seg : List α} {s e : Nat} :
    sliceOf data s e = .ok seg ↔ SliceAt data s e seg := by
  unfold sliceOf
  constructor
  · intro h
    split at h
    · rename_i hc
      cases h
      exact ⟨hc.1, hc.2, rfl⟩
    · cases h
  · intro h
    rw [if_pos ⟨h.le, h.le_length⟩, h.eq]

/-- Each pair, and where its two paths stand in the two blobs. -/
def PairAt (states : List StateIr) (t : TransitionPathTables) (pair : Nat × Nat)
    (r : (Nat × Nat) × (Nat × Nat)) : Prop :=
  ∃ ep np, computeOne states pair.1 pair.2 = .ok (ep, np) ∧ SliceAt t.exitData r.1.1 r.1.2 ep ∧
    SliceAt t.enterData r.2.1 r.2.2 np

/-- What the double loop has done after the pairs `done`. -/
def PairsDone (states : List StateIr) (done : List (Nat × Nat)) (t : TransitionPathTables) : Prop :=
  t.exitRange.length = t.enterRange.length ∧
    List.Forall₂ (PairAt states t) done (t.exitRange.zip t.enterRange)

theorem pushPair_spec {done : List (Nat × Nat)} {pair : Nat × Nat} {t t' : TransitionPathTables}
    (hdone : PairsDone states done t) (h : pushPair states t pair = .ok t') :
    PairsDone states (done ++ [pair]) t' := by
  obtain ⟨hlen, hok⟩ := hdone
  unfold pushPair at h
  rw [Except.bind_eq_ok] at h
  obtain ⟨⟨ep, np⟩, hone, h⟩ := h
  rw [Except.bind_eq_ok] at h
  obtain ⟨estart, h₁, h⟩ := h
  rw [Except.bind_eq_ok] at h
  obtain ⟨eend, h₂, h⟩ := h
  rw [Except.bind_eq_ok] at h
  obtain ⟨nstart, h₃, h⟩ := h
  rw [Except.bind_eq_ok] at h
  obtain ⟨nend, h₄, h⟩ := h
  cases h
  obtain ⟨-, rfl⟩ := toU16_eq_ok.mp h₁
  obtain ⟨-, rfl⟩ := toU16_eq_ok.mp h₂
  obtain ⟨-, rfl⟩ := toU16_eq_ok.mp h₃
  obtain ⟨-, rfl⟩ := toU16_eq_ok.mp h₄
  refine ⟨by simp [hlen], ?_⟩
  rw [List.zip_append hlen, List.zip_cons_cons, List.zip_nil_left]
  refine List.Forall₂.concat (hok.imp ?_) ⟨ep, np, hone, .last _ _, .last _ _⟩
  rintro a r ⟨e, n, ho, he, hn⟩
  exact ⟨e, n, ho, he.append _, hn.append _⟩

theorem computeTransitionPaths_spec {t : TransitionPathTables}
    (h : computeTransitionPaths states = .ok t) : PairsDone states (pairsOf states.length) t :=
  Except.foldlM_run (P := PairsDone states) (fun _ _ _ _ => pushPair_spec) ⟨rfl, .nil⟩ h

theorem toU16_bind_error {α : Type} {x : Nat} {msg e : String} {k : Nat → Except String α}
    (h : (toU16 x msg >>= k) = .error e) : e = msg ∨ ∃ y, k y = .error e := by
  unfold toU16 at h
  split at h
  · exact .inr ⟨x, h⟩
  · cases h
    exact .inl rfl

/-- Only an offset can keep the tables from being built. -/
theorem computeTransitionPaths_error (T : StateTree states) (hn : states.length ≤ 65535)
    {e : String} (h : computeTransitionPaths states = .error e) :
    e = "exit path data exceeds u16 offset range" ∨
      e = "enter path data exceeds u16 offset range" := by
  obtain ⟨⟨src, dst⟩, hpair, t, -, h⟩ :=
    Except.foldlM_error (P := fun _ => True) (fun _ _ _ _ _ => trivial) trivial h
  unfold pairsOf at hpair
  rw [asU16_of_lt (by omega)] at hpair
  obtain ⟨hs, hd⟩ : src < states.length ∧ dst < states.length := by simpa using hpair
  obtain ⟨⟨ep, np⟩, hone⟩ := computeOne_isOk T hs hd
  unfold pushPair at h
  rw [hone, Except.ok_bind_eq] at h
  obtain he | ⟨_, h⟩ := toU16_bind_error h
  · exact .inl he
  obtain he | ⟨_, h⟩ := toU16_bind_error h
  · exact .inl he
  obtain he | ⟨_, h⟩ := toU16_bind_error h
  · exact .inr he
  obtain he | ⟨_, h⟩ := toU16_bind_error h
  · exact .inr he
  · cases h

/-! ## How deep a tree the offsets allow -/

/-- What a pair adds to the exit blob. -/
def exitLength (states : List StateIr) (pair : Nat × Nat) : Nat :=
  match computeOne states pair.1 pair.2 with
  | .ok (ep, _) => ep.length
  | .error _ => 0

theorem pushPair_exitData {pair : Nat × Nat} {t t' : TransitionPathTables}
    (h : pushPair states t pair = .ok t') :
    t'.exitData.length = t.exitData.length + exitLength states pair ∧
      t'.exitData.length ≤ u16Max := by
  unfold pushPair at h
  obtain ⟨⟨ep, np⟩, hone, h⟩ := Except.bind_eq_ok.mp h
  obtain ⟨estart, -, h⟩ := Except.bind_eq_ok.mp h
  obtain ⟨eend, hend, h⟩ := Except.bind_eq_ok.mp h
  obtain ⟨nstart, -, h⟩ := Except.bind_eq_ok.mp h
  obtain ⟨nend, -, h⟩ := Except.bind_eq_ok.mp h
  cases h
  unfold exitLength
  rw [hone]
  exact ⟨List.length_append, (toU16_eq_ok.mp hend).1⟩

/-- The exits of all pairs fit the `u16` offsets. -/
theorem sum_exitLength_le {t : TransitionPathTables} (h : computeTransitionPaths states = .ok t) :
    ((pairsOf states.length).map (exitLength states)).sum ≤ u16Max := by
  have hrun := @Except.foldlM_run _ _ _ (pushPair states)
    (fun done t => t.exitData.length = (done.map (exitLength states)).sum ∧
      t.exitData.length ≤ u16Max) _ {} t ?_ ⟨rfl, Nat.zero_le _⟩ h
  · rw [← hrun.1]
    exact hrun.2
  · rintro done pair t t' ⟨hlen, -⟩ hpush
    obtain ⟨hadd, hle⟩ := pushPair_exitData hpush
    exact ⟨by rw [hadd, hlen, List.map_append, List.sum_append]; simp, hle⟩

namespace StateTree

variable (T : StateTree states)

/-- The walk to a state above is among the exits. -/
theorem climb_le_exitLength {src dst : Nat} (hs : src < states.length)
    (hm : dst ∈ T.tree.up src) : T.level src - T.level dst ≤ exitLength states (src, dst) := by
  by_cases hne : src = dst
  · subst hne
    rw [Nat.sub_self]
    exact Nat.zero_le _
  · unfold exitLength
    rw [computeOne_up T hs hm hne]
    exact (T.tree.length_segment hm).ge

/-- A state brings along the walks between all the states above it, and these fill a cube. -/
theorem level_cube_le {t : TransitionPathTables} (hn : states.length ≤ 65535)
    (h : computeTransitionPaths states = .ok t) {s : Nat} (hs : s < states.length) :
    T.level s * (T.level s + 1) * (T.level s + 2) ≤ 6 * 65535 := by
  have hrange : ∀ {a}, a < states.length → T.tree.up a ⊆ List.range states.length :=
    fun ha x hx => List.mem_range.mpr (T.up_lt ha hx)
  -- the exits of one source
  have hrow : ∀ a ∈ T.tree.up s, T.tree.climbs a ≤
      ((List.range states.length).map fun b => exitLength states (a, b)).sum := by
    intro a ha
    have hlt := T.up_lt hs ha
    calc T.tree.climbs a ≤ ((T.tree.up a).map fun b => exitLength states (a, b)).sum :=
          List.sum_le_sum fun b hb => T.climb_le_exitLength hlt hb
      _ ≤ _ := sum_map_le_of_subset _ (T.tree.nodup_up a) (hrange hlt)
  have hpairs : (pairsOf states.length).map (exitLength states) =
      (List.range states.length).flatMap fun a =>
        (List.range states.length).map fun b => exitLength states (a, b) := by
    unfold pairsOf
    rw [asU16_of_lt (by omega), List.map_flatMap]
    simp only [List.map_map, Function.comp_def]
  have hsum := sum_exitLength_le h
  rw [hpairs, List.flatMap_def, List.sum_flatten, List.map_map] at hsum
  have hall : ((T.tree.up s).map T.tree.climbs).sum ≤ u16Max :=
    calc ((T.tree.up s).map T.tree.climbs).sum
        ≤ ((T.tree.up s).map fun a =>
            ((List.range states.length).map fun b => exitLength states (a, b)).sum).sum :=
          List.sum_le_sum hrow
      _ ≤ _ := sum_map_le_of_subset _ (T.tree.nodup_up s) (hrange hs)
      _ ≤ u16Max := hsum
  have hcube := T.tree.six_mul_sum_climbs s
  rw [tree_level] at hcube
  rw [← hcube]
  exact Nat.mul_le_mul_left 6 hall

/-- No chart deep enough for a depth to wrap gets its tables. -/
theorem shallow_of_paths {t : TransitionPathTables} (hn : states.length ≤ 65535)
    (h : computeTransitionPaths states = .ok t) : T.Shallow := by
  intro s hs
  by_contra hdeep
  have hcube := T.level_cube_le hn h hs
  have hlow : 256 * 257 * 258 ≤ T.level s * (T.level s + 1) * (T.level s + 2) :=
    Nat.mul_le_mul (Nat.mul_le_mul (by omega) (by omega)) (by omega)
  omega

end StateTree

/-! ## Folding the two blobs -/

/-- The two paths of a range, and where they stand in the folded blob. -/
def RangeAt (t : TransitionPathTables) (data : List Nat) (r : (Nat × Nat) × (Nat × Nat))
    (tri : Nat × Nat × Nat) : Prop :=
  ∃ ep np, SliceAt t.exitData r.1.1 r.1.2 ep ∧ SliceAt t.enterData r.2.1 r.2.2 np ∧
    SliceAt data tri.1 tri.2.1 ep ∧ SliceAt data tri.2.1 tri.2.2 np

/-- What the folding loop has done after the ranges `done`. -/
structure RangesDone (t : TransitionPathTables) (done : List ((Nat × Nat) × (Nat × Nat)))
    (acc : List Nat × List (Nat × Nat × Nat)) : Prop where
  ranges : List.Forall₂ (RangeAt t acc.1) done acc.2
  length_le : acc.1.length ≤ u16Max
  length_eq : acc.1.length = (acc.2.map fun tri => tri.2.2 - tri.1).sum

theorem foldPair_spec {t : TransitionPathTables} {done : List ((Nat × Nat) × (Nat × Nat))}
    {r : (Nat × Nat) × (Nat × Nat)} {acc acc' : List Nat × List (Nat × Nat × Nat)}
    (hdone : RangesDone t done acc) (h : foldPair t acc r = .ok acc') :
    RangesDone t (done ++ [r]) acc' := by
  obtain ⟨⟨es, ee⟩, ⟨ns, ne⟩⟩ := r
  obtain ⟨data, range⟩ := acc
  unfold foldPair at h
  simp only at h
  rw [Except.bind_eq_ok] at h
  obtain ⟨start, h₁, h⟩ := h
  rw [Except.bind_eq_ok] at h
  obtain ⟨ep, h₂, h⟩ := h
  rw [Except.bind_eq_ok] at h
  obtain ⟨mid, h₃, h⟩ := h
  rw [Except.bind_eq_ok] at h
  obtain ⟨np, h₄, h⟩ := h
  rw [Except.bind_eq_ok] at h
  obtain ⟨stop, h₅, h⟩ := h
  cases h
  obtain ⟨-, rfl⟩ := toU16_eq_ok.mp h₁
  obtain ⟨-, rfl⟩ := toU16_eq_ok.mp h₃
  obtain ⟨hle, rfl⟩ := toU16_eq_ok.mp h₅
  refine ⟨?_, hle, ?_⟩
  · refine List.Forall₂.concat (hdone.ranges.imp ?_) ⟨ep, np, sliceOf_eq_ok.mp h₂,
      sliceOf_eq_ok.mp h₄, (SliceAt.last _ _).append _, .last _ _⟩
    rintro a r ⟨e, n, he, hn, he', hn'⟩
    exact ⟨e, n, he, hn, (he'.append _).append _, (hn'.append _).append _⟩
  · have hsum := hdone.length_eq
    simp only at hsum
    simp only [List.length_append, List.map_append, List.sum_append, List.map_cons,
      List.map_nil, List.sum_cons, List.sum_nil]
    omega

/-- Each pair, and where its two paths stand in the folded blob. -/
def PathAt (states : List StateIr) (data : List Nat) (pair : Nat × Nat) (tri : Nat × Nat × Nat) :
    Prop :=
  ∃ ep np, computeOne states pair.1 pair.2 = .ok (ep, np) ∧ SliceAt data tri.1 tri.2.1 ep ∧
    SliceAt data tri.2.1 tri.2.2 np

theorem getElem?_pairsOf {n i j : Nat} (hn : n < 65536) (hi : i < n) (hj : j < n) :
    (pairsOf n)[i * n + j]? = some (i, j) := by
  unfold pairsOf
  rw [asU16_of_lt hn]
  exact getElem?_product _ hi hj

theorem pathTables_forall₂ {data : List Nat} {range : List (Nat × Nat × Nat)}
    (h : pathTables states = .ok (data, range)) :
    List.Forall₂ (PathAt states data) (pairsOf states.length) range ∧ data.length ≤ u16Max ∧
      data.length = (range.map fun tri => tri.2.2 - tri.1).sum ∧
      range.length = states.length * states.length := by
  unfold pathTables at h
  rw [Except.bind_eq_ok] at h
  obtain ⟨t, ht, h⟩ := h
  rw [Except.bind_eq_ok] at h
  obtain ⟨⟨data', range'⟩, hfold, h⟩ := h
  rw [Except.bind_eq_ok] at h
  obtain ⟨range'', hemit, h⟩ := h
  cases h
  unfold emitTable at hemit
  split at hemit
  · rename_i hlen
    cases hemit
    have hdone := Except.foldlM_run (P := RangesDone t) (fun _ _ _ _ => foldPair_spec)
      ⟨.nil, Nat.zero_le _, rfl⟩ hfold
    refine ⟨((computeTransitionPaths_spec ht).2.comp hdone.ranges).imp ?_, hdone.length_le,
      hdone.length_eq, hlen⟩
    rintro pair tri ⟨r, ⟨ep, np, hone, he, hn⟩, ep', np', he', hn', hs, hs'⟩
    rw [he'.unique he] at hs
    rw [hn'.unique hn] at hs'
    exact ⟨ep, np, hone, hs, hs'⟩
  · cases hemit

/-- The blob offsets are `u16` and every pair takes at least one entry, so the tables can only
    be built for at most 255 states. -/
theorem length_le_of_pathTables {data : List Nat} {range : List (Nat × Nat × Nat)}
    (h : pathTables states = .ok (data, range)) : states.length ≤ 255 := by
  obtain ⟨hpaths, hle, hsum, hlen⟩ := pathTables_forall₂ h
  have hone : ∀ tri ∈ range, 1 ≤ tri.2.2 - tri.1 := by
    intro tri htri
    obtain ⟨pair, -, ep, np, hone, hs, hs'⟩ := hpaths.exists_of_mem_right htri
    have := computeOne_ne_nil hone
    have h1 := hs.length_eq
    have h2 := hs'.length_eq
    have h3 := hs.le
    have h4 := hs'.le
    omega
  have hcount : range.length ≤ data.length := by
    rw [hsum, ← List.length_map (f := fun tri : Nat × Nat × Nat => tri.2.2 - tri.1)]
    refine List.length_le_sum_of_one_le _ ?_
    intro x hx
    obtain ⟨tri, htri, rfl⟩ := List.mem_map.mp hx
    exact hone tri htri
  by_contra hgt
  have : 256 * 256 ≤ states.length * states.length := Nat.mul_le_mul (by omega) (by omega)
  simp only [u16Max] at hle
  omega

/-- Every entry of the folded tables holds the paths of the tree. -/
theorem pathTables_spec (T : StateTree states) {data : List Nat} {range : List (Nat × Nat × Nat)}
    (h : pathTables states = .ok (data, range)) {src dst : Nat} (hs : src < states.length)
    (hd : dst < states.length) :
    ∃ s m e, range[src * states.length + dst]? = some (s, m, e) ∧
      SliceAt data s m (T.tree.exitPath src dst) ∧ SliceAt data m e (T.tree.enterPath src dst) := by
  have hn := length_le_of_pathTables h
  obtain ⟨hpaths, -⟩ := pathTables_forall₂ h
  obtain ⟨⟨s, m, e⟩, htri, ep, np, hone, hsl, hsl'⟩ :=
    hpaths.exists_of_getElem? (getElem?_pairsOf (by omega) hs hd)
  rw [computeOne_eq T (T.shallow_of_length (by omega)) hs hd] at hone
  cases hone
  exact ⟨s, m, e, htri, hsl, hsl'⟩

/-! ## What the tables mean -/

/-- The state a transition turns around at, `none` standing above the root: the target when it
    lies strictly above the source, its parent when the two are equal, and the lowest common
    ancestor otherwise. -/
def IsEffectiveLca (T : ParentTree Nat) (src dst : Nat) (L : Option Nat) : Prop :=
  if src = dst then L = T.parent dst
  else if dst ∈ T.up src then L = some dst
  else ∃ l, L = some l ∧ T.IsLca src dst l

theorem IsEffectiveLca.unique {T : ParentTree Nat} {src dst : Nat} {L L' : Option Nat}
    (h : IsEffectiveLca T src dst L) (h' : IsEffectiveLca T src dst L') : L = L' := by
  unfold IsEffectiveLca at h h'
  split at h
  · rename_i he
    rw [if_pos he] at h'
    rw [h, h']
  · rename_i he
    rw [if_neg he] at h'
    split at h
    · rename_i hm
      rw [if_pos hm] at h'
      rw [h, h']
    · rename_i hm
      rw [if_neg hm] at h'
      obtain ⟨l, rfl, hl⟩ := h
      obtain ⟨l', rfl, hl'⟩ := h'
      rw [hl.unique hl']

theorem isEffectiveLca_turn {T : ParentTree Nat} {r src dst : Nat} (hs : r ∈ T.up src)
    (hd : r ∈ T.up dst) : IsEffectiveLca T src dst (T.turn src dst) := by
  unfold IsEffectiveLca ParentTree.turn
  split
  · rfl
  · split
    · rfl
    · exact T.lca_isLca hs hd

/-- The path tables of any state tree they can be built for implement the transitions: what is
    left is the walk from the source up to but excluding the effective lowest common ancestor,
    and what is entered is the walk from below it down to the target. -/
theorem path_tables_lca (T : StateTree states) {data : List Nat} {range : List (Nat × Nat × Nat)}
    (h : pathTables states = .ok (data, range)) {src dst : Nat} (hs : src < states.length)
    (hd : dst < states.length) :
    ∃ L, (∀ L', IsEffectiveLca T.tree src dst L' ↔ L' = L) ∧
      ∃ s m e, range[src * states.length + dst]? = some (s, m, e) ∧
        SliceAt data s m (T.tree.segment L src) ∧
        SliceAt data m e (T.tree.segment L dst).reverse ∧
        (m = e ↔ dst ∈ T.tree.up src ∧ dst ≠ src) := by
  have hs0 := T.root_mem hs
  have hd0 := T.root_mem hd
  have hL := isEffectiveLca_turn hs0 hd0
  obtain ⟨s, m, e, hr, hexit, henter⟩ := pathTables_spec T h hs hd
  refine ⟨T.tree.turn src dst, fun L' => ⟨fun h' => h'.unique hL, fun h' => h' ▸ hL⟩,
    s, m, e, hr, hexit, henter, ?_⟩
  rw [← T.tree.enterPath_eq_nil_iff hs0 hd0, ← List.length_eq_zero_iff]
  have hlen := henter.length_eq
  have hle := henter.le
  omega

/-- Two states below a root. -/
def forkStates : List StateIr :=
  [{ id := 0, name := "__Root", parent := none, depth := 0 },
   { id := 1, name := "A", parent := some 0, depth := 1 },
   { id := 2, name := "B", parent := some 0, depth := 1 }]

theorem forkStates_treeOk : TreeOk forkStates where
  id_eq i s h := by
    match i with
    | 0 | 1 | 2 => cases h; rfl
    | _ + 3 => cases h
  root s h := by cases h; exact ⟨rfl, rfl⟩
  child i s h hi := by
    match i with
    | 0 => exact absurd rfl hi
    | 1 | 2 => cases h; exact ⟨0, _, rfl, by decide, rfl, rfl⟩
    | _ + 3 => cases h

def forkTree : StateTree forkStates := forkStates_treeOk.stateTree (by decide)

theorem path_tables_lca_fork :
    ∃ L, (∀ L', IsEffectiveLca forkTree.tree 1 2 L' ↔ L' = L) ∧
      ∃ s m e, [(0, 1, 2), (2, 2, 3), (3, 3, 4), (4, 5, 5), (5, 6, 7), (7, 8, 9), (9, 10, 10),
          (10, 11, 12), (12, 13, 14)][1 * forkStates.length + 2]? = some (s, m, e) ∧
        SliceAt [0, 0, 1, 2, 1, 1, 1, 1, 2, 2, 2, 1, 2, 2] s m (forkTree.tree.segment L 1) ∧
        SliceAt [0, 0, 1, 2, 1, 1, 1, 1, 2, 2, 2, 1, 2, 2] m e (forkTree.tree.segment L 2).reverse ∧
        (m = e ↔ 2 ∈ forkTree.tree.up 1 ∧ 2 ≠ 1) :=
  path_tables_lca forkTree rfl (by decide) (by decide)

/-! ## Terminate paths -/

/-- What the terminate loop has done after the states `done`. -/
def WalksDone (states : List StateIr) (done : List Nat) (acc : List Nat × List (Nat × Nat)) :
    Prop :=
  List.Forall₂ (fun s r => ∃ path, walkToRoot states (states.length + 1) (some s) = .ok path ∧
    SliceAt acc.1 r.1 r.2 path) done acc.2

theorem pushTerminate_spec {done : List Nat} {s : Nat} {acc acc' : List Nat × List (Nat × Nat)}
    (hdone : WalksDone states done acc) (h : pushTerminate states acc s = .ok acc') :
    WalksDone states (done ++ [s]) acc' := by
  obtain ⟨data, range⟩ := acc
  unfold pushTerminate at h
  simp only at h
  rw [Except.bind_eq_ok] at h
  obtain ⟨start, h₁, h⟩ := h
  rw [Except.bind_eq_ok] at h
  obtain ⟨path, h₂, h⟩ := h
  rw [Except.bind_eq_ok] at h
  obtain ⟨stop, h₃, h⟩ := h
  cases h
  obtain ⟨-, rfl⟩ := toU16_eq_ok.mp h₁
  obtain ⟨-, rfl⟩ := toU16_eq_ok.mp h₃
  refine List.Forall₂.concat (hdone.imp ?_) ⟨path, h₂, .last _ _⟩
  rintro a r ⟨p, hp, hsl⟩
  exact ⟨p, hp, hsl.append _⟩

/-- Every entry of the terminate tables holds the walk to the root. -/
theorem terminatePaths_spec (T : StateTree states) (hn : states.length ≤ 255) {data : List Nat}
    {range : List (Nat × Nat)} (h : computeTerminatePaths states = .ok (data, range)) {s : Nat}
    (hs : s < states.length) :
    ∃ a b, range[s]? = some (a, b) ∧ SliceAt data a b (T.tree.up s) := by
  have hnil : WalksDone states [] ([], []) := List.Forall₂.nil
  have hdone := Except.foldlM_run (P := WalksDone states) (fun _ _ _ _ => pushTerminate_spec)
    hnil h
  have hget : (List.range (asU16 states.length))[s]? = some s := by
    rw [asU16_of_lt (by omega), List.getElem?_range hs]
  obtain ⟨⟨a, b⟩, hr, path, hpath, hsl⟩ := hdone.exists_of_getElem? hget
  have hlev := T.level_lt hs
  rw [T.walkToRoot_eq _ _ (by omega)] at hpath
  cases hpath
  exact ⟨a, b, hr, hsl⟩

end Hsmc
