import Mathlib.Algebra.BigOperators.Group.List.Basic
import Mathlib.Data.List.Basic
import Mathlib.Data.List.TakeWhile
import Mathlib.Data.Option.Basic
import Mathlib.Tactic.Ring

/-
  Rooted trees given by a parent function.

  A `ParentTree` is a partial `parent` function with a `level` that grows by one from a node
  to each of its children, so every walk upward ends. `up a` is that walk, `a` first and a
  root last. Ancestry is membership in `up`, and two walks that meet share a suffix.

  Proved here:
  * `up_eq_segment_append`: a walk splits at each of its members.
  * `six_mul_sum_climbs`: the walks between the nodes above a node have lengths that add up to
    a cube of its level.
  * `IsLca.unique`, `IsLca.climb`, `meet_isLca`: the two-phase search (align the levels, then
    climb in lockstep) finds the deepest common ancestor.
  * `up_eq_exitPath_append`: going from one node to another leaves `exitPath`, innermost first,
    over a part `base` of the walk that stays, and enters `enterPath` on it, outermost first.
-/

/-- A forest by its parent function. `level` counts the steps up to a root. -/
structure ParentTree (α : Type*) where
  parent : α → Option α
  level : α → Nat
  level_root : ∀ {a}, parent a = none → level a = 0
  level_parent : ∀ {a p}, parent a = some p → level a = level p + 1

namespace ParentTree

variable {α : Type*} (T : ParentTree α) {a b p r x y L : α}

/-! ## The walk upward -/

/-- The nodes from `a` up to its root, `a` first. -/
def up (a : α) : List α :=
  match _h : T.parent a with
  | none => [a]
  | some p => a :: up p
termination_by T.level a
decreasing_by rw [T.level_parent _h]; exact Nat.lt_succ_self _

theorem up_of_root (h : T.parent a = none) : T.up a = [a] := by
  rw [up]; split
  · rfl
  · rename_i q hq; rw [h] at hq; cases hq

theorem up_of_parent (h : T.parent a = some p) : T.up a = a :: T.up p := by
  rw [up]; split
  · rename_i hq; rw [h] at hq; cases hq
  · rename_i q hq; rw [h] at hq; cases hq; rfl

/-- Induction along the walk: a root, or a node above which the property holds. -/
theorem upInduction {motive : α → Prop} (root : ∀ a, T.parent a = none → motive a)
    (step : ∀ a p, T.parent a = some p → motive p → motive a) (a : α) : motive a := by
  induction hl : T.level a generalizing a with
  | zero =>
      cases h : T.parent a with
      | none => exact root a h
      | some p => rw [T.level_parent h] at hl; omega
  | succ n ih =>
      cases h : T.parent a with
      | none => exact root a h
      | some p =>
          rw [T.level_parent h] at hl
          exact step a p h (ih p (by omega))

theorem up_eq_cons (a : α) : ∃ l, T.up a = a :: l := by
  cases h : T.parent a with
  | none => exact ⟨[], T.up_of_root h⟩
  | some p => exact ⟨T.up p, T.up_of_parent h⟩

@[simp] theorem up_ne_nil (a : α) : T.up a ≠ [] := by
  obtain ⟨l, hl⟩ := T.up_eq_cons a
  simp [hl]

@[simp] theorem mem_up_self (a : α) : a ∈ T.up a := by
  obtain ⟨l, hl⟩ := T.up_eq_cons a
  simp [hl]

theorem length_up (a : α) : (T.up a).length = T.level a + 1 := by
  induction a using T.upInduction with
  | root a h => simp [T.up_of_root h, T.level_root h]
  | step a p h ih => simp [T.up_of_parent h, T.level_parent h, ih]

/-- Nothing on the walk lies deeper than its start, and only the start lies as deep. -/
theorem level_lt_of_mem_up (h : b ∈ T.up a) : b = a ∨ T.level b < T.level a := by
  induction a using T.upInduction with
  | root a hr => left; simpa [T.up_of_root hr] using h
  | step a p hp ih =>
      rw [T.up_of_parent hp, List.mem_cons] at h
      rcases h with h | h
      · exact Or.inl h
      · right
        have hlev := T.level_parent hp
        rcases ih h with h | h
        · rw [h]; omega
        · omega

theorem level_le_of_mem_up (h : b ∈ T.up a) : T.level b ≤ T.level a := by
  rcases T.level_lt_of_mem_up h with h | h
  · rw [h]
  · omega

theorem not_mem_up_parent (h : T.parent a = some p) : a ∉ T.up p := by
  intro hm
  have := T.level_le_of_mem_up hm
  rw [T.level_parent h] at this
  omega

theorem nodup_up (a : α) : (T.up a).Nodup := by
  induction a using T.upInduction with
  | root a h => simp [T.up_of_root h]
  | step a p h ih =>
      rw [T.up_of_parent h]
      exact List.nodup_cons.mpr ⟨T.not_mem_up_parent h, ih⟩

/-- The walk of a member is a suffix of the walk. -/
theorem up_suffix (h : b ∈ T.up a) : T.up b <:+ T.up a := by
  induction a using T.upInduction with
  | root a hr =>
      have : b = a := by simpa [T.up_of_root hr] using h
      subst this
      exact List.suffix_rfl
  | step a p hp ih =>
      rw [T.up_of_parent hp, List.mem_cons] at h
      rcases h with rfl | h
      · exact List.suffix_rfl
      · rw [T.up_of_parent hp]
        exact (ih h).trans (List.suffix_cons _ _)

theorem mem_up_trans (hx : x ∈ T.up b) (hb : b ∈ T.up a) : x ∈ T.up a :=
  (T.up_suffix hb).subset hx

theorem mem_up_antisymm (hab : a ∈ T.up b) (hba : b ∈ T.up a) : a = b := by
  rcases T.level_lt_of_mem_up hab with h | h
  · exact h
  · have := T.level_le_of_mem_up hba
    omega

/-- Of two nodes on one walk, the shallower is on the walk of the deeper. -/
theorem mem_up_of_level_le (hx : x ∈ T.up a) (hy : y ∈ T.up a)
    (hle : T.level y ≤ T.level x) : y ∈ T.up x := by
  induction a using T.upInduction with
  | root a hr =>
      rw [T.up_of_root hr, List.mem_singleton] at hx hy
      rw [hx, hy]; exact T.mem_up_self a
  | step a p hp ih =>
      have hy' := hy
      rw [T.up_of_parent hp, List.mem_cons] at hx hy
      have hlev := T.level_parent hp
      rcases hx with rfl | hx
      · exact hy'
      · rcases hy with rfl | hy
        · have := T.level_le_of_mem_up hx
          omega
        · exact ih hx hy

/-- What lies above two different nodes of one level lies above the parent of each. -/
theorem mem_up_parent_of_ne (hne : a ≠ b) (hlev : T.level a = T.level b)
    (hp : T.parent a = some p) (ha : x ∈ T.up a) (hb : x ∈ T.up b) : x ∈ T.up p := by
  rw [T.up_of_parent hp, List.mem_cons] at ha
  rcases ha with rfl | ha
  · exact absurd ((T.level_lt_of_mem_up hb).resolve_right (by omega)) hne
  · exact ha

/-- The part of a walk above one of its nodes is the walk of that node. -/
theorem eq_up_of_suffix {l : List α} (h : x :: l <:+ T.up a) : x :: l = T.up x := by
  induction a using T.upInduction with
  | root a hr =>
      rw [T.up_of_root hr] at h
      obtain ⟨rfl, rfl⟩ := List.cons.inj (h.eq_of_length_le (by simp))
      exact (T.up_of_root hr).symm
  | step a p hp ih =>
      rw [T.up_of_parent hp, List.suffix_cons_iff] at h
      rcases h with h | h
      · obtain ⟨rfl, rfl⟩ := List.cons.inj h
        exact (T.up_of_parent hp).symm
      · exact ih h

/-- Along a walk the levels fall. -/
theorem level_lt_of_inner {inner outer : List α} (h : T.up a = inner ++ y :: outer)
    (hx : x ∈ inner) : T.level y < T.level x := by
  have hy : y :: outer = T.up y := T.eq_up_of_suffix ⟨inner, h.symm⟩
  have hnd := T.nodup_up a
  rw [h, hy] at hnd
  by_contra hle
  have hxa : x ∈ T.up a := h ▸ List.mem_append_left _ hx
  have hya : y ∈ T.up a := h ▸ List.mem_append_right _ List.mem_cons_self
  have hmem : x ∈ T.up y := T.mem_up_of_level_le hya hxa (by omega)
  exact (List.nodup_append.mp hnd).2.2 x hx x hmem rfl

/-! ## Segments of a walk -/

section Segment

variable [DecidableEq α]

/-- The walk from `a` up to but excluding `stop`; the whole walk when `stop` is `none`. -/
def segment (stop : Option α) (a : α) : List α :=
  (T.up a).takeWhile fun x => decide (some x ≠ stop)

@[simp] theorem segment_none (a : α) : T.segment none a = T.up a := by
  rw [segment, List.takeWhile_eq_self_iff]
  intro x _; simp

@[simp] theorem segment_self (a : α) : T.segment (some a) a = [] := by
  obtain ⟨l, hl⟩ := T.up_eq_cons a
  simp [segment, hl]

theorem segment_cons (hp : T.parent a = some p) (hne : a ≠ L) :
    T.segment (some L) a = a :: T.segment (some L) p := by
  simp [segment, T.up_of_parent hp, hne]

/-- A walk is its part below a member, then the walk of that member. -/
theorem up_eq_segment_append (h : L ∈ T.up a) : T.up a = T.segment (some L) a ++ T.up L := by
  induction a using T.upInduction with
  | root a hr =>
      have : L = a := by simpa [T.up_of_root hr] using h
      rw [this]; simp
  | step a p hp ih =>
      by_cases hne : a = L
      · rw [hne]; simp
      · rw [T.up_of_parent hp, List.mem_cons] at h
        rcases h with h | h
        · exact absurd h.symm hne
        · rw [T.segment_cons hp hne, List.cons_append, ← ih h, T.up_of_parent hp]

theorem length_segment (h : L ∈ T.up a) :
    (T.segment (some L) a).length = T.level a - T.level L := by
  have hlen := congrArg List.length (T.up_eq_segment_append h)
  rw [List.length_append, T.length_up, T.length_up] at hlen
  omega

theorem segment_parent (a : α) : T.segment (T.parent a) a = [a] := by
  cases h : T.parent a with
  | none => simp [T.up_of_root h]
  | some p =>
      have hne : a ≠ p := by
        intro he
        have := T.level_parent h
        rw [← he] at this
        omega
      simp [T.segment_cons h hne]

theorem segment_eq_nil_iff : T.segment (some L) a = [] ↔ a = L := by
  constructor
  · intro h
    by_contra hne
    obtain ⟨l, hl⟩ := T.up_eq_cons a
    simp [segment, hl, hne] at h
  · rintro rfl; simp

theorem mem_up_of_mem_segment {stop : Option α} (h : x ∈ T.segment stop a) : x ∈ T.up a :=
  (List.takeWhile_sublist _).subset h

end Segment

/-! ## The lengths of all walks -/

/-- The lengths of the walks from `a` to everything above it, added up. -/
def climbs (a : α) : Nat := ((T.up a).map fun b => T.level a - T.level b).sum

theorem two_mul_climbs (a : α) : 2 * T.climbs a = T.level a * (T.level a + 1) := by
  induction a using T.upInduction with
  | root a h => simp [climbs, T.up_of_root h, T.level_root h]
  | step a p h ih =>
      have hlev := T.level_parent h
      -- every walk from `p` is one step longer from `a`
      have hstep : (T.up p).map (fun b => T.level a - T.level b) =
          (T.up p).map fun b => (T.level p - T.level b) + 1 := by
        refine List.map_congr_left fun b hb => ?_
        have := T.level_le_of_mem_up hb
        omega
      have hsum : T.climbs a = T.climbs p + (T.level p + 1) := by
        unfold climbs
        rw [T.up_of_parent h, List.map_cons, List.sum_cons, Nat.sub_self, Nat.zero_add, hstep,
          List.sum_map_add, List.map_const', List.sum_replicate_nat, T.length_up, Nat.mul_one]
      calc 2 * T.climbs a = 2 * T.climbs p + 2 * (T.level p + 1) := by rw [hsum]; ring
        _ = T.level p * (T.level p + 1) + 2 * (T.level p + 1) := by rw [ih]
        _ = T.level a * (T.level a + 1) := by rw [hlev]; ring

theorem six_mul_sum_climbs (a : α) :
    6 * ((T.up a).map T.climbs).sum = T.level a * (T.level a + 1) * (T.level a + 2) := by
  induction a using T.upInduction with
  | root a h => simp [climbs, T.up_of_root h, T.level_root h]
  | step a p h ih =>
      have hlev := T.level_parent h
      have htwo := T.two_mul_climbs a
      rw [T.up_of_parent h, List.map_cons, List.sum_cons]
      calc 6 * (T.climbs a + ((T.up p).map T.climbs).sum)
          = 3 * (2 * T.climbs a) + 6 * ((T.up p).map T.climbs).sum := by ring
        _ = 3 * (T.level a * (T.level a + 1)) + T.level p * (T.level p + 1) * (T.level p + 2) := by
            rw [htwo, ih]
        _ = T.level a * (T.level a + 1) * (T.level a + 2) := by rw [hlev]; ring

/-! ## Deepest common ancestors -/

/-- `L` is a common ancestor of `a` and `b` below every other one. -/
structure IsLca (a b L : α) : Prop where
  left : L ∈ T.up a
  right : L ∈ T.up b
  deepest : ∀ x, x ∈ T.up a → x ∈ T.up b → x ∈ T.up L

variable {T}

theorem IsLca.unique (h : T.IsLca a b x) (h' : T.IsLca a b y) : x = y :=
  T.mem_up_antisymm (h'.deepest x h.left h.right) (h.deepest y h'.left h'.right)

theorem IsLca.symm (h : T.IsLca a b L) : T.IsLca b a L :=
  ⟨h.right, h.left, fun x hb ha => h.deepest x ha hb⟩

/-- Replacing one node by an ancestor that is still at least as deep as the other one keeps
    the deepest common ancestor. -/
theorem IsLca.climb (hx : x ∈ T.up a) (hlev : T.level b ≤ T.level x) (h : T.IsLca x b L) :
    T.IsLca a b L where
  left := T.mem_up_trans h.left hx
  right := h.right
  deepest z hza hzb :=
    h.deepest z (T.mem_up_of_level_le hx hza ((T.level_le_of_mem_up hzb).trans hlev)) hzb

/-- Two different nodes of one level have the deepest common ancestor of their parents. -/
theorem IsLca.of_parents {q : α} (hne : a ≠ b) (hlev : T.level a = T.level b)
    (hpa : T.parent a = some p) (hpb : T.parent b = some q) (h : T.IsLca p q L) :
    T.IsLca a b L where
  left := by rw [T.up_of_parent hpa]; exact List.mem_cons_of_mem _ h.left
  right := by rw [T.up_of_parent hpb]; exact List.mem_cons_of_mem _ h.right
  deepest x hxa hxb := h.deepest x (T.mem_up_parent_of_ne hne hlev hpa hxa hxb)
    (T.mem_up_parent_of_ne (Ne.symm hne) hlev.symm hpb hxb hxa)

theorem IsLca.refl (a : α) : T.IsLca a a a :=
  ⟨T.mem_up_self a, T.mem_up_self a, fun _ h _ => h⟩

theorem IsLca.of_mem_up (h : b ∈ T.up a) : T.IsLca a b b :=
  ⟨h, T.mem_up_self b, fun _ _ hb => hb⟩

variable (T)

/-- The parent, taken `k` times; `none` past a root. -/
def climb : Nat → α → Option α
  | 0, a => some a
  | k + 1, a => (T.parent a).bind (climb k)

theorem climb_of_le : ∀ (k : Nat) (a : α), k ≤ T.level a →
    ∃ x, T.climb k a = some x ∧ x ∈ T.up a ∧ T.level x = T.level a - k
  | 0, a, _ => ⟨a, rfl, T.mem_up_self a, rfl⟩
  | k + 1, a, hk => by
      cases h : T.parent a with
      | none =>
          have := T.level_root h
          omega
      | some p =>
          have hlev := T.level_parent h
          obtain ⟨x, hx, hmem, hl⟩ := climb_of_le k p (by omega)
          refine ⟨x, by simp [climb, h, hx], ?_, by omega⟩
          rw [T.up_of_parent h]
          exact List.mem_cons_of_mem _ hmem

variable [DecidableEq α]

/-- Climb from two nodes in lockstep until they agree; `none` past a root. -/
def meet : Nat → α → α → Option α
  | 0, a, b => if a = b then some a else none
  | n + 1, a, b =>
      if a = b then some a
      else (T.parent a).bind fun a' => (T.parent b).bind fun b' => meet n a' b'

/-- From one level and under one root, climbing in lockstep stops at the deepest common
    ancestor. -/
theorem meet_isLca : ∀ (n : Nat) (a b r : α), T.level a ≤ n → T.level a = T.level b →
    r ∈ T.up a → r ∈ T.up b → ∃ L, T.meet n a b = some L ∧ T.IsLca a b L := by
  intro n
  induction n with
  | zero =>
      intro a b r hn hlev ha hb
      have ea : r = a := (T.level_lt_of_mem_up ha).resolve_right (by omega)
      have eb : r = b := (T.level_lt_of_mem_up hb).resolve_right (by omega)
      subst ea; subst eb
      exact ⟨r, by simp [meet], IsLca.refl r⟩
  | succ n ih =>
      intro a b r hn hlev ha hb
      by_cases hab : a = b
      · subst hab; exact ⟨a, by simp [meet], IsLca.refl a⟩
      · cases hpa : T.parent a with
        | none =>
            -- `a` is a root, so it is `r`, and `b` on its level is `r` too
            have h0 := T.level_root hpa
            have ea : r = a := by simpa [T.up_of_root hpa] using ha
            have eb : r = b := (T.level_lt_of_mem_up hb).resolve_right (by omega)
            exact absurd (ea.symm.trans eb) hab
        | some p =>
            cases hpb : T.parent b with
            | none =>
                have h0 := T.level_root hpb
                have h1 := T.level_parent hpa
                omega
            | some q =>
                have h1 := T.level_parent hpa
                have h2 := T.level_parent hpb
                have hra := T.mem_up_parent_of_ne hab hlev hpa ha hb
                have hrb := T.mem_up_parent_of_ne (Ne.symm hab) hlev.symm hpb hb ha
                obtain ⟨L, hL, hlca⟩ := ih p q r (by omega) (by omega) hra hrb
                exact ⟨L, by simp [meet, hab, hpa, hpb, hL], hlca.of_parents hab hlev hpa hpb⟩

/-! ## Going from one node to another -/

/-- The deepest common ancestor, found on the walk of `a`. -/
def lca (a b : α) : Option α := (T.up a).find? fun x => decide (x ∈ T.up b)

theorem lca_isLca (ha : r ∈ T.up a) (hb : r ∈ T.up b) :
    ∃ L, T.lca a b = some L ∧ T.IsLca a b L := by
  induction a using T.upInduction with
  | root a hr =>
      have : r = a := by simpa [T.up_of_root hr] using ha
      subst this
      exact ⟨r, by simp [lca, T.up_of_root hr, hb], (IsLca.of_mem_up hb).symm⟩
  | step a p hp ih =>
      by_cases hab : a ∈ T.up b
      · exact ⟨a, by simp [lca, T.up_of_parent hp, hab], (IsLca.of_mem_up hab).symm⟩
      · have hrp : r ∈ T.up p := by
          rw [T.up_of_parent hp, List.mem_cons] at ha
          rcases ha with rfl | h
          · exact absurd hb hab
          · exact h
        obtain ⟨L, hL, hlca⟩ := ih hrp
        refine ⟨L, ?_, by rw [T.up_of_parent hp]; exact List.mem_cons_of_mem _ hlca.left,
          hlca.right, ?_⟩
        · unfold lca at hL ⊢
          simpa [T.up_of_parent hp, hab] using hL
        · intro x hxa hxb
          rw [T.up_of_parent hp, List.mem_cons] at hxa
          rcases hxa with rfl | h
          · exact absurd hxb hab
          · exact hlca.deepest x h hxb

/-- Where a move from `src` to `dst` turns around: `dst` itself when it lies strictly above
    `src`, its parent (`none` above a root) when the two are equal, and the deepest common
    ancestor otherwise. -/
def turn (src dst : α) : Option α :=
  if src = dst then T.parent dst
  else if dst ∈ T.up src then some dst
  else T.lca src dst

/-- What a move leaves, innermost first. -/
def exitPath (src dst : α) : List α := T.segment (T.turn src dst) src

/-- What a move enters, outermost first. -/
def enterPath (src dst : α) : List α := (T.segment (T.turn src dst) dst).reverse

/-- What a move leaves in place, innermost first. -/
def base (src dst : α) : List α :=
  match T.turn src dst with
  | none => []
  | some L => T.up L

variable {src dst : α}

theorem turn_mem (hs : r ∈ T.up src) (hd : r ∈ T.up dst) (h : T.turn src dst = some L) :
    L ∈ T.up src ∧ L ∈ T.up dst := by
  unfold turn at h
  split at h
  · rename_i he
    subst he
    have : L ∈ T.up src := by rw [T.up_of_parent h]; exact List.mem_cons_of_mem _ (T.mem_up_self L)
    exact ⟨this, this⟩
  · split at h
    · rename_i hm
      cases h
      exact ⟨hm, T.mem_up_self _⟩
    · obtain ⟨L', hL', hlca⟩ := T.lca_isLca hs hd
      rw [hL'] at h
      cases h
      exact ⟨hlca.left, hlca.right⟩

/-- The walk of the source: what is left, then what stays. -/
theorem up_eq_exitPath_append (hs : r ∈ T.up src) (hd : r ∈ T.up dst) :
    T.up src = T.exitPath src dst ++ T.base src dst := by
  unfold exitPath base
  cases h : T.turn src dst with
  | none => simp
  | some L => exact T.up_eq_segment_append (T.turn_mem hs hd h).1

/-- The walk of the destination: what is entered, innermost first, then what stays. -/
theorem up_eq_enterPath_append (hs : r ∈ T.up src) (hd : r ∈ T.up dst) :
    T.up dst = (T.enterPath src dst).reverse ++ T.base src dst := by
  unfold enterPath base
  rw [List.reverse_reverse]
  cases h : T.turn src dst with
  | none => simp
  | some L => exact T.up_eq_segment_append (T.turn_mem hs hd h).2

/-- Nothing is entered exactly when the destination lies strictly above the source. -/
theorem enterPath_eq_nil_iff (hs : r ∈ T.up src) (hd : r ∈ T.up dst) :
    T.enterPath src dst = [] ↔ dst ∈ T.up src ∧ dst ≠ src := by
  unfold enterPath
  rw [List.reverse_eq_nil_iff]
  constructor
  · intro h
    cases ht : T.turn src dst with
    | none => rw [ht] at h; simp at h
    | some L =>
        rw [ht, T.segment_eq_nil_iff] at h
        subst h
        refine ⟨(T.turn_mem hs hd ht).1, ?_⟩
        rintro rfl
        simp only [turn, ↓reduceIte] at ht
        have := T.level_parent ht
        omega
  · rintro ⟨hm, hne⟩
    have ht : T.turn src dst = some dst := by
      unfold turn
      rw [if_neg (Ne.symm hne), if_pos hm]
    rw [ht]; simp

/-- A nonempty enter path ends at the destination. -/
theorem getLast?_enterPath (h : T.enterPath src dst ≠ []) :
    (T.enterPath src dst).getLast? = some dst := by
  unfold enterPath at h ⊢
  rw [List.getLast?_reverse]
  obtain ⟨l, hl⟩ := T.up_eq_cons dst
  unfold segment at h ⊢
  rw [hl] at h ⊢
  by_cases hd : some dst = T.turn src dst
  · simp [hd] at h
  · simp [hd]

/-! ## Moves in terms of two walks -/

/-- Below a common ancestor that is the deepest, two walks share nothing. -/
theorem segment_of_isLca (h : T.IsLca a b L) :
    T.segment (some L) a = (T.up a).takeWhile fun x => decide (x ∉ T.up b) := by
  have hup := T.up_eq_segment_append h.left
  obtain ⟨l, hl⟩ := T.up_eq_cons L
  have hbelow : ∀ x ∈ T.segment (some L) a, decide (x ∉ T.up b) = true := by
    intro x hx
    have hnd := T.nodup_up a
    rw [hup] at hnd
    refine decide_eq_true fun hb => ?_
    have hxL := h.deepest x (T.mem_up_of_mem_segment hx) hb
    exact (List.nodup_append.mp hnd).2.2 x hx x hxL rfl
  conv_rhs => rw [hup, hl]
  rw [List.takeWhile_append_of_pos hbelow, List.takeWhile_cons_of_neg (by simp [h.right]),
    List.append_nil]

theorem turn_isLca (hne : src ≠ dst) (hs : r ∈ T.up src) (hd : r ∈ T.up dst) :
    ∃ L, T.turn src dst = some L ∧ T.IsLca src dst L := by
  unfold turn
  rw [if_neg hne]
  split
  · rename_i h
    exact ⟨dst, rfl, .of_mem_up h⟩
  · exact T.lca_isLca hs hd

/-- What a move leaves: what the walk of the destination does not have. -/
theorem exitPath_eq (hs : r ∈ T.up src) (hd : r ∈ T.up dst) : T.exitPath src dst =
    if src = dst then [src] else (T.up src).takeWhile fun x => decide (x ∉ T.up dst) := by
  unfold exitPath
  split
  · rename_i he
    subst he
    unfold turn
    rw [if_pos rfl, T.segment_parent]
  · rename_i hne
    obtain ⟨L, hL, hlca⟩ := T.turn_isLca hne hs hd
    rw [hL, T.segment_of_isLca hlca]

/-- What it enters: what the walk of the source does not have. -/
theorem enterPath_eq (hs : r ∈ T.up src) (hd : r ∈ T.up dst) : T.enterPath src dst =
    if src = dst then [dst]
    else ((T.up dst).takeWhile fun x => decide (x ∉ T.up src)).reverse := by
  unfold enterPath
  split
  · rename_i he
    subst he
    unfold turn
    rw [if_pos rfl, T.segment_parent, List.reverse_singleton]
  · rename_i hne
    obtain ⟨L, hL, hlca⟩ := T.turn_isLca hne hs hd
    rw [hL, T.segment_of_isLca hlca.symm]

end ParentTree
