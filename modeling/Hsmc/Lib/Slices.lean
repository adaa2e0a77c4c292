import Mathlib.Algebra.GroupWithZero.Nat
import Mathlib.Algebra.Order.BigOperators.Group.List
import Mathlib.Algebra.Order.Group.Nat
import Mathlib.Data.List.Basic

/-
  Segments laid one after the other in one list and found again by their offsets.

  `SliceAt data s e seg` says that `seg` stands at `s..e` of `data`. A segment stays where it
  is when more is appended (`SliceAt.append`), and the segment appended last stands between
  the length before and the length after (`SliceAt.last`). `getElem?_product` is the row-major
  index of a table with one entry for each pair, and `sum_map_le_of_subset` bounds the size of
  some of the entries by that of all.
-/

/-- `seg` is the part of `data` from offset `s` up to offset `e`. -/
structure SliceAt {α : Type*} (data : List α) (s e : Nat) (seg : List α) : Prop where
  le : s ≤ e
  le_length : e ≤ data.length
  eq : (data.drop s).take (e - s) = seg

namespace SliceAt

variable {α : Type*} {data seg seg' : List α} {s e : Nat}

theorem append (h : SliceAt data s e seg) (more : List α) : SliceAt (data ++ more) s e seg where
  le := h.le
  le_length := by
    have := h.le_length
    rw [List.length_append]; omega
  eq := by
    have h1 := h.le
    have h2 := h.le_length
    rw [List.drop_append_of_le_length (by omega), List.take_append_of_le_length, h.eq]
    rw [List.length_drop]; omega

theorem last (data seg : List α) :
    SliceAt (data ++ seg) data.length (data ++ seg).length seg where
  le := by rw [List.length_append]; omega
  le_length := Nat.le_refl _
  eq := by
    rw [List.drop_left, List.length_append, Nat.add_sub_cancel_left, List.take_length]

theorem length_eq (h : SliceAt data s e seg) : seg.length = e - s := by
  have h1 := h.le
  have h2 := h.le_length
  rw [← h.eq, List.length_take, List.length_drop]
  omega

theorem unique (h : SliceAt data s e seg) (h' : SliceAt data s e seg') : seg = seg' :=
  h.eq.symm.trans h'.eq

end SliceAt

/-! ## Row-major tables -/

/-- A list of rows of one length, joined: entry `i * m + j` is entry `j` of row `i`. -/
theorem getElem?_flatMap_row {α β : Type*} {row : α → List β} {m : Nat}
    (hrow : ∀ a, (row a).length = m) : ∀ (l : List α) {i j : Nat} {a : α}, l[i]? = some a → j < m →
    (l.flatMap row)[i * m + j]? = (row a)[j]?
  | [], i, j, a, h, _ => by simp at h
  | b :: l, 0, j, a, h, hj => by
      rw [List.getElem?_cons_zero, Option.some.injEq] at h
      subst h
      rw [List.flatMap_cons, Nat.zero_mul, Nat.zero_add,
        List.getElem?_append_left (by rw [hrow]; exact hj)]
  | b :: l, i + 1, j, a, h, hj => by
      rw [List.getElem?_cons_succ] at h
      rw [List.flatMap_cons, List.getElem?_append_right (by rw [hrow, Nat.succ_mul]; omega), hrow,
        show (i + 1) * m + j - m = i * m + j by rw [Nat.succ_mul]; omega]
      exact getElem?_flatMap_row hrow l h hj

/-- The table over `range n` and `range m`, filled row by row. -/
theorem getElem?_product {β : Type*} (f : Nat → Nat → β) {n m i j : Nat} (hi : i < n) (hj : j < m) :
    ((List.range n).flatMap fun a => (List.range m).map (f a))[i * m + j]? = some (f i j) := by
  rw [getElem?_flatMap_row (m := m) (by simp) (List.range n) (List.getElem?_range hi) hj,
    List.getElem?_map, List.getElem?_range hj, Option.map_some]

theorem length_product {β : Type*} (f : Nat → Nat → β) (n m : Nat) :
    ((List.range n).flatMap fun a => (List.range m).map (f a)).length = n * m := by
  simp [List.length_flatMap]

/-- A part without repetitions sums to at most the whole. -/
theorem sum_map_le_of_subset {α : Type*} (f : α → Nat) {l l' : List α} (hnd : l.Nodup)
    (hsub : l ⊆ l') : (l.map f).sum ≤ (l'.map f).sum := by
  obtain ⟨l₁, hperm, hsubl⟩ := List.subperm_of_subset hnd hsub
  rw [← (hperm.map f).sum_eq]
  exact (hsubl.map f).sum_le_sum fun _ _ => Nat.zero_le _
