import Mathlib.Data.List.Perm.Basic
import Mathlib.Data.List.Basic

/-
  Sequences with a fixed capacity.

  A `Bounded α cap` is a list together with the proof that it holds at most `cap` items, so a
  value over the capacity cannot be built. `push` refuses (returns `none`) when full and
  changes nothing; every other operation keeps or lowers the length.

  `swapRemove` moves the last item into the hole, so it keeps the items (`perm_swapRemove`)
  and not their order.
-/

structure Bounded (α : Type*) (cap : Nat) where
  items : List α
  length_le : items.length ≤ cap
deriving DecidableEq

namespace Bounded

variable {α β : Type*} {cap : Nat}

theorem eq_of_items {b b' : Bounded α cap} (h : b.items = b'.items) : b = b' := by
  cases b
  cases b'
  cases h
  rfl

def empty : Bounded α cap := ⟨[], Nat.zero_le _⟩

instance : Inhabited (Bounded α cap) := ⟨empty⟩

/-- Append at the back; `none` when full. -/
def push (b : Bounded α cap) (a : α) : Option (Bounded α cap) :=
  if h : b.items.length < cap then some ⟨b.items ++ [a], by rw [List.length_append]; exact h⟩
  else none

theorem push_of_lt {b : Bounded α cap} (a : α) (h : b.items.length < cap) :
    ∃ b', b.push a = some b' ∧ b'.items = b.items ++ [a] := by
  unfold push; rw [dif_pos h]; exact ⟨_, rfl, rfl⟩

theorem push_of_full {b : Bounded α cap} (a : α) (h : cap ≤ b.items.length) :
    b.push a = none := by
  unfold push; rw [dif_neg (by omega)]

theorem items_of_push {b b' : Bounded α cap} {a : α} (h : b.push a = some b') :
    b'.items = b.items ++ [a] := by
  unfold push at h
  split at h
  · cases h; rfl
  · cases h

theorem ne_nil_of_push {b b' : Bounded α cap} {a : α} (h : b.push a = some b') :
    b'.items ≠ [] := by
  rw [items_of_push h]
  exact List.append_ne_nil_of_right_ne_nil _ (List.cons_ne_nil a [])

theorem lt_of_push {b b' : Bounded α cap} {a : α} (h : b.push a = some b') :
    b.items.length < cap := by
  unfold push at h
  split at h
  · assumption
  · cases h

theorem le_of_push_eq_none {b : Bounded α cap} {a : α} (h : b.push a = none) :
    cap ≤ b.items.length := by
  unfold push at h
  split at h
  · cases h
  · omega

def filter (p : α → Bool) (b : Bounded α cap) : Bounded α cap :=
  ⟨b.items.filter p, Nat.le_trans (List.length_filter_le _ _) b.length_le⟩

def map (f : α → β) (b : Bounded α cap) : Bounded β cap :=
  ⟨b.items.map f, by simpa using b.length_le⟩

@[simp] theorem items_map (f : α → β) (b : Bounded α cap) :
    (b.map f).items = b.items.map f := rfl

/-- The front item and the rest. -/
def popFront (b : Bounded α cap) : Option (α × Bounded α cap) :=
  match h : b.items with
  | [] => none
  | a :: l => some (a, ⟨l, by have := b.length_le; rw [h] at this; simp at this; omega⟩)

theorem popFront_eq_none_iff {b : Bounded α cap} : b.popFront = none ↔ b.items = [] := by
  unfold popFront; split <;> simp_all

theorem items_of_popFront {b b' : Bounded α cap} {a : α} (h : b.popFront = some (a, b')) :
    b.items = a :: b'.items := by
  unfold popFront at h
  split at h
  · cases h
  · rename_i hl; cases h; exact hl

theorem popFront_of_items {b : Bounded α cap} {a : α} {l : List α} (h : b.items = a :: l) :
    ∃ b', b.popFront = some (a, b') ∧ b'.items = l := by
  cases hpop : b.popFront with
  | none =>
      rw [popFront_eq_none_iff.mp hpop] at h
      cases h
  | some p =>
      have hitems := items_of_popFront hpop
      rw [h] at hitems
      cases hitems
      exact ⟨p.2, rfl, rfl⟩

/-- Overwrite the first item that satisfies `p`; `none` when there is none. -/
def updateFirst (p : α → Bool) (f : α → α) : List α → Option (List α)
  | [] => none
  | a :: l => if p a then some (f a :: l) else (updateFirst p f l).map (a :: ·)

theorem length_of_updateFirst {p : α → Bool} {f : α → α} :
    ∀ {l l' : List α}, updateFirst p f l = some l' → l'.length = l.length
  | [], _, h => by cases h
  | a :: l, l', h => by
      unfold updateFirst at h
      split at h
      · cases h; rfl
      · rw [Option.map_eq_some_iff] at h
        obtain ⟨t, ht, rfl⟩ := h
        simp [length_of_updateFirst ht]

theorem updateFirst_eq_none_iff {p : α → Bool} {f : α → α} :
    ∀ {l : List α}, updateFirst p f l = none ↔ ∀ a ∈ l, p a = false
  | [] => by simp [updateFirst]
  | a :: l => by
      unfold updateFirst
      by_cases h : p a = true
      · simp [h]
      · simp [h, updateFirst_eq_none_iff]

/-- The overwritten list keeps every image under a function that the overwrite keeps. -/
theorem map_of_updateFirst {p : α → Bool} {f : α → α} {g : α → β}
    (hg : ∀ a, p a = true → g (f a) = g a) :
    ∀ {l l' : List α}, updateFirst p f l = some l' → l'.map g = l.map g
  | [], _, h => by cases h
  | a :: l, l', h => by
      unfold updateFirst at h
      split at h
      · rename_i hp; cases h; simp [hg a hp]
      · rw [Option.map_eq_some_iff] at h
        obtain ⟨t, ht, rfl⟩ := h
        simp [map_of_updateFirst hg ht]

theorem mem_of_updateFirst {p : α → Bool} {f : α → α} {x : α} :
    ∀ {l l' : List α}, updateFirst p f l = some l' → x ∈ l' →
      x ∈ l ∨ ∃ a ∈ l, p a = true ∧ x = f a
  | [], _, h, _ => by cases h
  | a :: l, l', h, hx => by
      unfold updateFirst at h
      split at h
      · rename_i hp
        cases h
        rcases List.mem_cons.mp hx with rfl | hx
        · exact Or.inr ⟨a, List.mem_cons_self, hp, rfl⟩
        · exact Or.inl (List.mem_cons_of_mem _ hx)
      · rw [Option.map_eq_some_iff] at h
        obtain ⟨t, ht, rfl⟩ := h
        rcases List.mem_cons.mp hx with rfl | hx
        · exact Or.inl List.mem_cons_self
        · rcases mem_of_updateFirst ht hx with h | ⟨b, hb, hp, rfl⟩
          · exact Or.inl (List.mem_cons_of_mem _ h)
          · exact Or.inr ⟨b, List.mem_cons_of_mem _ hb, hp, rfl⟩

/-- Every other item stays. -/
theorem mem_updateFirst_of_not {p : α → Bool} {f : α → α} {x : α} (hx : p x = false) :
    ∀ {l l' : List α}, updateFirst p f l = some l' → x ∈ l → x ∈ l'
  | [], _, h, _ => by cases h
  | a :: l, l', h, hmem => by
      unfold updateFirst at h
      split at h
      · rename_i hp
        cases h
        rcases List.mem_cons.mp hmem with rfl | hmem
        · rw [hx] at hp
          cases hp
        · exact List.mem_cons_of_mem _ hmem
      · obtain ⟨t, ht, rfl⟩ := Option.map_eq_some_iff.mp h
        rcases List.mem_cons.mp hmem with rfl | hmem
        · exact List.mem_cons_self
        · exact List.mem_cons_of_mem _ (mem_updateFirst_of_not hx ht hmem)

/-- The overwritten item stands in the list. -/
theorem exists_mem_of_updateFirst {p : α → Bool} {f : α → α} :
    ∀ {l l' : List α}, updateFirst p f l = some l' → ∃ a ∈ l, p a = true ∧ f a ∈ l'
  | [], _, h => by cases h
  | a :: l, l', h => by
      unfold updateFirst at h
      split at h
      · rename_i hp
        cases h
        exact ⟨a, List.mem_cons_self, hp, List.mem_cons_self⟩
      · rw [Option.map_eq_some_iff] at h
        obtain ⟨t, ht, rfl⟩ := h
        obtain ⟨b, hb, hp, hf⟩ := exists_mem_of_updateFirst ht
        exact ⟨b, List.mem_cons_of_mem _ hb, hp, List.mem_cons_of_mem _ hf⟩

/-- An overwrite that never makes an item satisfy `q` adds none that does. -/
theorem filter_sublist_of_updateFirst {p q : α → Bool} {f : α → α} (hq : ∀ a, q (f a) = false) :
    ∀ {l l' : List α}, updateFirst p f l = some l' → (l'.filter q).Sublist (l.filter q)
  | [], _, h => by cases h
  | a :: l, l', h => by
      unfold updateFirst at h
      split at h
      · cases h
        rw [List.filter_cons, hq a, if_neg (by decide)]
        exact (List.sublist_cons_self a l).filter q
      · rw [Option.map_eq_some_iff] at h
        obtain ⟨t, ht, rfl⟩ := h
        have ih := filter_sublist_of_updateFirst hq ht
        simp only [List.filter_cons]
        split
        · exact ih.cons_cons a
        · exact ih

def update (p : α → Bool) (f : α → α) (b : Bounded α cap) : Option (Bounded α cap) :=
  match h : updateFirst p f b.items with
  | none => none
  | some l => some ⟨l, by rw [length_of_updateFirst h]; exact b.length_le⟩

theorem items_of_update {p : α → Bool} {f : α → α} {b b' : Bounded α cap}
    (h : b.update p f = some b') : updateFirst p f b.items = some b'.items := by
  unfold update at h
  split at h
  · cases h
  · rename_i hl; cases h; exact hl

theorem update_eq_none_iff {p : α → Bool} {f : α → α} {b : Bounded α cap} :
    b.update p f = none ↔ ∀ a ∈ b.items, p a = false := by
  rw [← updateFirst_eq_none_iff (f := f)]
  unfold update
  split <;> simp_all

/-- Drop item `i` by moving the last item into its place. -/
def swapRemove (b : Bounded α cap) (i : Nat) : Bounded α cap :=
  match _h : b.items.getLast? with
  | none => b
  | some z => ⟨(b.items.set i z).dropLast, by
      rw [List.length_dropLast, List.length_set]
      exact Nat.le_trans (Nat.sub_le _ _) b.length_le⟩

theorem items_swapRemove {b : Bounded α cap} {l : List α} {z : α} (h : b.items = l ++ [z])
    (i : Nat) : (b.swapRemove i).items = ((l ++ [z]).set i z).dropLast := by
  unfold swapRemove
  split
  · rename_i hl
    rw [h] at hl
    simp at hl
  · rename_i z' hl
    rw [h, List.getLast?_concat, Option.some.injEq] at hl
    subst hl
    simp only [h]

/-- Removing one of the last two items keeps the order of the others. -/
theorem items_swapRemove_of_last {b : Bounded α cap} {i : Nat} (hi : i < b.items.length)
    (hlast : b.items.length ≤ i + 2) : (b.swapRemove i).items = b.items.eraseIdx i := by
  have hne : b.items ≠ [] := List.ne_nil_of_length_pos (by omega)
  obtain ⟨l, z, hl⟩ := List.eq_nil_or_concat' b.items |>.resolve_left hne
  rw [items_swapRemove hl, hl]
  rw [hl, List.length_append, List.length_singleton] at hi hlast
  rcases Nat.lt_or_ge i l.length with hlt | hge
  · have hne' : l ≠ [] := List.ne_nil_of_length_pos (by omega)
    obtain ⟨l', y, rfl⟩ := List.eq_nil_or_concat' l |>.resolve_left hne'
    rw [List.length_append, List.length_singleton] at hlast hlt
    have hi' : i = l'.length := by omega
    subst hi'
    rw [List.set_append_left _ _ (by simp), List.dropLast_concat,
      List.eraseIdx_append_of_lt_length (by simp)]
    simp [List.eraseIdx_append_of_length_le]
  · have hi' : i = l.length := by omega
    subst hi'
    simp [List.eraseIdx_append_of_length_le]

theorem perm_swapRemove {b : Bounded α cap} {i : Nat} (h : i < b.items.length) :
    (b.items[i] :: (b.swapRemove i).items).Perm b.items := by
  have hne : b.items ≠ [] := by intro h0; simp [h0] at h
  unfold swapRemove
  split
  · rename_i hl; exact absurd (List.getLast?_eq_none_iff.mp hl) hne
  · rename_i z hz
    obtain ⟨l, hl⟩ := List.getLast?_eq_some_iff.mp hz
    simp only [hl]
    rcases Nat.lt_or_ge i l.length with hi | hi
    · rw [List.set_append_left _ _ hi, List.dropLast_concat]
      simp only [List.getElem_append_left hi]
      have h1 : (l[i] :: l.set i z).Perm (l[i] :: z :: l.eraseIdx i) :=
        (List.set_perm_cons_eraseIdx hi z).cons _
      have h2 : (l[i] :: z :: l.eraseIdx i).Perm (z :: l[i] :: l.eraseIdx i) := List.Perm.swap _ _ _
      have h3 : (z :: l[i] :: l.eraseIdx i).Perm (z :: l) :=
        (List.getElem_cons_eraseIdx_perm hi).cons _
      exact ((h1.trans h2).trans h3).trans (List.perm_append_singleton z l).symm
    · have hi' : i = l.length := by
        rw [hl] at h
        simp at h
        omega
      subst hi'
      simpa using (List.perm_append_singleton z l).symm

end Bounded
