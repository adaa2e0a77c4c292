import Mathlib.Data.Finset.Card
import Mathlib.Data.List.Forall2
import Mathlib.Data.List.Nodup

/-
  Tables that are only ever appended to.

  `Grown r l l'`: every row of `l` stands in `l'` at the same index, refined by `r`. Appending a
  row and refining one in place are the two ways a table grows. A row is known by its key where
  no two rows share one (`List.Nodup.index_unique`).

  `keyIndex key l m` numbers the items of `l` by the places of their keys in such a table, in
  `m` numbers; `keyIndex_inj_iff` says when no two items get the same.
-/

/-- Every row of `l` is still there in `l'`, refined by `r`. -/
def Grown {α : Type*} (r : α → α → Prop) (l l' : List α) : Prop :=
  ∀ (i : Nat) (a : α), l[i]? = some a → ∃ b, l'[i]? = some b ∧ r a b

namespace Grown

variable {α : Type*} {r : α → α → Prop} {l l' l'' : List α}

theorem refl (hr : ∀ a, r a a) (l : List α) : Grown r l l :=
  fun _ a h => ⟨a, h, hr a⟩

theorem trans (hr : ∀ a b d, r a b → r b d → r a d) (h : Grown r l l') (h' : Grown r l' l'') :
    Grown r l l'' := by
  intro i a ha
  obtain ⟨b, hb, hab⟩ := h i a ha
  obtain ⟨d, hd, hbd⟩ := h' i b hb
  exact ⟨d, hd, hr a b d hab hbd⟩

theorem append (hr : ∀ a, r a a) (l l' : List α) : Grown r l (l ++ l') := by
  intro i a ha
  exact ⟨a, by rw [List.getElem?_append_left (List.getElem?_eq_some_iff.mp ha).1, ha], hr a⟩

theorem set (hr : ∀ a, r a a) {i : Nat} {a b : α} (ha : l[i]? = some a) (hab : r a b) :
    Grown r l (l.set i b) := by
  intro j d hd
  have hi : i < l.length := (List.getElem?_eq_some_iff.mp ha).1
  by_cases hij : i = j
  · subst hij
    rw [ha] at hd
    cases hd
    exact ⟨b, by rw [List.getElem?_set_self hi], hab⟩
  · exact ⟨d, by rw [List.getElem?_set_ne hij, hd], hr d⟩

theorem mem (h : Grown r l l') {a : α} (ha : a ∈ l) : ∃ b ∈ l', r a b := by
  obtain ⟨i, hi⟩ := List.mem_iff_getElem?.mp ha
  obtain ⟨b, hb, hab⟩ := h i a hi
  exact ⟨b, List.mem_of_getElem? hb, hab⟩

end Grown

/-! ## Rows with a key of their own -/

/-- What holds of every row, and of a rewritten row, holds after one row is rewritten. -/
theorem List.forall_mem_modify {α : Type*} {P : α → Prop} {l : List α} {i : Nat} {f : α → α}
    (hl : ∀ a ∈ l, P a) (hf : ∀ a ∈ l, P a → P (f a)) : ∀ a ∈ l.modify i f, P a := by
  intro a ha
  obtain ⟨j, hj⟩ := List.mem_iff_getElem?.mp ha
  rw [List.getElem?_modify] at hj
  obtain ⟨b, hb, hj⟩ := Option.map_eq_some_iff.mp hj
  have hmem := List.mem_of_getElem? hb
  split at hj
  · rw [← hj]
    exact hf b hmem (hl b hmem)
  · rw [← hj]
    exact hl b hmem

section

variable {α β : Type*} {f : α → β} {l : List α}

/-- Two rows with one key are one row. -/
theorem List.Nodup.index_unique (hnd : (l.map f).Nodup) {i j : Nat} {a b : α}
    (ha : l[i]? = some a) (hb : l[j]? = some b) (h : f a = f b) : i = j := by
  obtain ⟨hi, rfl⟩ := List.getElem?_eq_some_iff.mp ha
  obtain ⟨hj, rfl⟩ := List.getElem?_eq_some_iff.mp hb
  have hi' : i < (l.map f).length := by simpa using hi
  have hj' : j < (l.map f).length := by simpa using hj
  have heq : (l.map f)[i] = (l.map f)[j] := by simpa using h
  exact hnd.getElem_inj_iff.mp heq

theorem map_set_of_eq {i : Nat} {a b : α} (ha : l[i]? = some a) (h : f b = f a) :
    (l.set i b).map f = l.map f := by
  obtain ⟨hi, rfl⟩ := List.getElem?_eq_some_iff.mp ha
  rw [List.map_set, h]
  apply List.ext_getElem?
  intro j
  by_cases hij : i = j
  · subst hij
    rw [List.getElem?_set_self (by simpa using hi)]
    simp [hi]
  · rw [List.getElem?_set_ne hij]

end

/-! ## Numbering by key -/

section

variable {κ : Type*} [BEq κ] [LawfulBEq κ]

theorem nodup_eraseDups : ∀ l : List κ, l.eraseDups.Nodup
  | [] => by simp
  | x :: l => by
      rw [List.eraseDups_cons, List.nodup_cons]
      refine ⟨?_, nodup_eraseDups (l.filter fun y => !y == x)⟩
      rw [List.mem_eraseDups, List.mem_filter]
      simp
termination_by l => l.length
decreasing_by exact Nat.lt_succ_of_le (List.length_filter_le _ _)

/-- One more item is kept when it is new. -/
theorem eraseDups_concat (l : List κ) (a : κ) :
    (l ++ [a]).eraseDups = if a ∈ l then l.eraseDups else l.eraseDups ++ [a] := by
  rw [List.eraseDups_append]
  by_cases ha : a ∈ l
  · have hnone : [a].removeAll l = [] := by
      unfold List.removeAll
      rw [List.filter_eq_nil_iff]
      simpa using ha
    rw [hnone, if_pos ha, List.eraseDups_nil, List.append_nil]
  · have hself : [a].removeAll l = [a] := by
      unfold List.removeAll
      rw [List.filter_eq_self]
      simpa using ha
    rw [hself, if_neg ha]
    rfl

/-- A renaming that tells the items apart keeps them apart. -/
theorem eraseDups_map {α : Type*} [BEq α] [LawfulBEq α] {f : α → κ} {l : List α}
    (h : ∀ a ∈ l, ∀ b ∈ l, f a = f b → a = b) : (l.map f).eraseDups = l.eraseDups.map f := by
  induction l using List.reverseRecOn with
  | nil => rfl
  | append_singleton l a ih =>
      have hl := ih fun x hx y hy => h x (List.mem_append_left _ hx) y (List.mem_append_left _ hy)
      rw [List.map_append, List.map_singleton, eraseDups_concat, eraseDups_concat, hl]
      have hmem : f a ∈ l.map f ↔ a ∈ l := by
        constructor
        · intro hfa
          obtain ⟨x, hx, heq⟩ := List.mem_map.mp hfa
          have := h x (List.mem_append_left _ hx) a (List.mem_append_right _ (by simp)) heq
          rwa [← this]
        · exact fun ha => List.mem_map_of_mem ha
      simp only [hmem]
      split
      · rfl
      · rw [List.map_append, List.map_singleton]

variable {α : Type*} {l : List α} {m : Nat} (key : α → κ)

/-- The place of an item's key among the distinct keys, counted modulo `m`. -/
def keyIndex (l : List α) (m : Nat) (a : α) : Nat :=
  (l.map key).eraseDups.idxOf (key a) % m

theorem key_mem {a : α} (ha : a ∈ l) : key a ∈ (l.map key).eraseDups :=
  List.mem_eraseDups.mpr (List.mem_map_of_mem ha)

variable [DecidableEq α]

theorem length_keys_le (h : l.toFinset.card ≤ m) : (l.map key).eraseDups.length ≤ m := by
  classical
  have hcard : (l.map key).eraseDups.length = (l.toFinset.image key).card := by
    rw [← List.toFinset_card_of_nodup (nodup_eraseDups _)]
    congr 1
    ext x
    simp
  rw [hcard]
  exact Finset.card_image_le.trans h

/-- The index tells the items apart exactly when the key does and there are at most `m` of them. -/
theorem keyIndex_inj_iff (hm : 0 < m) :
    (∀ a ∈ l, ∀ b ∈ l, keyIndex key l m a = keyIndex key l m b ↔ a = b) ↔
      (∀ a ∈ l, ∀ b ∈ l, key a = key b → a = b) ∧ l.toFinset.card ≤ m := by
  constructor
  · intro h
    refine ⟨fun a ha b hb hk => (h a ha b hb).mp ?_, ?_⟩
    · unfold keyIndex
      rw [hk]
    · have hinj : Set.InjOn (keyIndex key l m) (l.toFinset : Set α) := fun a ha b hb heq =>
        (h a (by simpa using ha) b (by simpa using hb)).mp heq
      have hlt : ∀ a ∈ l.toFinset, keyIndex key l m a ∈ Finset.range m := fun a _ =>
        Finset.mem_range.mpr (Nat.mod_lt _ hm)
      simpa using Finset.card_le_card_of_injOn _ hlt hinj
  · rintro ⟨hkey, hcard⟩ a ha b hb
    refine ⟨fun heq => hkey a ha b hb ?_, fun heq => by rw [heq]⟩
    have hlen := length_keys_le key hcard
    have hia := List.idxOf_lt_length_of_mem (key_mem key ha)
    have hib := List.idxOf_lt_length_of_mem (key_mem key hb)
    unfold keyIndex at heq
    rw [Nat.mod_eq_of_lt (by omega), Nat.mod_eq_of_lt (by omega)] at heq
    exact (List.idxOf_inj (key_mem key ha)).mp heq

end
