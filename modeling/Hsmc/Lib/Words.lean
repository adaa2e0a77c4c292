import Mathlib.Computability.Language
import Mathlib.Order.CompletePartialOrder

/-
  Words and stars of languages, as used to describe what a computation appends to a log.

  `Appends L l l'` says that `l'` is `l` followed by a word of `L`; it composes by the product
  of languages (`Appends.trans`), and repeating a step stays in the star (`Appends.star_cons`).
-/

open Computability

namespace Language

variable {α β : Type*} {L L' : Language α} {w w' : List α}

theorem mem_kstar_of_mem (h : w ∈ L) : w ∈ L∗ :=
  Set.mem_of_mem_of_subset h (le_kstar (a := L))

theorem append_mem_kstar (h : w ∈ L∗) (h' : w' ∈ L∗) : w ++ w' ∈ L∗ := by
  have := append_mem_mul h h'
  rwa [kstar_mul_kstar] at this

theorem map_mem_kstar {f : β → α} (hf : ∀ b, [f b] ∈ L) : ∀ l : List β, l.map f ∈ L∗
  | [] => nil_mem_kstar L
  | b :: l => append_mem_kstar (mem_kstar_of_mem (hf b)) (map_mem_kstar hf l)

/-- What holds of the letters of every word of `L` holds of the letters of `L∗`. -/
theorem forall_mem_kstar {P : α → Prop} (hL : ∀ w ∈ L, ∀ a ∈ w, P a) (h : w ∈ L∗) :
    ∀ a ∈ w, P a := by
  obtain ⟨ws, rfl, hws⟩ := mem_kstar.mp h
  intro a ha
  obtain ⟨w, hw, ha⟩ := List.mem_flatten.mp ha
  exact hL w (hws w hw) a ha

/-- The words whose letters all satisfy `P`. -/
def letters (P : α → Prop) : Language α := {w | ∀ a ∈ w, P a}

theorem mul_le_letters {P : α → Prop} (h : L ≤ letters P) (h' : L' ≤ letters P) :
    L * L' ≤ letters P := by
  intro w hw a ha
  obtain ⟨w₁, h₁, w₂, h₂, rfl⟩ := mem_mul.mp hw
  rcases List.mem_append.mp ha with ha | ha
  · exact h h₁ a ha
  · exact h' h₂ a ha

theorem kstar_le_letters {P : α → Prop} (h : L ≤ letters P) : L∗ ≤ letters P :=
  fun _ hw => forall_mem_kstar (fun _ hw' => h hw') hw

theorem nil_mem_one_add : ([] : List α) ∈ 1 + L := Or.inl nil_mem_one

theorem mem_one_add (h : w ∈ L) : w ∈ 1 + L := Or.inr h

end Language

/-- `l'` is `l` with a word of `L` appended. -/
def Appends {α : Type*} (L : Language α) (l l' : List α) : Prop := ∃ w ∈ L, l' = l ++ w

namespace Appends

variable {α : Type*} {L L' : Language α} {l l' l'' : List α}

theorem refl (l : List α) : Appends 1 l l := ⟨[], Language.nil_mem_one, by simp⟩

theorem of_mem {w : List α} (h : w ∈ L) (l : List α) : Appends L l (l ++ w) := ⟨w, h, rfl⟩

theorem mono (hL : L ≤ L') (h : Appends L l l') : Appends L' l l' := by
  obtain ⟨w, hw, rfl⟩ := h
  exact ⟨w, hL hw, rfl⟩

theorem trans (h : Appends L l l') (h' : Appends L' l' l'') : Appends (L * L') l l'' := by
  obtain ⟨w, hw, rfl⟩ := h
  obtain ⟨w', hw', rfl⟩ := h'
  exact ⟨w ++ w', Language.append_mem_mul hw hw', List.append_assoc _ _ _⟩

theorem star_refl (l : List α) : Appends L∗ l l := ⟨[], Language.nil_mem_kstar L, by simp⟩

/-- One more word, before the others. -/
theorem star_cons (h : Appends L l l') (h' : Appends L∗ l' l'') : Appends L∗ l l'' := by
  obtain ⟨w, hw, rfl⟩ := h
  obtain ⟨w', hw', rfl⟩ := h'
  exact ⟨w ++ w', Language.append_mem_kstar (Language.mem_kstar_of_mem hw) hw',
    List.append_assoc _ _ _⟩

/-- A log that is itself in `L`, extended by a word of `L'`. -/
theorem mem_mul (hl : l ∈ L) (h : Appends L' l l') : l' ∈ L * L' := by
  obtain ⟨w, hw, rfl⟩ := h
  exact Language.append_mem_mul hl hw

end Appends
