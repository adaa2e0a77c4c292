import Mathlib.Data.List.Basic

/-
  Items offered one by one to a queue that holds at most `cap` and that, once it has refused
  an item, refuses every later one.

  `Offered cap q shut acc ref q' shut'` says what a round of offers did to a queue `q` whose
  flag was `shut`: `acc` was taken and then `ref` refused, in this order. The two rules
  `accept` and `refuse` add one offer at the end.
-/

structure Offered {α : Type*} (cap : Nat) (q : List α) (shut : Bool) (acc ref q' : List α)
    (shut' : Bool) : Prop where
  items : q' = q ++ acc
  length_le : q'.length ≤ cap
  /-- The first refusal came from a full queue, or the queue was shut before. -/
  full : ref ≠ [] → shut = true ∨ q'.length = cap
  shut_acc : shut = true → acc = []
  shut_eq : shut' = (shut || !ref.isEmpty)

namespace Offered

variable {α : Type*} {cap : Nat} {q q' acc ref : List α} {shut shut' : Bool}

theorem refl (h : q.length ≤ cap) : Offered cap q shut [] [] q shut :=
  ⟨by simp, h, by simp, by simp, by simp⟩

theorem ref_eq_nil (h : Offered cap q shut acc ref q' false) : shut = false ∧ ref = [] := by
  have := h.shut_eq
  simpa using this

/-- An open queue with room takes the item. -/
theorem accept (h : Offered cap q shut acc ref q' false) (a : α) (hlt : q'.length < cap) :
    Offered cap q shut (acc ++ [a]) ref (q' ++ [a]) false := by
  obtain ⟨hs, hr⟩ := h.ref_eq_nil
  refine ⟨?_, ?_, ?_, ?_, h.shut_eq⟩
  · rw [h.items, List.append_assoc]
  · rw [List.length_append]
    exact hlt
  · simp [hr]
  · simp [hs]

/-- A queue that is shut or full refuses it. -/
theorem refuse (h : Offered cap q shut acc ref q' shut') (a : α)
    (hfull : shut' = true ∨ cap ≤ q'.length) :
    Offered cap q shut acc (ref ++ [a]) q' true := by
  refine ⟨h.items, h.length_le, ?_, h.shut_acc, by simp⟩
  intro _
  rcases hfull with hs | hlen
  · rw [h.shut_eq, Bool.or_eq_true] at hs
    rcases hs with hs | hs
    · exact Or.inl hs
    · exact h.full (by simpa using hs)
  · exact Or.inr (Nat.le_antisymm h.length_le hlen)

theorem shut_of_ref (h : Offered cap q shut acc ref q' shut') (hne : ref ≠ []) :
    shut' = true := by
  simp [h.shut_eq, hne]

end Offered
