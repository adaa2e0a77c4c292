import Hsmc.Lib.ParentTree

/-
  A stack of nested nodes, and entering and leaving one node at a time.

  `Nesting.Op.apply` refuses an operation that would break the nesting: only the innermost node
  can be left, and only a child of it (or the root, when nothing is active) can be entered.
  `replay` runs a sequence of operations. `replay_enterPath` is the point of it: entering the
  enter path of a move, on the part of the walk that the move leaves in place, leads to the walk
  of its destination.
-/

namespace Nesting

inductive Op (α : Type*) where
  | enter (a : α)
  | leave (a : α)
deriving DecidableEq

variable {α : Type*} [DecidableEq α]

section

variable (parent : α → Option α) (root : α)

/-- The stack after one operation, innermost first; `none` when it breaks the nesting. -/
def Op.apply : Op α → List α → Option (List α)
  | .enter a, [] => if a = root then some [a] else none
  | .enter a, b :: st => if parent a = some b then some (a :: b :: st) else none
  | .leave _, [] => none
  | .leave a, b :: st => if a = b then some st else none

def replay (ops : List (Op α)) (st : List α) : Option (List α) :=
  ops.foldlM (fun st op => op.apply parent root st) st

end

variable {parent : α → Option α} {root : α} {st st' : List α} {ops ops' : List (Op α)}

@[simp] theorem replay_nil : replay parent root [] st = some st := rfl

theorem replay_cons (op : Op α) : replay parent root (op :: ops) st =
    (op.apply parent root st).bind (replay parent root ops) := rfl

theorem replay_append : replay parent root (ops ++ ops') st =
    (replay parent root ops st).bind (replay parent root ops') := by
  induction ops generalizing st with
  | nil => rfl
  | cons op ops ih =>
      rw [List.cons_append, replay_cons, replay_cons]
      cases op.apply parent root st with
      | none => rfl
      | some st₁ => exact ih

/-- What an accepted operation does to the stack. -/
theorem Op.apply_enter {a : α} (h : (Op.enter a).apply parent root st = some st') :
    st' = a :: st := by
  cases st with
  | nil =>
      simp only [Op.apply] at h
      split at h
      · cases h; rfl
      · cases h
  | cons b st =>
      simp only [Op.apply] at h
      split at h
      · cases h; rfl
      · cases h

/-! ## Moves in a tree -/

variable (T : ParentTree α) {a p src dst L : α}

theorem apply_enter_child (hp : T.parent a = some p) :
    (Op.enter a).apply T.parent root (T.up p) = some (T.up a) := by
  obtain ⟨l, hl⟩ := T.up_eq_cons p
  rw [T.up_of_parent hp, hl]
  simp [Op.apply, hp]

/-- Entering a whole walk from nothing. -/
theorem replay_enter_up (hroot : T.parent root = none) (h : root ∈ T.up dst) :
    replay T.parent root ((T.up dst).reverse.map .enter) [] = some (T.up dst) := by
  induction dst using T.upInduction with
  | root a ha =>
      have : root = a := by simpa [T.up_of_root ha] using h
      subst this
      simp [T.up_of_root ha, replay_cons, Op.apply]
  | step a p hp ih =>
      have hmem : root ∈ T.up p := by
        rw [T.up_of_parent hp, List.mem_cons] at h
        rcases h with rfl | h
        · rw [hroot] at hp; cases hp
        · exact h
      rw [T.up_of_parent hp, List.reverse_cons, List.map_append, replay_append, ih hmem]
      simp only [List.map_cons, List.map_nil, Option.bind_some, replay_cons]
      rw [apply_enter_child T hp, T.up_of_parent hp]
      rfl

/-- Entering a walk from one of its members down. -/
theorem replay_enter_segment (h : L ∈ T.up dst) :
    replay T.parent root ((T.segment (some L) dst).reverse.map .enter) (T.up L) =
      some (T.up dst) := by
  induction dst using T.upInduction with
  | root a ha =>
      have : L = a := by simpa [T.up_of_root ha] using h
      subst this
      simp
  | step a p hp ih =>
      by_cases he : a = L
      · subst he; simp
      · have hmem : L ∈ T.up p := by
          rw [T.up_of_parent hp, List.mem_cons] at h
          exact h.resolve_left (Ne.symm he)
        rw [T.segment_cons hp he, List.reverse_cons, List.map_append, replay_append, ih hmem]
        simp only [List.map_cons, List.map_nil, Option.bind_some, replay_cons]
        rw [apply_enter_child T hp]
        rfl

theorem replay_enterPath (hroot : T.parent root = none) (hs : root ∈ T.up src)
    (hd : root ∈ T.up dst) :
    replay T.parent root ((T.enterPath src dst).map .enter) (T.base src dst) =
      some (T.up dst) := by
  unfold ParentTree.enterPath ParentTree.base
  cases ht : T.turn src dst with
  | none => simpa using replay_enter_up T hroot hd
  | some L => exact replay_enter_segment T (T.turn_mem hs hd ht).2

end Nesting
