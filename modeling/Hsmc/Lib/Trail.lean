import Mathlib.Data.List.Chain
import Mathlib.Data.List.Nodup

/-
  Following a partial function until it ends.

  `Trail f a l` says that `l` is the complete walk `a, f a, f (f a), ..` up to the first node
  without an image. A walk is unique (`Trail.unique`), never repeats a node (`Trail.nodup`),
  and so is no longer than the set of nodes it runs through (`Trail.length_le`). `TrailUntil` is
  a walk that may be cut short after a step. No walk that ends goes round a cycle
  (`Ends.not_isCycle`).
-/

/-- The walk from `a` along `f` ends, and visits `l`. -/
inductive Trail {α : Type*} (f : α → Option α) : α → List α → Prop where
  | stop {a : α} : f a = none → Trail f a [a]
  | step {a b : α} {l : List α} : f a = some b → Trail f b l → Trail f a (a :: l)

/-- The walk from `a` along `f` ends. -/
def Ends {α : Type*} (f : α → Option α) (a : α) : Prop := ∃ l, Trail f a l

namespace Trail

variable {α : Type*} {f : α → Option α} {a b : α} {l l' : List α}

theorem unique (h : Trail f a l) (h' : Trail f a l') : l = l' := by
  induction h generalizing l' with
  | stop ha =>
      cases h' with
      | stop _ => rfl
      | step hb _ => rw [ha] at hb; cases hb
  | step hb _ ih =>
      cases h' with
      | stop ha => rw [hb] at ha; cases ha
      | step hb' h' =>
          rw [hb] at hb'; cases hb'
          rw [ih h']

/-- From a visited node on, the walk is a part of the walk. -/
theorem suffix_of_mem (h : Trail f a l) (hb : b ∈ l) : ∃ l', Trail f b l' ∧ l' <:+ l := by
  induction h with
  | stop ha =>
      rw [List.mem_singleton] at hb
      subst hb
      exact ⟨_, .stop ha, List.suffix_rfl⟩
  | step ha h ih =>
      rcases List.mem_cons.mp hb with rfl | hb
      · exact ⟨_, .step ha h, List.suffix_rfl⟩
      · obtain ⟨l', h', hs⟩ := ih hb
        exact ⟨l', h', hs.trans (List.suffix_cons _ _)⟩

theorem nodup (h : Trail f a l) : l.Nodup := by
  induction h with
  | stop _ => exact List.nodup_singleton _
  | @step a b l ha h ih =>
      refine List.nodup_cons.mpr ⟨?_, ih⟩
      -- a second visit would make the walk a proper part of itself
      intro hmem
      obtain ⟨l', h', hs⟩ := h.suffix_of_mem hmem
      have hlen := hs.length_le
      rw [h'.unique (.step ha h), List.length_cons] at hlen
      omega

theorem length_le {f : Nat → Option Nat} {n a : Nat} {l : List Nat} (h : Trail f a l)
    (hn : ∀ x ∈ l, x < n) : l.length ≤ n := by
  have hsub : l ⊆ List.range n := fun x hx => List.mem_range.mpr (hn x hx)
  simpa using h.nodup.length_le_of_subset hsub

/-- A property of the start that `f` keeps holds all along the walk. -/
theorem forall_mem {P : α → Prop} (hP : ∀ x y, P x → f x = some y → P y) (h : Trail f a l)
    (ha : P a) : ∀ x ∈ l, P x := by
  induction h with
  | stop _ => simpa using ha
  | step hb _ ih =>
      intro x hx
      rcases List.mem_cons.mp hx with rfl | hx
      · exact ha
      · exact ih (hP _ _ ha hb) x hx

end Trail

theorem Ends.of_none {α : Type*} {f : α → Option α} {a : α} (h : f a = none) : Ends f a :=
  ⟨[a], .stop h⟩

theorem Ends.of_some {α : Type*} {f : α → Option α} {a b : α} (h : f a = some b)
    (hb : Ends f b) : Ends f a := by
  obtain ⟨l, hl⟩ := hb
  exact ⟨a :: l, .step h hl⟩

/-! ## Cycles -/

/-- Each node of `l` leads to the next one, and the last one to the first. -/
def IsCycle {α : Type*} (f : α → Option α) (l : List α) : Prop :=
  ∃ a, l.head? = some a ∧ l.Nodup ∧ (l ++ [a]).IsChain fun x y => f x = some y

/-- Round a cycle a node leads back to itself. -/
theorem IsCycle.transGen {α : Type*} {f : α → Option α} {l : List α} (h : IsCycle f l) :
    ∃ a, Relation.TransGen (fun x y => f x = some y) a a := by
  obtain ⟨a, hhead, -, hchain⟩ := h
  have hpair := (hchain.imp fun x y hxy => Relation.TransGen.single hxy).pairwise
  exact ⟨a, (List.pairwise_append.mp hpair).2.2 a (List.mem_of_head? hhead) a (by simp)⟩

/-- A walk that ends begins with every chain from its start. -/
theorem Trail.prefix_of_isChain {α : Type*} {f : α → Option α} {a : α} {t : List α}
    (h : Trail f a t) :
    ∀ {l : List α}, (a :: l).IsChain (fun x y => f x = some y) → a :: l <+: t := by
  induction h with
  | stop ha =>
      intro l hl
      cases l with
      | nil => exact List.prefix_rfl
      | cons b l =>
          rw [List.isChain_cons_cons, ha] at hl
          cases hl.1
  | step ha h ih =>
      intro l hl
      cases l with
      | nil => exact ⟨_, rfl⟩
      | cons b l =>
          rw [List.isChain_cons_cons, ha] at hl
          obtain ⟨hb, hl⟩ := hl
          cases hb
          exact List.cons_prefix_cons.mpr ⟨rfl, ih hl⟩

theorem Ends.not_isCycle {α : Type*} {f : α → Option α} (h : ∀ a, Ends f a) (l : List α) :
    ¬ IsCycle f l := by
  rintro ⟨a, hhead, -, hchain⟩
  obtain ⟨l', rfl⟩ := List.head?_eq_some_iff.mp hhead
  obtain ⟨t, ht⟩ := h a
  -- once round the cycle, the walk would be back at its start
  have hnodup := (ht.prefix_of_isChain hchain).sublist.nodup ht.nodup
  exact (List.nodup_cons.mp hnodup).1 (by simp)

/-! ## Walks that are cut short -/

/-- The walk from `a` along `f` up to the first step of which `p` holds, or to its end. -/
inductive TrailUntil {α : Type*} (f : α → Option α) (p : α → α → Prop) :
    α → List α → Prop where
  | rest {a : α} : f a = none → TrailUntil f p a [a]
  | halt {a b : α} : f a = some b → p a b → TrailUntil f p a [a, b]
  | step {a b : α} {l : List α} : f a = some b → ¬ p a b → TrailUntil f p b l →
      TrailUntil f p a (a :: l)

namespace TrailUntil

variable {α : Type*} {f : α → Option α} {p : α → α → Prop} {a : α} {l t : List α}

theorem eq_cons (h : TrailUntil f p a l) : ∃ l', l = a :: l' := by
  cases h with
  | rest _ => exact ⟨[], rfl⟩
  | halt _ _ => exact ⟨_, rfl⟩
  | step _ _ _ => exact ⟨_, rfl⟩

/-- A walk that ends can be cut. -/
theorem exists_prefix (h : Trail f a t) : ∃ l, TrailUntil f p a l ∧ l <+: t := by
  induction h with
  | stop ha => exact ⟨_, .rest ha, List.prefix_rfl⟩
  | @step a b t ha h ih =>
      by_cases hab : p a b
      · refine ⟨[a, b], .halt ha hab, ?_⟩
        cases h with
        | stop _ => exact List.prefix_rfl
        | step _ _ => exact ⟨_, rfl⟩
      · obtain ⟨l, hl, hp⟩ := ih
        exact ⟨a :: l, .step ha hab hl, List.cons_prefix_cons.mpr ⟨rfl, hp⟩⟩

end TrailUntil
