import Mathlib.Data.List.Forall2

/-
  Two lists related item by item: finding the partner of an item, by membership and by index,
  and relating three lists.
-/

namespace List.Forall₂

variable {α β γ : Type*} {R : α → β → Prop} {S : β → γ → Prop} {l : List α} {l' : List β}
  {l'' : List γ}

theorem exists_of_mem_right (h : Forall₂ R l l') {b : β} (hb : b ∈ l') : ∃ a ∈ l, R a b := by
  induction h with
  | nil => cases hb
  | cons hab _ ih =>
      rcases List.mem_cons.mp hb with rfl | hb
      · exact ⟨_, List.mem_cons_self, hab⟩
      · obtain ⟨a, ha, hr⟩ := ih hb
        exact ⟨a, List.mem_cons_of_mem _ ha, hr⟩

theorem exists_of_mem_left (h : Forall₂ R l l') {a : α} (ha : a ∈ l) : ∃ b ∈ l', R a b :=
  exists_of_mem_right (R := fun b a => R a b) h.flip ha

theorem exists_of_getElem? (h : Forall₂ R l l') {i : Nat} {a : α} (ha : l[i]? = some a) :
    ∃ b, l'[i]? = some b ∧ R a b := by
  induction h generalizing i with
  | nil => simp at ha
  | cons hab _ ih =>
      cases i with
      | zero =>
          rw [List.getElem?_cons_zero, Option.some.injEq] at ha
          subst ha
          exact ⟨_, rfl, hab⟩
      | succ i => exact ih ha

theorem comp (h : Forall₂ R l l') (h' : Forall₂ S l' l'') :
    Forall₂ (fun a c => ∃ b, R a b ∧ S b c) l l'' := by
  induction h generalizing l'' with
  | nil => cases h'; exact .nil
  | cons hab _ ih =>
      cases h' with
      | cons hbc h' => exact .cons ⟨_, hab, hbc⟩ (ih h')

theorem concat (h : Forall₂ R l l') {a : α} {b : β} (hab : R a b) :
    Forall₂ R (l ++ [a]) (l' ++ [b]) := by
  induction h with
  | nil => exact .cons hab .nil
  | cons hx _ ih => exact .cons hx ih

/-- Each item of the one list has a property exactly when each of the other has one. -/
theorem forall_mem_iff {P : α → Prop} {Q : β → Prop} (h : Forall₂ R l l')
    (hpq : ∀ a b, R a b → (P a ↔ Q b)) : (∀ a ∈ l, P a) ↔ ∀ b ∈ l', Q b := by
  induction h with
  | nil => simp
  | cons hab _ ih => rw [List.forall_mem_cons, List.forall_mem_cons, hpq _ _ hab, ih]

/-- What holds of the partners of any two items, taken in order, holds of the items. -/
theorem pairwise_left {P : α → α → Prop} {Q : β → β → Prop} (h : Forall₂ R l l')
    (hp : l'.Pairwise Q) (hq : ∀ a b a' b', R a b → R a' b' → Q b b' → P a a') :
    l.Pairwise P := by
  induction h with
  | nil => exact .nil
  | @cons a b l l' hab hl ih =>
      obtain ⟨hfirst, hp⟩ := List.pairwise_cons.mp hp
      refine .cons (fun a' ha' => ?_) (ih hp)
      obtain ⟨b', hb', hr⟩ := hl.exists_of_mem_left ha'
      exact hq a b a' b' hab hr (hfirst b' hb')

theorem pairwise_iff {P : α → α → Prop} {Q : β → β → Prop} (h : Forall₂ R l l')
    (hpq : ∀ a b a' b', R a b → R a' b' → (P a a' ↔ Q b b')) : l.Pairwise P ↔ l'.Pairwise Q :=
  ⟨fun hp => pairwise_left (R := fun b a => R a b) h.flip hp
      fun _ _ _ _ hab hab' => (hpq _ _ _ _ hab hab').mp,
    fun hq => h.pairwise_left hq fun _ _ _ _ hab hab' => (hpq _ _ _ _ hab hab').mpr⟩

/-- Two lists whose partners look the same look the same, where `q` is told by the partner. -/
theorem map_eq {α' β' δ ε : Type*} {R' : α' → β' → Prop} {m : List α'} {m' : List β'}
    {f : β → δ} {f' : β' → δ} {q : α → ε} {q' : α' → ε} (h : Forall₂ R l l')
    (h' : Forall₂ R' m m') (hf : l'.map f = m'.map f')
    (hq : ∀ a b a' b', R a b → R' a' b' → f b = f' b' → q a = q' a') : l.map q = m.map q' := by
  induction h generalizing m m' with
  | nil =>
      cases h' with
      | nil => rfl
      | cons _ _ => cases hf
  | cons hab _ ih =>
      cases h' with
      | nil => cases hf
      | cons hab' h' =>
          obtain ⟨hb, hf⟩ := List.cons.inj hf
          exact congrArg₂ List.cons (hq _ _ _ _ hab hab' hb) (ih h' hf)

/-- Two images of related lists agree exactly when each pair agrees, where `q` tells of which
    pairs do. -/
theorem map_eq_map_iff {δ : Type*} {f : β → δ} {g : α → δ} {q : α → Prop} (h : Forall₂ R l l')
    (hq : ∀ a b, R a b → (f b = g a ↔ q a)) : l'.map f = l.map g ↔ ∀ a ∈ l, q a := by
  induction h with
  | nil => simp
  | cons hab _ ih => rw [List.map_cons, List.map_cons, List.cons.injEq, hq _ _ hab, ih,
      List.forall_mem_cons]

theorem filterMap_eq {δ : Type*} {f : α → Option δ} {g : β → Option δ} (h : Forall₂ R l l')
    (hfg : ∀ a b, R a b → f a = g b) : l.filterMap f = l'.filterMap g := by
  induction h with
  | nil => rfl
  | cons hab _ ih => rw [List.filterMap_cons, List.filterMap_cons, hfg _ _ hab, ih]

end List.Forall₂
