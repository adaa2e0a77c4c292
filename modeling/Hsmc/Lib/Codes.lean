import Mathlib.Data.List.Basic

/-
  Codes that can be read back from the front of a longer word.

  `PrefixFree P f`: among the values with `P`, from `f a` and whatever follows it, `a` and what
  follows can be told. Words of one length are such a code (`PrefixFree.of_length`), and so are
  words closed by a letter of their own (`PrefixFree.close`). A list of code words can be read
  up to a separator that no word begins with (`PrefixFree.upTo`), or up to the end
  (`PrefixFree.toEnd`).
-/

/-- A value with `P`, and where its code ends, can be told from the code. -/
def PrefixFree {α β : Type*} (P : α → Prop) (f : α → List β) : Prop :=
  ∀ a b r r', P a → P b → f a ++ r = f b ++ r' → a = b ∧ r = r'

namespace PrefixFree

variable {α β : Type*} {P : α → Prop} {f : α → List β}

theorem of_length {n : Nat} (hn : ∀ a, P a → (f a).length = n)
    (hinj : ∀ a b, P a → P b → f a = f b → a = b) : PrefixFree P f := by
  intro a b r r' ha hb he
  obtain ⟨hab, hr⟩ := List.append_inj he ((hn a ha).trans (hn b hb).symm)
  exact ⟨hinj a b ha hb hab, hr⟩

/-- Words closed by a letter that does not stand in them. -/
theorem close [DecidableEq β] {t : β} (ht : ∀ a, P a → t ∉ f a)
    (hinj : ∀ a b, P a → P b → f a = f b → a = b) : PrefixFree P fun a => f a ++ [t] := by
  intro a b r r' ha hb he
  simp only [List.append_assoc, List.singleton_append] at he
  have hlen := congrArg (List.idxOf t) he
  rw [List.idxOf_append_of_notMem (ht a ha), List.idxOf_append_of_notMem (ht b hb),
    List.idxOf_cons_self, List.idxOf_cons_self, Nat.add_zero, Nat.add_zero] at hlen
  obtain ⟨hab, hr⟩ := List.append_inj he hlen
  exact ⟨hinj a b ha hb hab, (List.cons.inj hr).2⟩

/-- A list of code words, up to a separator that no word begins with. -/
theorem upTo (h : PrefixFree P f) {sep : List β}
    (hsep : ∀ a r r', P a → f a ++ r ≠ sep ++ r') {r r' : List β} : ∀ {l l' : List α},
    (∀ a ∈ l, P a) → (∀ a ∈ l', P a) → l.flatMap f ++ (sep ++ r) = l'.flatMap f ++ (sep ++ r') →
    l = l' ∧ r = r'
  | [], [], _, _, he => ⟨rfl, List.append_cancel_left he⟩
  | [], b :: l', _, hb, he => by
      rw [List.flatMap_nil, List.nil_append, List.flatMap_cons, List.append_assoc] at he
      exact absurd he.symm (hsep b _ _ (hb b List.mem_cons_self))
  | a :: l, [], ha, _, he => by
      rw [List.flatMap_nil, List.nil_append, List.flatMap_cons, List.append_assoc] at he
      exact absurd he (hsep a _ _ (ha a List.mem_cons_self))
  | a :: l, b :: l', ha, hb, he => by
      simp only [List.flatMap_cons, List.append_assoc] at he
      obtain ⟨rfl, hrest⟩ := h a b _ _ (ha a List.mem_cons_self) (hb b List.mem_cons_self) he
      obtain ⟨rfl, hr⟩ := upTo h hsep (fun x hx => ha x (List.mem_cons_of_mem _ hx))
        (fun x hx => hb x (List.mem_cons_of_mem _ hx)) hrest
      exact ⟨rfl, hr⟩

/-- A list of code words, none of them empty, up to the end. -/
theorem toEnd (h : PrefixFree P f) (hne : ∀ a, P a → f a ≠ []) : ∀ {l l' : List α},
    (∀ a ∈ l, P a) → (∀ a ∈ l', P a) → l.flatMap f = l'.flatMap f → l = l'
  | [], [], _, _, _ => rfl
  | [], b :: l', _, hb, he => by
      rw [List.flatMap_nil, List.flatMap_cons] at he
      exact absurd (List.append_eq_nil_iff.mp he.symm).1 (hne b (hb b List.mem_cons_self))
  | a :: l, [], ha, _, he => by
      rw [List.flatMap_nil, List.flatMap_cons] at he
      exact absurd (List.append_eq_nil_iff.mp he).1 (hne a (ha a List.mem_cons_self))
  | a :: l, b :: l', ha, hb, he => by
      simp only [List.flatMap_cons] at he
      obtain ⟨rfl, hrest⟩ := h a b _ _ (ha a List.mem_cons_self) (hb b List.mem_cons_self) he
      rw [toEnd h hne (fun x hx => ha x (List.mem_cons_of_mem _ hx))
        (fun x hx => hb x (List.mem_cons_of_mem _ hx)) hrest]

end PrefixFree
