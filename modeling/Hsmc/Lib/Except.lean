import Hsmc.Lib.Forall2

/-
  Runs in the `Except` monad that ended in `.ok`.

  `bind_eq_ok` takes a sequence of computations apart; `foldlM_induction` and `mapM_forall₂` do
  the same for the loops. `foldlM_ok_iff` and `mapM_ok_iff` say when a loop ends at all. `Rel`
  compares two computations that fail alike, `RelUnless` two of which the first may get lost,
  and `Meets` is partial correctness with a set of errors that are allowed.
-/

namespace Except

variable {ε α β : Type} {f : α → Except ε β}

theorem bind_eq_ok {x : Except ε α} {b : β} : x >>= f = .ok b ↔ ∃ a, x = .ok a ∧ f a = .ok b := by
  cases x with
  | error e => simp [bind, Except.bind]
  | ok a => simp [bind, Except.bind]

/-- A check, and what comes after it. -/
theorem check_bind_eq_ok {x : Except ε Unit} {y : Except ε β} {b : β} :
    (x >>= fun _ => y) = .ok b ↔ x = .ok () ∧ y = .ok b := by
  rw [bind_eq_ok]
  exact ⟨fun ⟨_, hx, hy⟩ => ⟨hx, hy⟩, fun ⟨hx, hy⟩ => ⟨(), hx, hy⟩⟩

/-- The value of a computation that ended in `.ok`. -/
def get : (x : Except ε α) → x.isOk = true → α
  | .ok a, _ => a
  | .error _, h => (nomatch h)

theorem eq_ok_get (x : Except ε α) (h : x.isOk = true) : x = .ok (x.get h) := by
  cases x with
  | error e => cases h
  | ok a => rfl

@[simp] theorem ok_bind_eq (a : α) : (Except.ok a >>= f : Except ε β) = f a := rfl

/-- A loop of checks finds nothing exactly when no check does. -/
theorem forM_eq_ok {g : α → Except ε Unit} : ∀ {l : List α},
    l.forM g = .ok () ↔ ∀ a ∈ l, g a = .ok ()
  | [] => iff_of_true rfl (by simp)
  | a :: l => by
      rw [List.forM_eq_forM, List.forM_cons, check_bind_eq_ok, List.forall_mem_cons, ← forM_eq_ok]
      rfl

/-- What every turn of a loop preserves holds when the loop is done. -/
theorem foldlM_induction {g : β → α → Except ε β} {P : β → Prop} :
    ∀ {l : List α} {b b' : β}, (∀ a ∈ l, ∀ b b', P b → g b a = .ok b' → P b') → P b →
      l.foldlM g b = .ok b' → P b'
  | [], b, b', _, hb, h => by cases h; exact hb
  | a :: l, b, b', hstep, hb, h => by
      rw [List.foldlM_cons, bind_eq_ok] at h
      obtain ⟨b₁, h₁, h⟩ := h
      exact foldlM_induction (fun a ha => hstep a (List.mem_cons_of_mem _ ha))
        (hstep a List.mem_cons_self b b₁ hb h₁) h

/-- The same for a property that also names the items done so far. -/
theorem foldlM_prefix {g : β → α → Except ε β} {P : List α → β → Prop}
    (hstep : ∀ done a b b', P done b → g b a = .ok b' → P (done ++ [a]) b') :
    ∀ {l done : List α} {b b' : β}, P done b → l.foldlM g b = .ok b' → P (done ++ l) b'
  | [], done, b, b', hb, h => by
      cases h
      rw [List.append_nil]; exact hb
  | a :: l, done, b, b', hb, h => by
      rw [List.foldlM_cons, bind_eq_ok] at h
      obtain ⟨b₁, h₁, h⟩ := h
      have := foldlM_prefix hstep (hstep done a b b₁ hb h₁) h
      rwa [List.append_assoc, List.singleton_append] at this

/-- A whole loop: from nothing done to everything done. -/
theorem foldlM_run {g : β → α → Except ε β} {P : List α → β → Prop} {l : List α} {b b' : β}
    (hstep : ∀ done a b b', P done b → g b a = .ok b' → P (done ++ [a]) b') (hb : P [] b)
    (h : l.foldlM g b = .ok b') : P l b' := by
  have := foldlM_prefix hstep hb h
  rwa [List.nil_append] at this

/-- What the turn for `a` establishes and every later turn keeps holds when the loop is done;
    `P` is an invariant of the loop. -/
theorem foldlM_forall {g : β → α → Except ε β} {P : β → Prop} {Q : α → β → Prop}
    (hP : ∀ a b b', P b → g b a = .ok b' → P b')
    (hQ : ∀ a b b', P b → g b a = .ok b' → Q a b')
    (hkeep : ∀ x a b b', P b → Q x b → g b a = .ok b' → Q x b') :
    ∀ {l : List α} {b b' : β}, P b → l.foldlM g b = .ok b' → ∀ a ∈ l, Q a b'
  | [], _, _, _, _, a, ha => by cases ha
  | a :: l, b, b', hb, h, x, hx => by
      rw [List.foldlM_cons, bind_eq_ok] at h
      obtain ⟨b₁, h₁, h⟩ := h
      have hb₁ := hP a b b₁ hb h₁
      rcases List.mem_cons.mp hx with rfl | hx
      · have hboth := foldlM_induction (P := fun b => P b ∧ Q x b)
          (fun a _ b b' hb h => ⟨hP a b b' hb.1 h, hkeep x a b b' hb.1 hb.2 h⟩)
          ⟨hb₁, hQ x b b₁ hb h₁⟩ h
        exact hboth.2
      · exact foldlM_forall hP hQ hkeep hb₁ h x hx

/-- A loop that fails does so in a turn from a state with the invariant. -/
theorem foldlM_error {g : β → α → Except ε β} {P : β → Prop} {e : ε}
    (hP : ∀ a b b', P b → g b a = .ok b' → P b') :
    ∀ {l : List α} {b : β}, P b → l.foldlM g b = .error e →
      ∃ a ∈ l, ∃ b, P b ∧ g b a = .error e
  | [], _, _, h => by cases h
  | a :: l, b, hb, h => by
      rw [List.foldlM_cons] at h
      cases hg : g b a with
      | error e' =>
          rw [hg] at h
          cases h
          exact ⟨a, List.mem_cons_self, b, hb, hg⟩
      | ok b₁ =>
          rw [hg] at h
          obtain ⟨x, hx, b', hb', he⟩ := foldlM_error hP (hP a b b₁ hb hg) h
          exact ⟨x, List.mem_cons_of_mem _ hx, b', hb', he⟩

/-- A loop ends exactly when every turn can be taken, where `R` compares an item with those
    before it and `Q` looks at the item alone. -/
theorem foldlM_ok_iff {g : β → α → Except ε β} {P : List α → β → Prop} {R : α → α → Prop}
    {Q : α → Prop} {l : List α}
    (hstep : ∀ done a rest b, l = done ++ a :: rest → P done b →
      ((∃ b', g b a = .ok b') ↔ (∀ x ∈ done, R x a) ∧ Q a) ∧
        ∀ b', g b a = .ok b' → P (done ++ [a]) b') {b : β} (hb : P [] b) :
    (∃ b', l.foldlM g b = .ok b') ↔ l.Pairwise R ∧ ∀ a ∈ l, Q a := by
  have main : ∀ (rest done : List α) (b : β), l = done ++ rest → P done b →
      ((∃ b', rest.foldlM g b = .ok b') ↔
        (∀ a ∈ rest, (∀ x ∈ done, R x a) ∧ Q a) ∧ rest.Pairwise R) := by
    intro rest
    induction rest with
    | nil => exact fun done b _ _ => iff_of_true ⟨b, rfl⟩ ⟨by simp, .nil⟩
    | cons a rest ih =>
        intro done b hl hb
        obtain ⟨hok, hkeep⟩ := hstep done a rest b hl hb
        have hl' : l = (done ++ [a]) ++ rest := by rw [hl, List.append_assoc, List.singleton_append]
        rw [List.forall_mem_cons, List.pairwise_cons, ← hok]
        constructor
        · rintro ⟨b', h⟩
          rw [List.foldlM_cons, bind_eq_ok] at h
          obtain ⟨b₁, h₁, h⟩ := h
          obtain ⟨hall, hpair⟩ := (ih _ b₁ hl' (hkeep b₁ h₁)).mp ⟨b', h⟩
          exact ⟨⟨⟨b₁, h₁⟩, fun y hy => ⟨fun x hx => (hall y hy).1 x (List.mem_append_left _ hx),
            (hall y hy).2⟩⟩, fun y hy => (hall y hy).1 a (by simp), hpair⟩
        · rintro ⟨⟨⟨b₁, h₁⟩, hall⟩, hfirst, hpair⟩
          have hbefore : ∀ y ∈ rest, ∀ x ∈ done ++ [a], R x y := by
            intro y hy x hx
            rcases List.mem_append.mp hx with hx | hx
            · exact (hall y hy).1 x hx
            · rw [List.mem_singleton.mp hx]
              exact hfirst y hy
          obtain ⟨b', h⟩ := (ih _ b₁ hl' (hkeep b₁ h₁)).mpr
            ⟨fun y hy => ⟨hbefore y hy, (hall y hy).2⟩, hpair⟩
          exact ⟨b', by rw [List.foldlM_cons, h₁]; exact h⟩
  rw [main l [] b rfl hb]
  simp [and_comm]

theorem mapM_forall₂ : ∀ {l : List α} {l' : List β}, l.mapM f = .ok l' →
    List.Forall₂ (fun a b => f a = .ok b) l l'
  | [], l', h => by
      rw [List.mapM_nil] at h; cases h; exact .nil
  | a :: l, l', h => by
      rw [List.mapM_cons, bind_eq_ok] at h
      obtain ⟨b, hb, h⟩ := h
      rw [bind_eq_ok] at h
      obtain ⟨t, ht, h⟩ := h
      cases h
      exact .cons hb (mapM_forall₂ ht)

theorem mapM_eq_ok {l : List α} {l' : List β} (h : List.Forall₂ (fun a b => f a = .ok b) l l') :
    l.mapM f = .ok l' := by
  induction h with
  | nil => rw [List.mapM_nil]; rfl
  | cons h _ ih => rw [List.mapM_cons, h, ok_bind_eq, ih]; rfl

theorem mapM_ok_iff : ∀ {l : List α}, (∃ l', l.mapM f = .ok l') ↔ ∀ a ∈ l, ∃ b, f a = .ok b
  | [] => iff_of_true ⟨[], by rw [List.mapM_nil]; rfl⟩ (by simp)
  | a :: l => by
      simp only [List.mapM_cons, bind_eq_ok, List.forall_mem_cons, ← mapM_ok_iff (l := l)]
      constructor
      · rintro ⟨_, b, hb, t, ht, -⟩
        exact ⟨⟨b, hb⟩, t, ht⟩
      · rintro ⟨⟨b, hb⟩, t, ht⟩
        exact ⟨b :: t, b, hb, t, ht, rfl⟩

/-- Two such loops one after the other. -/
theorem mapM_mapM_ok_iff {γ : Type} {g : β → Except ε γ} {l : List α} :
    (∃ l' l'', l.mapM f = .ok l' ∧ l'.mapM g = .ok l'') ↔
      ∀ a ∈ l, ∃ b d, f a = .ok b ∧ g b = .ok d := by
  constructor
  · rintro ⟨l', l'', h, h'⟩ a ha
    obtain ⟨i, hi⟩ := List.mem_iff_getElem?.mp ha
    obtain ⟨b, hb, hab⟩ := (mapM_forall₂ h).exists_of_getElem? hi
    obtain ⟨d, -, hbd⟩ := (mapM_forall₂ h').exists_of_getElem? hb
    exact ⟨b, d, hab, hbd⟩
  · intro hall
    obtain ⟨l', h⟩ := mapM_ok_iff.mpr fun a ha => (hall a ha).imp fun _ ⟨_, hab, _⟩ => hab
    obtain ⟨l'', h'⟩ : ∃ l'', l'.mapM g = .ok l'' := by
      refine mapM_ok_iff.mpr fun b hb => ?_
      obtain ⟨a, ha, hab⟩ := (mapM_forall₂ h).exists_of_mem_right hb
      obtain ⟨b', d, hab', hbd⟩ := hall a ha
      rw [hab] at hab'
      cases hab'
      exact ⟨d, hbd⟩
    exact ⟨l', l'', h, h'⟩

/-! ## Two computations -/

/-- Both fail with the same error, or both end and their values are related. -/
inductive Rel {α β : Type} (R : α → β → Prop) : Except ε α → Except ε β → Prop where
  | ok {a : α} {b : β} : R a b → Rel R (.ok a) (.ok b)
  | error (e : ε) : Rel R (.error e) (.error e)

namespace Rel

variable {γ δ : Type} {R : α → β → Prop} {Q : γ → δ → Prop} {x : Except ε α} {y : Except ε β}

theorem bind {f : α → Except ε γ} {g : β → Except ε δ} (h : Rel R x y)
    (hf : ∀ a b, R a b → Rel Q (f a) (g b)) : Rel Q (x >>= f) (y >>= g) := by
  cases h with
  | ok hab => exact hf _ _ hab
  | error e => exact .error e

theorem refl (x : Except ε α) : Rel (· = ·) x x := by
  cases x with
  | ok a => exact .ok rfl
  | error e => exact .error e

/-- When the first ends, so does the second. -/
theorem trans {Q : β → γ → Prop} {z : Except ε γ} (h : Rel R x y) (h' : Rel Q y z)
    {P : α → γ → Prop} (hP : ∀ a b d, R a b → Q b d → P a d) : Rel P x z := by
  cases h with
  | error e =>
      cases h'
      exact .error e
  | ok hab =>
      cases h' with
      | ok hbd => exact .ok (hP _ _ _ hab hbd)

theorem of_ok {a : α} (h : Rel R (.ok a) y) : ∃ b, y = .ok b ∧ R a b := by
  cases h with
  | ok hab => exact ⟨_, rfl, hab⟩

theorem of_ok_right {b : β} (h : Rel R x (.ok b)) : ∃ a, x = .ok a ∧ R a b := by
  cases h with
  | ok hab => exact ⟨_, rfl, hab⟩

end Rel

/-- The two fail alike or end related, unless `p` holds and the first fails or gets lost. -/
inductive RelUnless {α β : Type} (p : Prop) (lost : α → Prop) (R : α → β → Prop) :
    Except ε α → Except ε β → Prop where
  | ok {a : α} {b : β} : R a b → RelUnless p lost R (.ok a) (.ok b)
  | error (e : ε) : RelUnless p lost R (.error e) (.error e)
  | lost {a : α} (y : Except ε β) : p → lost a → RelUnless p lost R (.ok a) y
  | failed (e : ε) (y : Except ε β) : p → RelUnless p lost R (.error e) y

namespace RelUnless

variable {γ δ : Type} {p : Prop} {lost : α → Prop} {lost' : γ → Prop} {R : α → β → Prop}
  {Q : γ → δ → Prop} {x : Except ε α} {y : Except ε β}

/-- What is lost stays lost in the rest of the computation. -/
theorem bind {f : α → Except ε γ} {g : β → Except ε δ} (h : RelUnless p lost R x y)
    (hlost : ∀ a d, lost a → f a = .ok d → lost' d)
    (hf : ∀ a b, R a b → RelUnless p lost' Q (f a) (g b)) :
    RelUnless p lost' Q (x >>= f) (y >>= g) := by
  cases h with
  | ok hR => exact hf _ _ hR
  | error e => exact .error e
  | failed e _ hp => exact .failed e _ hp
  | @lost a _ hp hl =>
      show RelUnless p lost' Q (f a) _
      cases hfa : f a with
      | error e => exact .failed e _ hp
      | ok d => exact .lost _ hp (hlost a d hl hfa)

theorem of_rel {R' : α → β → Prop} (h : Rel R' x y)
    (hR : ∀ a b, R' a b → (p ∧ lost a) ∨ R a b) : RelUnless p lost R x y := by
  cases h with
  | error e => exact .error e
  | @ok a b hab =>
      rcases hR a b hab with ⟨hp, hl⟩ | h
      · exact .lost _ hp hl
      · exact .ok h

theorem rel (h : RelUnless p lost R x y) (hp : ¬ p) : Rel R x y := by
  cases h with
  | ok hR => exact .ok hR
  | error e => exact .error e
  | lost _ h _ => exact absurd h hp
  | failed _ _ h => exact absurd h hp

theorem of_ok {a : α} (h : RelUnless p lost R (.ok a) y) :
    lost a ∨ ∃ b, y = .ok b ∧ R a b := by
  cases h with
  | ok hR => exact .inr ⟨_, rfl, hR⟩
  | lost _ _ hl => exact .inl hl

end RelUnless

/-! ## Partial correctness -/

/-- A value has `P`, and an error is one of those that are allowed. -/
def Meets (allowed : ε → Prop) (P : α → Prop) : Except ε α → Prop
  | .ok a => P a
  | .error e => allowed e

namespace Meets

variable {allowed : ε → Prop} {P : α → Prop} {Q : β → Prop} {x : Except ε α}

theorem bind (h : Meets allowed P x) (hf : ∀ a, P a → Meets allowed Q (f a)) :
    Meets allowed Q (x >>= f) := by
  cases x with
  | error e => exact h
  | ok a => exact hf a h

theorem ne_error (h : Meets allowed P x) {e : ε} (he : ¬ allowed e) : x ≠ .error e := by
  rintro rfl
  exact he h

theorem of_ok {a : α} (h : Meets allowed P x) (hx : x = .ok a) : P a := by
  subst hx
  exact h

theorem mono {P' : α → Prop} (h : Meets allowed P x) (hP : ∀ a, P a → P' a) :
    Meets allowed P' x := by
  cases x with
  | error e => exact h
  | ok a => exact hP a h

/-- Errors of another kind, turned into allowed ones. -/
theorem mapError {ε' : Type} {y : Except ε' α} {g : ε' → ε} (hg : ∀ e, allowed (g e))
    (h : ∀ a, y = .ok a → P a) : Meets allowed P (y.mapError g) := by
  cases y with
  | error e => exact hg e
  | ok a => exact h a rfl

end Meets

end Except
