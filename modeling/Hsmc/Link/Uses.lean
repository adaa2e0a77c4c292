import Hsmc.Link.Intern

/-
  Lowering as one pass over the uses of names.

  What lowering does to the symbol tables does not depend on the states, so it is a loop over
  the names a chart uses in the order of the source (`lowerBody_uses`). Every loop over uses
  grows the tables (`uses_grow`).
-/

namespace Hsmc

/-- A place that names an action, or a trigger and its target. -/
inductive Use where
  | action (i : Ident)
  | handler (h : Handler)

def StateBody.uses (body : StateBody) : List Use :=
  body.entries.map .action ++ body.exits.map .action ++ body.handlers.map .handler

mutual

/-- The uses within a declaration, in the order of the source. -/
def StateDecl.uses : StateDecl → List Use
  | .mk _ body children => body.uses ++ usesAll children

def usesAll : List StateDecl → List Use
  | [] => []
  | c :: cs => c.uses ++ usesAll cs

end

/-- The symbols after a use. -/
def applyUse (names : List Ident) (syms : Symbols) : Use → Except String Symbols
  | .action i => do
      let (actions, _) ← internActionUnit syms.actions i
      .ok { syms with actions }
  | .handler h => do
      let (syms, _, trigger) ← lowerTrigger syms [] h.trigger
      let (syms, _) ← classifyTarget syms h.target trigger names
      .ok syms

/-! ## Lowering is the loop over the uses -/

section

variable {names : List Ident}

/-- What follows a computation, when it uses only the first of the two results. -/
theorem map_bind_fst {ε α β γ δ : Type} {x : Except ε (α × β)} {y : Except ε α}
    {f : α × β → Except ε γ} {k : γ → δ} {g : α → Except ε δ} (hx : Prod.fst <$> x = y)
    (h : ∀ a b, k <$> f (a, b) = g a) : k <$> (x >>= f) = y >>= g := by
  subst hx
  cases x with
  | error e => rfl
  | ok r => exact h r.1 r.2

theorem internActions_uses (names : List Ident) : ∀ (is : List Ident) (syms : Symbols),
    Prod.fst <$> internActions syms is = (is.map .action).foldlM (applyUse names) syms
  | [], _ => rfl
  | i :: is, syms => by
      unfold internActions
      rw [List.map_cons, List.foldlM_cons, applyUse]
      cases internActionUnit syms.actions i with
      | error e => rfl
      | ok r =>
          refine Eq.trans ?_ (internActions_uses names is { syms with actions := r.1 })
          dsimp only [Except.ok_bind_eq]
          cases internActions { syms with actions := r.1 } is <;> rfl

/-- The timers a state owns once it handles the trigger. -/
def ownWith (owned : List Nat) : TriggerIr → List Nat
  | .event .. => owned
  | .duration id => if owned.contains id then owned else owned ++ [id]

/-- The timers a state owns so far do not show in the symbols. -/
theorem lowerTrigger_owned (syms : Symbols) (owned : List Nat) (t : Trigger) :
    lowerTrigger syms owned t =
      (fun r => (r.1, ownWith owned r.2.2, r.2.2)) <$> lowerTrigger syms [] t := by
  cases t with
  | event variant payload =>
      unfold lowerTrigger
      dsimp only
      cases internEvent syms.eventVariants variant payload <;> rfl
  | duration expr key repeats => rfl

theorem lowerHandlers_uses : ∀ (hs : List Handler) (syms : Symbols) (owned : List Nat),
    Prod.fst <$> lowerHandlers names syms owned hs =
      (hs.map .handler).foldlM (applyUse names) syms
  | [], _, _ => rfl
  | h :: hs, syms, owned => by
      unfold lowerHandlers
      rw [List.map_cons, List.foldlM_cons, applyUse, lowerTrigger_owned]
      cases lowerTrigger syms [] h.trigger with
      | error e => rfl
      | ok r =>
          dsimp only [Functor.map, Except.map, Except.ok_bind_eq]
          cases classifyTarget r.1 h.target r.2.2 names with
          | error e => rfl
          | ok r' =>
              refine Eq.trans ?_ (lowerHandlers_uses hs r'.1 (ownWith owned r.2.2))
              dsimp only [Except.ok_bind_eq]
              cases lowerHandlers names r'.1 (ownWith owned r.2.2) hs <;> rfl

mutual

theorem lowerBody_uses : ∀ (d : StateDecl) (syms : Symbols) (states : List StateIr) (sid : Nat),
    Prod.fst <$> lowerBody names syms states sid d = d.uses.foldlM (applyUse names) syms
  | .mk _ body children, syms, states, sid => by
      unfold lowerBody StateDecl.uses StateBody.uses
      simp only [List.foldlM_append, bind_assoc]
      refine map_bind_fst (internActions_uses names _ _) fun syms₁ entries => ?_
      refine map_bind_fst (internActions_uses names _ _) fun syms₂ exits => ?_
      refine map_bind_fst (lowerHandlers_uses _ _ _) fun syms₃ r => ?_
      have h := lowerChildren_uses children syms₃
        (states.modify sid fun s => { s with
          entries, exits, ownedTimers := r.1, handlers := r.2, durings := body.durings }) sid
        (depthOf (states.modify sid fun s => { s with
          entries, exits, ownedTimers := r.1, handlers := r.2, durings := body.durings }) sid)
      rw [← h]
      cases lowerChildren names syms₃ _ sid _ children <;> rfl

theorem lowerChildren_uses : ∀ (cs : List StateDecl) (syms : Symbols) (states : List StateIr)
    (parent depth : Nat), Prod.fst <$> lowerChildren names syms states parent depth cs =
      (usesAll cs).foldlM (applyUse names) syms
  | [], syms, states, parent, depth => by
      unfold lowerChildren usesAll
      rfl
  | c :: cs, syms, states, parent, depth => by
      unfold lowerChildren usesAll
      simp only [List.foldlM_append]
      refine map_bind_fst (lowerBody_uses c syms _ _) fun syms₁ states₁ => ?_
      rw [← lowerChildren_uses cs syms₁ states₁ parent depth]
      cases lowerChildren names syms₁ states₁ parent depth cs <;> rfl

end

/-! ## Growing -/

theorem applyUse_grows {syms syms' : Symbols} (hok : syms.Ok) {use : Use}
    (h : applyUse names syms use = .ok syms') : syms.Grows syms' ∧ syms'.Ok := by
  cases use with
  | action i =>
      obtain ⟨⟨actions, aid⟩, h₁, h⟩ := Except.bind_eq_ok.mp h
      cases h
      have ha := internActionUnit_answers hok h₁
      exact ⟨ha.grows, ha.ok⟩
  | handler x =>
      obtain ⟨⟨syms₁, owned, trigger⟩, h₁, h⟩ := Except.bind_eq_ok.mp h
      obtain ⟨⟨syms₂, kind⟩, h₂, h⟩ := Except.bind_eq_ok.mp h
      cases h
      obtain ⟨g₁, ok₁, hat⟩ := lowerTrigger_answers hok h₁
      obtain ⟨g₂, ok₂, -⟩ := classifyTarget_kind ok₁ hat h₂
      exact ⟨g₁.trans g₂, ok₂⟩

theorem uses_grow {syms syms' : Symbols} (hok : syms.Ok) {us : List Use}
    (h : us.foldlM (applyUse names) syms = .ok syms') : syms.Grows syms' ∧ syms'.Ok := by
  refine Except.foldlM_induction (P := fun x => syms.Grows x ∧ x.Ok) ?_ ⟨.refl syms, hok⟩ h
  rintro use - x x' ⟨hg, hx⟩ hx'
  obtain ⟨hg', hok'⟩ := applyUse_grows hx hx'
  exact ⟨hg.trans hg', hok'⟩

/-- The symbols of a lowering that succeeds. -/
theorem foldlM_uses_of_ok {α : Type} {x : Except String (Symbols × α)} {y : Except String Symbols}
    (hx : Prod.fst <$> x = y) {syms : Symbols} {a : α} (h : x = .ok (syms, a)) : y = .ok syms := by
  rw [← hx, h]
  rfl

theorem lowerBody_grows {d : StateDecl} {syms syms' : Symbols} {states states' : List StateIr}
    {sid : Nat} (hok : syms.Ok) (h : lowerBody names syms states sid d = .ok (syms', states')) :
    syms.Grows syms' ∧ syms'.Ok :=
  uses_grow hok (foldlM_uses_of_ok (lowerBody_uses d syms states sid) h)

theorem lowerChildren_grows {cs : List StateDecl} {syms syms' : Symbols}
    {states states' : List StateIr} {parent depth : Nat} {ids : List Nat} (hok : syms.Ok)
    (h : lowerChildren names syms states parent depth cs = .ok (syms', states', ids)) :
    syms.Grows syms' ∧ syms'.Ok :=
  uses_grow hok (foldlM_uses_of_ok (lowerChildren_uses cs syms states parent depth) h)

end

end Hsmc
