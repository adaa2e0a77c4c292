import Hsmc.Link.Text

/-
  What the parser accepts.

  Each part of the parser ends within its fuel, and what it gives is readable (`Ends`). So a
  text that is accepted has readable items that `parseItems` parses to the same tree
  (`parseBody_ends`), and the tree is well formed (`parseItem_keeps`).
-/

namespace Hsmc

open Tokens

/-- The result has `P`. An error is not a lack of fuel. -/
abbrev Ends {α : Type} (P : α → Prop) (x : Except ParseError α) : Prop :=
  x.Meets (· ≠ .outOfFuel) P

/-! ## Single tokens -/

section

variable (S : Syn) (input : List Token)

theorem parseIdent_ends :
    Ends (fun r => S.IsIdent r.1 ∧ input = .ident r.1 :: r.2) (parseIdent S input) := by
  unfold parseIdent
  split
  · rename_i x input
    split
    · rename_i hx
      exact ⟨hx, rfl⟩
    · exact ParseError.noConfusion
  · exact ParseError.noConfusion

theorem parsePunct_ends (ch : Char) :
    Ends (fun rest => ∃ joint, input = .punct ch joint :: rest) (parsePunct ch input) := by
  unfold parsePunct
  split
  · rename_i ch' joint input
    split
    · rename_i hch
      exact ⟨joint, by rw [hch]⟩
    · exact ParseError.noConfusion
  · exact ParseError.noConfusion

theorem parseFatArrow_ends : Ends (· <:+ input) (parseFatArrow input) := by
  unfold parseFatArrow
  split
  · exact ⟨[_, _], rfl⟩
  · exact ParseError.noConfusion

theorem parseGroup_ends (d : Delimiter) :
    Ends (fun r => input = .group d r.1 :: r.2) (parseGroup d input) := by
  unfold parseGroup
  split
  · rename_i d' inner input
    split
    · rename_i hd
      rw [hd]
      exact rfl
    · exact ParseError.noConfusion
  · exact ParseError.noConfusion

theorem parseType_ends :
    Ends (fun r => S.IsType r.1 ∧ r.2 <:+ input) (Tokens.parseType S input) := by
  unfold Tokens.parseType
  split
  · rename_i r hr
    obtain ⟨used, -, hused⟩ := S.parseType_suffix hr
    exact ⟨⟨input, r.2, hr⟩, used, hused.symm⟩
  · exact ParseError.noConfusion

/-! ## Lists -/

theorem identListTail_ends : ∀ input,
    Ends (fun r => (∀ x ∈ r.1, S.IsIdent x) ∧ r.2 <:+ input) (identListTail S input)
  | .punct ch joint :: .ident x :: input => by
      rw [identListTail]
      split
      · split
        · rename_i hx
          refine (identListTail_ends input).bind ?_
          rintro ⟨xs, rest⟩ ⟨hxs, hrest⟩
          exact ⟨List.forall_mem_cons.mpr ⟨hx, hxs⟩, hrest.trans ⟨[_, _], rfl⟩⟩
        · exact ParseError.noConfusion
      · exact ⟨by simp, List.suffix_refl _⟩
  | [] => ⟨by simp, List.suffix_refl _⟩
  | .ident _ :: _ | .literal _ :: _ | .group _ _ :: _ => by
      rw [identListTail]
      · exact ⟨by simp, List.suffix_refl _⟩
      · simp
      · simp
  | [.punct ch joint] | .punct ch joint :: .punct _ _ :: _
  | .punct ch joint :: .literal _ :: _ | .punct ch joint :: .group _ _ :: _ => by
      rw [identListTail]
      · split
        · exact ParseError.noConfusion
        · exact ⟨by simp, List.suffix_refl _⟩
      · simp

theorem parseIdentList_ends :
    Ends (fun r => (∀ x ∈ r.1 :: r.2.1, S.IsIdent x) ∧ r.2.2 <:+ input)
      (parseIdentList S input) := by
  unfold parseIdentList
  refine (parseIdent_ends S input).bind ?_
  rintro ⟨first, input⟩ ⟨hfirst, rfl⟩
  refine (identListTail_ends S input).bind ?_
  rintro ⟨rest, input'⟩ ⟨hrest, hin⟩
  exact ⟨List.forall_mem_cons.mpr ⟨hfirst, hrest⟩, hin.trans (List.suffix_cons _ _)⟩

theorem parseFields_ends : ∀ input, Ends (fun xs => ∀ x ∈ xs, S.IsIdent x) (parseFields S input)
  | [] => by
      rw [parseFields]
      exact fun _ h => absurd h List.not_mem_nil
  | [.ident x] => by
      rw [parseFields]
      split
      · rename_i hx
        exact List.forall_mem_singleton.mpr hx
      · exact ParseError.noConfusion
  | .ident x :: .punct ch joint :: input => by
      rw [parseFields]
      split
      · rename_i hx
        split
        · refine (parseFields_ends input).bind ?_
          intro xs hxs
          exact List.forall_mem_cons.mpr ⟨hx, hxs⟩
        · exact ParseError.noConfusion
      · exact ParseError.noConfusion
  | .ident x :: .ident _ :: _ | .ident x :: .literal _ :: _ | .ident x :: .group _ _ :: _ => by
      rw [parseFields]
      · split <;> exact ParseError.noConfusion
      · simp
  | .punct _ _ :: _ | .literal _ :: _ | .group _ _ :: _ => by
      rw [parseFields]
      · exact ParseError.noConfusion
      all_goals simp

theorem typedFields_ends : ∀ (fuel : Nat) (input : List Token), input.length ≤ fuel →
    Ends (fun fs => ∀ f ∈ fs, S.IsIdent f.name ∧ S.IsType f.ty) (typedFields S fuel input)
  | fuel, [], _ => by
      rw [typedFields]
      exact fun _ h => absurd h List.not_mem_nil
  | 0, _ :: _, h => absurd h (Nat.not_succ_le_zero _)
  | fuel + 1, token :: input, h => by
      rw [typedFields]
      · refine (parseIdent_ends S _).bind ?_
        rintro ⟨name, rest₁⟩ ⟨hname, h₁⟩
        refine (parsePunct_ends _ ':').bind ?_
        rintro rest₂ ⟨joint, h₂⟩
        refine (parseType_ends S _).bind ?_
        rintro ⟨ty, rest₃⟩ ⟨hty, h₃⟩
        dsimp only at h₁ h₂ h₃ ⊢
        have hlen := h₃.length_le
        rw [h₁, h₂, List.length_cons, List.length_cons] at h
        split
        · exact List.forall_mem_singleton.mpr ⟨hname, hty⟩
        · rename_i token rest
          refine Except.Meets.bind (P := fun r => r.length ≤ fuel) ?_ ?_
          · refine Except.Meets.mapError (fun _ => ParseError.noConfusion) ?_
            intro r hr
            obtain ⟨_, hr⟩ := (parsePunct_ends _ ',').of_ok hr
            rw [hr, List.length_cons] at hlen
            omega
          · intro r hr
            refine (typedFields_ends fuel r hr).bind ?_
            intro fields hfields
            exact List.forall_mem_cons.mpr ⟨⟨hname, hty⟩, hfields⟩
      · simp

theorem parseTypedFields_ends :
    Ends (fun fs => ∀ f ∈ fs, S.IsIdent f.name ∧ S.IsType f.ty) (parseTypedFields S input) :=
  typedFields_ends S _ input (Nat.le_refl _)

/-! ## Items -/

theorem parseDurationRest_ends (repeats : Bool) :
    Ends (fun r => r.1.Readable S) (parseDurationRest S input repeats) := by
  unfold parseDurationRest
  refine Except.Meets.bind (P := fun r => S.IsExpr r.1) ?_ ?_
  · unfold Tokens.parseExpr
    split
    · rename_i r hr
      exact ⟨input, r.2, hr⟩
    · exact ParseError.noConfusion
  rintro ⟨expr, input⟩ he
  refine Except.Meets.bind (P := fun _ => isNumericLit expr = false) ?_ ?_
  · refine Except.Meets.mapError (fun _ => ParseError.noConfusion) ?_
    intro t ht
    rw [Hsmc.parseTrigger] at ht
    split at ht
    · cases ht
    · rename_i hn
      exact Bool.eq_false_iff.mpr hn
  intro _ hn
  exact ⟨he, hn⟩

theorem parsePayload_ends {variant : Ident} (hv : S.IsIdent variant) (hevery : variant ≠ "every")
    (hafter : variant ≠ "after") :
    Ends (fun r => r.1.Readable S) (parsePayload S variant input) := by
  unfold parsePayload
  split
  · exact ⟨hv, hevery, hafter, by simp⟩
  · rename_i inner input
    refine (parseTypedFields_ends S inner).bind ?_
    intro fields hfields
    exact ⟨hv, hevery, hafter, by rintro _ ⟨⟩; exact hfields⟩
  · rename_i inner input
    refine (parseTypedFields_ends S inner).bind ?_
    intro fields hfields
    exact ⟨hv, hevery, hafter, by rintro _ ⟨⟩; exact hfields⟩
  · exact ParseError.noConfusion

theorem parseTrigger_ends :
    Ends (fun r => r.1.Readable S) (Tokens.parseTrigger S input) := by
  unfold Tokens.parseTrigger
  split
  · rename_i x input
    split
    · exact ParseError.noConfusion
    rename_i hx
    split
    · exact parseDurationRest_ends S input true
    rename_i hevery
    split
    · exact parseDurationRest_ends S input false
    rename_i hafter
    split
    · exact ParseError.noConfusion
    · exact parsePayload_ends S input (by simpa using hx) hevery hafter
  · exact ParseError.noConfusion

/-- The item is readable, or `parseItem` refuses it. -/
def Item.Known (item : Item) : Prop := item.Readable S ∨ ∃ word, item = .other word

/-- An item, and a rest that ends the input. -/
abbrev ItemEnds (x : Except ParseError (Item × Bool × List Token)) : Prop :=
  Ends (fun r => r.1.Known S ∧ r.2.2 <:+ input) x

theorem ItemEnds.widen {input' : List Token} {x : Except ParseError (Item × Bool × List Token)}
    (h : ItemEnds S input x) (hin : input <:+ input') : ItemEnds S input' x :=
  h.mono fun _ hr => ⟨hr.1, hr.2.trans hin⟩

/-- `word: ty;` -/
theorem typeItem_ends {item : String → Item} (hitem : ∀ ty, S.IsType ty → (item ty).Readable S) :
    ItemEnds S input (do
      let input ← parsePunct ':' input
      let (ty, input) ← Tokens.parseType S input
      let input ← parsePunct ';' input
      .ok (item ty, false, input)) := by
  refine (parsePunct_ends _ ':').bind ?_
  rintro input₁ ⟨_, rfl⟩
  refine (parseType_ends S _).bind ?_
  rintro ⟨ty, input₂⟩ ⟨hty, hin⟩
  refine (parsePunct_ends _ ';').bind ?_
  rintro input₃ ⟨_, rfl⟩
  exact ⟨.inl (hitem ty hty), ((List.suffix_cons _ _).trans hin).trans (List.suffix_cons _ _)⟩

/-- `word: first, rest;` -/
theorem listItem_ends {item : Ident → List Ident → Item}
    (hitem : ∀ first rest, (∀ x ∈ first :: rest, S.IsIdent x) → (item first rest).Readable S) :
    ItemEnds S input (do
      let input ← parsePunct ':' input
      let (first, rest, input) ← parseIdentList S input
      let input ← parsePunct ';' input
      .ok (item first rest, false, input)) := by
  refine (parsePunct_ends _ ':').bind ?_
  rintro input₁ ⟨_, rfl⟩
  refine (parseIdentList_ends S _).bind ?_
  rintro ⟨first, rest, input₂⟩ ⟨hx, hin⟩
  refine (parsePunct_ends _ ';').bind ?_
  rintro input₃ ⟨_, rfl⟩
  exact ⟨.inl (hitem first rest hx),
    ((List.suffix_cons _ _).trans hin).trans (List.suffix_cons _ _)⟩

/-- `word(x);` -/
theorem nameItem_ends {item : Ident → Item} (hitem : ∀ x, S.IsIdent x → (item x).Readable S) :
    ItemEnds S input (do
      let (inner, input) ← parseGroup .parenthesis input
      let (x, inner) ← parseIdent S inner
      let input ← parsePunct ';' input
      .ok (item x, !inner.isEmpty, input)) := by
  refine (parseGroup_ends _ .parenthesis).bind ?_
  rintro ⟨inner, input₁⟩ rfl
  refine (parseIdent_ends S inner).bind ?_
  rintro ⟨x, inner₁⟩ ⟨hx, -⟩
  refine (parsePunct_ends _ ';').bind ?_
  rintro input₂ ⟨_, rfl⟩
  exact ⟨.inl (hitem x hx), [_, _], rfl⟩

/-- `on(trigger) => first, rest;` -/
theorem onItem_ends :
    ItemEnds S input (do
      let (inner, input) ← parseGroup .parenthesis input
      let (trigger, inner) ← Tokens.parseTrigger S inner
      let input ← parseFatArrow input
      let (first, rest, input) ← parseIdentList S input
      let input ← parsePunct ';' input
      .ok (.on trigger first rest, !inner.isEmpty, input)) := by
  refine (parseGroup_ends _ .parenthesis).bind ?_
  rintro ⟨inner, input₁⟩ rfl
  refine (parseTrigger_ends S inner).bind ?_
  rintro ⟨trigger, inner₁⟩ ht
  refine (parseFatArrow_ends _).bind ?_
  intro input₂ h₂
  refine (parseIdentList_ends S _).bind ?_
  rintro ⟨first, rest, input₃⟩ ⟨hx, h₃⟩
  refine (parsePunct_ends _ ';').bind ?_
  rintro input₄ ⟨_, rfl⟩
  exact ⟨.inl ⟨ht, hx⟩,
    (((List.suffix_cons _ _).trans h₃).trans h₂).trans (List.suffix_cons _ _)⟩

/-- `during: fnName(fields);` -/
theorem duringItem_ends :
    ItemEnds S input (do
      let input ← parsePunct ':' input
      let (fnName, input) ← parseIdent S input
      let (fields, input) ← match input with
        | .group .parenthesis inner :: input => do
            let fields ← parseFields S inner
            .ok (fields, input)
        | input => .ok ([], input)
      let input ← parsePunct ';' input
      .ok (.during fnName fields, false, input)) := by
  refine (parsePunct_ends _ ':').bind ?_
  rintro input₁ ⟨_, rfl⟩
  refine (parseIdent_ends S _).bind ?_
  rintro ⟨fnName, input₂⟩ ⟨hfn, rfl⟩
  have hsemi : ∀ fields input₃, (∀ x ∈ fields, S.IsIdent x) → input₃ <:+ input₂ →
      ItemEnds S input₂ (do
        let input ← parsePunct ';' input₃
        .ok (.during fnName fields, false, input)) := by
    intro fields input₃ hfields h₃
    refine (parsePunct_ends _ ';').bind ?_
    rintro input₄ ⟨_, rfl⟩
    exact ⟨.inl (List.forall_mem_cons.mpr ⟨hfn, hfields⟩), (List.suffix_cons _ _).trans h₃⟩
  refine ItemEnds.widen S input₂ ?_ ((List.suffix_cons _ _).trans (List.suffix_cons _ _))
  dsimp only
  split
  · rename_i inner input₃
    refine (parseFields_ends S inner).bind ?_
    intro fields hfields
    exact hsemi fields input₃ hfields (List.suffix_cons _ _)
  · exact hsemi [] input₂ (by simp) (List.suffix_refl _)

theorem parseItemRest_ends (word : Ident) : ItemEnds S input (parseItemRest S word input) := by
  unfold parseItemRest
  split
  · exact typeItem_ends S input fun _ h => h
  split
  · exact typeItem_ends S input fun _ h => h
  split
  · refine (parsePunct_ends _ ';').bind ?_
    rintro input₁ ⟨_, rfl⟩
    exact ⟨.inl trivial, List.suffix_cons _ _⟩
  split
  · exact listItem_ends S input fun _ _ h => h
  split
  · exact listItem_ends S input fun _ _ h => h
  split
  · exact nameItem_ends S input fun _ h => h
  split
  · exact nameItem_ends S input fun _ h => h
  split
  · exact onItem_ends S input
  split
  · exact duringItem_ends S input
  · exact ⟨.inr ⟨word, rfl⟩, List.suffix_refl _⟩

end

/-! ## Bodies -/

theorem weights_ident (x : Ident) (input : List Token) :
    weights (.ident x :: input) = weights input + 1 := by
  rw [weights, Nat.add_comm]
  rfl

theorem weights_group (d : Delimiter) (inner input : List Token) :
    weights (.group d inner :: input) = weights inner + 1 + weights input := by
  rw [weights, weight]

theorem weights_suffix {rest input : List Token} (h : rest <:+ input) :
    weights rest ≤ weights input := by
  obtain ⟨used, rfl⟩ := h
  rw [weights_append]
  exact Nat.le_add_left _ _

/-- What is accepted has readable items, and they are parsed to the same. -/
theorem parseBody_ends (S : Syn) : ∀ (fuel : Nat) (isRoot : Bool) (p : Parsing)
    (input : List Token), weights input ≤ fuel →
    Ends (fun r => ∃ items, itemsReadable S items ∧ parseItems isRoot p items = .ok r.1)
      (parseBody S fuel isRoot p input)
  | fuel, isRoot, p, [], _ => by
      rw [parseBody]
      exact ⟨[], trivial, rfl⟩
  | 0, isRoot, p, token :: input, h => by
      have hpos := weight_pos token
      rw [weights] at h
      omega
  | fuel + 1, isRoot, p, .ident word :: input, h => by
      rw [weights_ident] at h
      rw [parseBody]
      split
      · exact ParseError.noConfusion
      split
      · refine (parseIdent_ends S _).bind ?_
        rintro ⟨name, input₁⟩ ⟨hname, rfl⟩
        refine (parseGroup_ends _ .brace).bind ?_
        rintro ⟨content, input₂⟩ hgroup
        dsimp only at hgroup hname ⊢
        rw [hgroup, weights_ident, weights_group] at h
        refine (parseBody_ends S fuel false {} content (by omega)).bind ?_
        rintro ⟨inner, left⟩ ⟨items, hitems, hinner⟩
        refine (parseBody_ends S fuel isRoot _ input₂ (by omega)).bind ?_
        rintro ⟨p', left'⟩ ⟨items', hitems', hp'⟩
        refine ⟨.state name items :: items', ⟨⟨hname, hitems⟩, hitems'⟩, ?_⟩
        rw [parseItems, parseItem, hinner, Except.ok_bind_eq, Except.ok_bind_eq]
        exact hp'
      · refine (parseItemRest_ends S input word).bind ?_
        rintro ⟨item, left, input₁⟩ ⟨hitem, hin⟩
        refine Except.Meets.bind (P := fun p' => parseItem isRoot p item = .ok p') ?_ ?_
        · exact Except.Meets.mapError (fun _ => ParseError.noConfusion) fun _ h => h
        intro p₁ hp₁
        have hw : weights input₁ ≤ weights input := weights_suffix hin
        refine (parseBody_ends S fuel isRoot p₁ input₁ (by omega)).bind ?_
        rintro ⟨p', left'⟩ ⟨items, hitems, hp'⟩
        obtain hread | ⟨word, rfl⟩ := hitem
        · refine ⟨item :: items, ⟨hread, hitems⟩, ?_⟩
          rw [parseItems, hp₁, Except.ok_bind_eq]
          exact hp'
        · rw [parseItem] at hp₁
          cases hp₁
  | fuel + 1, isRoot, p, .punct _ _ :: _, _ | fuel + 1, isRoot, p, .literal _ :: _, _
  | fuel + 1, isRoot, p, .group _ _ :: _, _ => by
      rw [parseBody]
      · exact ParseError.noConfusion
      all_goals simp

/-! ## Trees -/

variable {S : Syn}

/-- What the parser keeps in its locals. -/
structure Parsing.WellFormed (S : Syn) (isRoot : Bool) (p : Parsing) : Prop where
  body : p.body.WellFormed S isRoot
  declIndex : p.declIndex = p.body.handlers.length
  children : declsWellFormed S p.children

theorem Parsing.WellFormed.fresh (isRoot : Bool) : Parsing.WellFormed S isRoot {} where
  body :=
    { context := by simp
      events := by simp
      default := by simp
      defaultCount := by simp
      terminate := by simp
      terminateCount := by simp
      entries := by simp
      exits := by simp
      numbered := .nil
      handlers := by simp
      durings := by simp }
  declIndex := rfl
  children := trivial

theorem declsWellFormed_append {ds ds' : List StateDecl} (h : declsWellFormed S ds)
    (h' : declsWellFormed S ds') : declsWellFormed S (ds ++ ds') := by
  induction ds with
  | nil => exact h'
  | cons d ds ih => exact ⟨h.1, ih h.2⟩

/-- A name that a counted declaration adds. -/
theorem counted {o : Option Ident} {n : Nat} {x : Ident} (hx : S.IsIdent x)
    (ho : ∀ x ∈ o, S.IsIdent x) :
    (∀ y ∈ o.or (some x), S.IsIdent y) ∧ (n + 1 = 0 ↔ o.or (some x) = none) := by
  cases o with
  | none => simpa using hx
  | some y => simpa using ho y rfl

theorem pushTargets_eq (trigger : Trigger) : ∀ (targets : List Ident) (p : Parsing), ∃ hs,
    pushTargets trigger p targets = { p with
      body := { p.body with handlers := p.body.handlers ++ hs }
      declIndex := p.declIndex + hs.length } ∧
    Numbered p.declIndex (targets.map (trigger, ·)) hs
  | [], p => ⟨[], by simp [pushTargets], .nil⟩
  | target :: targets, p => by
      obtain ⟨hs, he, hn⟩ := pushTargets_eq trigger targets { p with
        body := { p.body with handlers := p.body.handlers ++ [⟨trigger, target, p.declIndex⟩] }
        declIndex := p.declIndex + 1 }
      refine ⟨⟨trigger, target, p.declIndex⟩ :: hs, ?_, .cons hn⟩
      rw [pushTargets, List.foldl_cons]
      refine he.trans ?_
      simp only [List.append_assoc, List.singleton_append, List.length_cons, Nat.add_assoc,
        Nat.add_comm 1]

theorem TriggerItem.item_parsed (t : TriggerItem) : t.parsed.item = t := by
  cases t <;> rfl

theorem Parsing.WellFormed.push {isRoot : Bool} {p : Parsing} (h : p.WellFormed S isRoot)
    {trigger : TriggerItem} {targets : List Ident} (ht : trigger.Readable S)
    (hx : ∀ x ∈ targets, S.IsIdent x) :
    (pushTargets trigger.parsed p targets).WellFormed S isRoot := by
  obtain ⟨hs, he, hn⟩ := pushTargets_eq trigger.parsed targets p
  rw [he]
  refine ⟨{ h.body with numbered := ?_, handlers := ?_ }, ?_, h.children⟩
  · rw [h.declIndex] at hn
    rw [List.map_append, hn.map_eq]
    refine h.body.numbered.append ?_
    rwa [List.length_map, Nat.zero_add]
  · refine List.forall_mem_append.mpr ⟨h.body.handlers, ?_⟩
    intro handler hmem
    have hmem : (handler.trigger, handler.target) ∈ targets.map (trigger.parsed, ·) := by
      rw [← hn.map_eq]
      exact List.mem_map.mpr ⟨handler, hmem, rfl⟩
    obtain ⟨x, hxmem, hpair⟩ := List.mem_map.mp hmem
    obtain ⟨htrigger, htarget⟩ := Prod.mk.inj hpair
    rw [← htrigger, ← htarget, TriggerItem.item_parsed]
    exact ⟨rfl, ht, hx x hxmem⟩
  · rw [h.declIndex, List.length_append]

mutual

theorem parseItem_keeps : ∀ {item : Item} {isRoot : Bool} {p p' : Parsing}, item.Readable S →
    parseItem isRoot p item = .ok p' → p.WellFormed S isRoot → p'.WellFormed S isRoot
  | .context ty, isRoot, p, p', hr, hp, h => by
      unfold parseItem at hp
      split at hp <;> cases hp
      rename_i hroot
      refine ⟨{ h.body with context := ?_ }, h.declIndex, h.children⟩
      rintro _ ⟨⟩
      exact ⟨by simpa using hroot, hr⟩
  | .events ty, isRoot, p, p', hr, hp, h => by
      unfold parseItem at hp
      split at hp <;> cases hp
      rename_i hroot
      refine ⟨{ h.body with events := ?_ }, h.declIndex, h.children⟩
      rintro _ ⟨⟩
      exact ⟨by simpa using hroot, hr⟩
  | .trace, isRoot, p, p', hr, hp, h => by
      unfold parseItem at hp
      split at hp
      · cases hp
      · split at hp <;> cases hp
        exact ⟨h.body, h.declIndex, h.children⟩
  | .entry first rest, isRoot, p, p', hr, hp, h => by
      unfold parseItem at hp
      cases hp
      exact ⟨{ h.body with entries := List.forall_mem_append.mpr ⟨h.body.entries, hr⟩ },
        h.declIndex, h.children⟩
  | .exit first rest, isRoot, p, p', hr, hp, h => by
      unfold parseItem at hp
      cases hp
      exact ⟨{ h.body with exits := List.forall_mem_append.mpr ⟨h.body.exits, hr⟩ },
        h.declIndex, h.children⟩
  | .default x, isRoot, p, p', hr, hp, h => by
      unfold parseItem at hp
      cases hp
      obtain ⟨hx, hcount⟩ := counted hr h.body.default
      exact ⟨{ h.body with default := hx, defaultCount := hcount }, h.declIndex, h.children⟩
  | .terminate x, isRoot, p, p', hr, hp, h => by
      unfold parseItem at hp
      cases hp
      obtain ⟨hx, hcount⟩ := counted hr h.body.terminate
      exact ⟨{ h.body with terminate := hx, terminateCount := hcount }, h.declIndex, h.children⟩
  | .on trigger first rest, isRoot, p, p', hr, hp, h => by
      unfold parseItem at hp
      obtain ⟨t, ht, hp⟩ := Except.bind_eq_ok.mp hp
      cases hp
      rw [parseTrigger_eq ht]
      exact h.push hr.1 hr.2
  | .during fnName fields, isRoot, p, p', hr, hp, h => by
      unfold parseItem at hp
      cases hp
      exact ⟨{ h.body with durings :=
        List.forall_mem_append.mpr ⟨h.body.durings, List.forall_mem_singleton.mpr hr⟩ },
        h.declIndex, h.children⟩
  | .state name items, isRoot, p, p', hr, hp, h => by
      unfold parseItem at hp
      obtain ⟨inner, hinner, hp⟩ := Except.bind_eq_ok.mp hp
      cases hp
      unfold Item.Readable at hr
      have hw := parseItems_keeps hr.2 hinner (.fresh false)
      exact ⟨h.body, h.declIndex,
        declsWellFormed_append h.children ⟨⟨hr.1, hw.body, hw.children⟩, trivial⟩⟩
  | .other name, isRoot, p, p', hr, hp, h => hr.elim

theorem parseItems_keeps : ∀ {items : List Item} {isRoot : Bool} {p p' : Parsing},
    itemsReadable S items → parseItems isRoot p items = .ok p' → p.WellFormed S isRoot →
    p'.WellFormed S isRoot
  | [], isRoot, p, p', _, hp, h => by
      unfold parseItems at hp
      cases hp
      exact h
  | item :: items, isRoot, p, p', hr, hp, h => by
      unfold parseItems at hp
      obtain ⟨p₁, hp₁, hp⟩ := Except.bind_eq_ok.mp hp
      unfold itemsReadable at hr
      exact parseItems_keeps hr.2 hp (parseItem_keeps hr.1 hp₁ h)

end

/-- The tree of an accepted text is well formed, and it is what `parseStatechart` makes of items
    that are readable. -/
theorem parseChart_ends (S : Syn) (input : List Token) :
    Ends (fun r => r.1.WellFormed S ∧
      ∃ items, itemsReadable S items ∧ parseStatechart r.1.name items = .ok r.1)
      (parseChart S input) := by
  unfold parseChart
  refine (parseIdent_ends S input).bind ?_
  rintro ⟨name, input₁⟩ ⟨hname, -⟩
  refine (parseGroup_ends _ .brace).bind ?_
  rintro ⟨content, input₂⟩ -
  refine (parseBody_ends S _ true {} content (Nat.le_refl _)).bind ?_
  rintro ⟨p, left⟩ ⟨items, hitems, hp⟩
  have hw := parseItems_keeps hitems hp (.fresh true)
  dsimp only at hp ⊢
  split
  · exact ParseError.noConfusion
  · refine ⟨⟨hname, hw.body, hw.children⟩, items, hitems, ?_⟩
    rw [parseStatechart, hp]
    rfl

end Hsmc
