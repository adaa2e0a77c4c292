import Hsmc.Abstract.Text
import Hsmc.Lib.Except

/-
  The parser on printed trees.

  What is printed for a readable item is read as that item (`parseItemRest_tokens`), and so the
  items of a text are parsed as `parseItems` parses them (`parseBody_tokens`). A well-formed
  tree is what its own items are parsed to (`parseItems_items`).
-/

namespace Hsmc

open Tokens

variable {S : Syn} (Q : Quote S)

/-! ## Parts of an item -/

theorem Syn.isIdent_word {word : Ident} (h : word ∈ itemWords) : S.IsIdent word :=
  S.acceptAsIdent_word word h

theorem parseIdent_cons {x : Ident} (h : S.IsIdent x) (input : List Token) :
    parseIdent S (.ident x :: input) = .ok (x, input) := if_pos h

theorem parsePunct_sign (ch : Char) (input : List Token) :
    parsePunct ch (sign ch :: input) = .ok input := if_pos rfl

theorem parseGroup_cons (d : Delimiter) (inner input : List Token) :
    parseGroup d (.group d inner :: input) = .ok (inner, input) := if_pos rfl

theorem parseType_type {ty : String} (h : S.IsType ty) {ch : Char} (hch : ch = ';' ∨ ch = ',')
    (input : List Token) :
    Tokens.parseType S (Q.type ty ++ sign ch :: input) = .ok (ty, sign ch :: input) := by
  obtain ⟨_, _, h⟩ := h
  unfold Tokens.parseType sign
  rw [Q.parse_type h hch]

theorem identListTail_tokens : ∀ {rest : List Ident}, (∀ x ∈ rest, S.IsIdent x) →
    ∀ input, identListTail S (rest.flatMap (fun x => [sign ',', .ident x]) ++ sign ';' :: input) =
      .ok (rest, sign ';' :: input)
  | [], _, input => by
      cases input with
      | nil => rfl
      | cons token input => cases token <;> rfl
  | x :: rest, h, input => by
      obtain ⟨hx, h⟩ := List.forall_mem_cons.mp h
      rw [List.flatMap_cons, List.append_assoc]
      have ih := identListTail_tokens h input
      show identListTail S (.punct ',' false :: .ident x :: (_ ++ _)) = _
      rw [identListTail, if_pos rfl, if_pos hx, List.nil_append, ih, Except.ok_bind_eq]

theorem parseIdentList_tokens {first : Ident} {rest : List Ident}
    (h : ∀ x ∈ first :: rest, S.IsIdent x) (input : List Token) :
    parseIdentList S (identTokens first rest ++ sign ';' :: input) =
      .ok (first, rest, sign ';' :: input) := by
  obtain ⟨hfirst, hrest⟩ := List.forall_mem_cons.mp h
  unfold parseIdentList identTokens
  simp only [List.cons_append, parseIdent_cons hfirst, Except.ok_bind_eq,
    identListTail_tokens hrest]

theorem parseFields_tokens : ∀ {fields : List Ident}, (∀ x ∈ fields, S.IsIdent x) →
    parseFields S (fields.flatMap fun x => [.ident x, sign ',']) = .ok fields
  | [], _ => rfl
  | x :: fields, h => by
      obtain ⟨hx, h⟩ := List.forall_mem_cons.mp h
      rw [List.flatMap_cons]
      have ih := parseFields_tokens h
      show parseFields S (.ident x :: .punct ',' false ::
        fields.flatMap fun x => [.ident x, sign ',']) = _
      rw [parseFields, if_pos hx, if_pos rfl, ih, Except.ok_bind_eq]

theorem typedFields_tokens : ∀ {fields : List PayloadField} {fuel : Nat},
    (∀ f ∈ fields, S.IsIdent f.name ∧ S.IsType f.ty) → fields.length ≤ fuel →
    typedFields S fuel (typedTokens Q fields) = .ok fields
  | [], fuel, _, _ => by
      unfold typedFields
      rfl
  | f :: fields, 0, _, hf => by cases hf
  | f :: fields, fuel + 1, h, hf => by
      obtain ⟨⟨hname, hty⟩, h⟩ := List.forall_mem_cons.mp h
      have hrest : typedTokens Q (f :: fields) =
          .ident f.name :: sign ':' :: (Q.type f.ty ++ sign ',' :: typedTokens Q fields) := by
        simp [typedTokens]
      have ih := typedFields_tokens h (Nat.le_of_succ_le_succ hf)
      rw [hrest, typedFields]
      · simp only [parseIdent_cons hname, Except.ok_bind_eq, parsePunct_sign,
          parseType_type Q hty (.inr rfl), Except.mapError, ih]
      · simp

theorem length_le_typedTokens (fields : List PayloadField) :
    fields.length ≤ (typedTokens Q fields).length := by
  induction fields with
  | nil => exact Nat.le_refl _
  | cons f fields ih =>
      rw [typedTokens, List.flatMap_cons, List.length_append, List.length_cons]
      unfold typedTokens at ih
      simp only [List.length_cons, List.length_append]
      omega

theorem parseTypedFields_tokens {fields : List PayloadField}
    (h : ∀ f ∈ fields, S.IsIdent f.name ∧ S.IsType f.ty) :
    parseTypedFields S (typedTokens Q fields) = .ok fields :=
  typedFields_tokens Q h (length_le_typedTokens Q fields)

theorem parseTrigger_tokens {t : TriggerItem} (h : t.Readable S) :
    Tokens.parseTrigger S (t.tokens Q) = .ok (t, []) := by
  cases t with
  | event variant payload =>
      obtain ⟨hv, hevery, hafter, hp⟩ := h
      unfold TriggerItem.tokens Tokens.parseTrigger
      simp only [hv, Bool.not_true, Bool.false_eq_true, ↓reduceIte, hevery, hafter]
      cases payload with
      | none => rfl
      | some p =>
          have hf := parseTypedFields_tokens Q (hp p rfl)
          obtain ⟨kind, fields⟩ := p
          cases kind with
          | tuple =>
              show parsePayload S variant [.group .parenthesis (typedTokens Q fields)] = _
              rw [parsePayload, hf, Except.ok_bind_eq]
          | struct =>
              show parsePayload S variant [.group .brace (typedTokens Q fields)] = _
              rw [parsePayload, hf, Except.ok_bind_eq]
  | duration expr repeats =>
      obtain ⟨⟨_, _, he⟩, hn⟩ := h
      have hparse : Tokens.parseExpr S (Q.expr expr) = .ok (expr, []) := by
        unfold Tokens.parseExpr
        rw [Q.parse_expr he]
      have hrest : ∀ r, parseDurationRest S (Q.expr expr) r = .ok (.duration expr r, []) := by
        intro r
        unfold parseDurationRest
        simp only [hparse, Except.ok_bind_eq, Hsmc.parseTrigger, hn, Bool.false_eq_true,
          ↓reduceIte, Except.mapError]
      have hevery : S.IsIdent "every" := S.isIdent_word (by decide)
      have hafter : S.IsIdent "after" := S.isIdent_word (by decide)
      unfold TriggerItem.tokens Tokens.parseTrigger
      cases repeats with
      | true => simp only [↓reduceIte, hevery, Bool.not_true, Bool.false_eq_true, hrest]
      | false =>
          simp only [Bool.false_eq_true, ↓reduceIte, hafter, Bool.not_true, hrest,
            show ("after" : Ident) ≠ "every" by decide]

/-! ## Items -/

theorem parseFatArrow_cons (input : List Token) :
    parseFatArrow (.punct '=' true :: sign '>' :: input) = .ok input := rfl

/-- The tokens of an item are a word and what the word's turn of the loop reads. -/
def Item.ReadBack (item : Item) : Prop :=
  ∃ word rest, item.tokens Q = .ident word :: rest ∧ S.IsIdent word ∧ word ≠ "state" ∧
    ∀ input, parseItemRest S word (rest ++ input) = .ok (item, false, input)

theorem Item.readBack {item : Item} {rest : List Token} (word : Ident)
    (ht : item.tokens Q = .ident word :: rest) (hw : word ∈ itemWords.erase "state")
    (h : ∀ input, parseItemRest S word (rest ++ input) = .ok (item, false, input)) :
    item.ReadBack Q := by
  refine ⟨word, rest, ht, S.isIdent_word (List.mem_of_mem_erase hw), ?_, h⟩
  rintro rfl
  exact absurd hw (by decide)

theorem parseItemRest_tokens {item : Item} (h : item.Readable S)
    (hs : ∀ name items, item ≠ .state name items) : item.ReadBack Q := by
  cases item with
  | context ty =>
      refine Item.readBack Q "context" (by rw [Item.tokens, List.cons_append]) (by decide) ?_
      intro input
      simp only [parseItemRest, ↓reduceIte, List.cons_append, List.append_assoc, List.nil_append,
        parsePunct_sign, Except.ok_bind_eq, parseType_type Q h (.inl rfl)]
  | events ty =>
      refine Item.readBack Q "events" (by rw [Item.tokens, List.cons_append]) (by decide) ?_
      intro input
      simp only [parseItemRest, String.reduceEq, ↓reduceIte, List.cons_append, List.append_assoc,
        List.nil_append, parsePunct_sign, Except.ok_bind_eq, parseType_type Q h (.inl rfl)]
  | trace =>
      refine Item.readBack Q "trace" (by rw [Item.tokens]) (by decide) ?_
      intro input
      simp only [parseItemRest, String.reduceEq, ↓reduceIte, List.cons_append, List.nil_append,
        parsePunct_sign, Except.ok_bind_eq]
  | entry first rest =>
      refine Item.readBack Q "entry" (by rw [Item.tokens, List.cons_append]) (by decide) ?_
      intro input
      simp only [parseItemRest, String.reduceEq, ↓reduceIte, List.cons_append, List.append_assoc,
        List.nil_append, parsePunct_sign, Except.ok_bind_eq, parseIdentList_tokens h]
  | exit first rest =>
      refine Item.readBack Q "exit" (by rw [Item.tokens, List.cons_append]) (by decide) ?_
      intro input
      simp only [parseItemRest, String.reduceEq, ↓reduceIte, List.cons_append, List.append_assoc,
        List.nil_append, parsePunct_sign, Except.ok_bind_eq, parseIdentList_tokens h]
  | default x =>
      refine Item.readBack Q "default" (by rw [Item.tokens]) (by decide) ?_
      intro input
      simp only [parseItemRest, String.reduceEq, ↓reduceIte, List.cons_append, List.nil_append,
        parseGroup_cons, Except.ok_bind_eq, parseIdent_cons h, parsePunct_sign, List.isEmpty_nil,
        Bool.not_true]
  | terminate x =>
      refine Item.readBack Q "terminate" (by rw [Item.tokens]) (by decide) ?_
      intro input
      simp only [parseItemRest, String.reduceEq, ↓reduceIte, List.cons_append, List.nil_append,
        parseGroup_cons, Except.ok_bind_eq, parseIdent_cons h, parsePunct_sign, List.isEmpty_nil,
        Bool.not_true]
  | on trigger first rest =>
      refine Item.readBack Q "on" (by rw [Item.tokens, List.cons_append]) (by decide) ?_
      intro input
      simp only [parseItemRest, String.reduceEq, ↓reduceIte, List.cons_append, List.append_assoc,
        List.nil_append, parseGroup_cons, Except.ok_bind_eq, parseTrigger_tokens Q h.1,
        parseFatArrow_cons, parseIdentList_tokens h.2, parsePunct_sign, List.isEmpty_nil,
        Bool.not_true]
  | during fnName fields =>
      obtain ⟨hfn, hfields⟩ := List.forall_mem_cons.mp h
      refine Item.readBack Q "during" (by rw [Item.tokens]) (by decide) ?_
      intro input
      simp only [parseItemRest, String.reduceEq, ↓reduceIte, List.cons_append, List.nil_append,
        parsePunct_sign, Except.ok_bind_eq, parseIdent_cons hfn, parseFields_tokens hfields]
  | state name items => exact absurd rfl (hs name items)
  | other name => exact h.elim

/-! ## Bodies -/

theorem weights_append (input input' : List Token) :
    weights (input ++ input') = weights input + weights input' := by
  induction input with
  | nil => simp [weights]
  | cons token input ih => simp [weights, ih, Nat.add_assoc]

theorem weight_pos (token : Token) : 0 < weight token := by
  cases token <;> simp [weight]

/-- The items of a text are parsed as the parser of items parses them. -/
theorem parseBody_tokens : ∀ {items : List Item} {fuel : Nat} {isRoot : Bool} {p p' : Parsing},
    itemsReadable S items → parseItems isRoot p items = .ok p' →
    weights (itemsTokens Q items) ≤ fuel →
    parseBody S fuel isRoot p (itemsTokens Q items) = .ok (p', false)
  | [], fuel, isRoot, p, p', _, hp, _ => by
      unfold parseItems at hp
      cases hp
      unfold itemsTokens parseBody
      rfl
  | item :: items, fuel, isRoot, p, p', hr, hp, hf => by
      unfold itemsReadable at hr
      obtain ⟨hr, hrs⟩ := hr
      unfold parseItems at hp
      obtain ⟨p₁, hp₁, hp⟩ := Except.bind_eq_ok.mp hp
      unfold itemsTokens at hf ⊢
      rw [weights_append] at hf
      by_cases hs : ∃ name inner, item = .state name inner
      · obtain ⟨name, inner, rfl⟩ := hs
        unfold Item.Readable at hr
        unfold parseItem at hp₁
        obtain ⟨q, hq, hp₁⟩ := Except.bind_eq_ok.mp hp₁
        cases hp₁
        have hw : weights (Item.tokens Q (.state name inner)) =
            weights (itemsTokens Q inner) + 3 := by
          simp only [Item.tokens, weights, weight]
          omega
        obtain ⟨n, rfl⟩ : ∃ n, fuel = n + 1 := ⟨fuel - 1, by omega⟩
        have hinner : parseBody S n false {} (itemsTokens Q inner) = .ok (q, false) :=
          parseBody_tokens hr.2 hq (by omega)
        have hrest : parseBody S n isRoot
            { p with children := p.children ++ [.mk name q.body q.children] }
            (itemsTokens Q items) = .ok (p', false) :=
          parseBody_tokens hrs hp (by omega)
        have hword : S.IsIdent "state" := S.isIdent_word (by decide)
        rw [Item.tokens, List.cons_append, List.cons_append, List.cons_append, List.nil_append,
          parseBody]
        simp only [hword, Bool.not_true, Bool.false_eq_true, ↓reduceIte, parseIdent_cons hr.1,
          Except.ok_bind_eq, parseGroup_cons, hinner, hrest, Bool.or_self]
      · obtain ⟨word, rest, ht, hword, hne, hread⟩ :=
          parseItemRest_tokens Q hr fun name inner he => hs ⟨name, inner, he⟩
        rw [ht] at hf ⊢
        rw [weights] at hf
        have hpos := weight_pos (.ident word)
        obtain ⟨n, rfl⟩ : ∃ n, fuel = n + 1 := ⟨fuel - 1, by omega⟩
        have hrest : parseBody S n isRoot p₁ (itemsTokens Q items) = .ok (p', false) :=
          parseBody_tokens hrs hp (by omega)
        rw [List.cons_append, parseBody]
        simp only [hword, Bool.not_true, Bool.false_eq_true, ↓reduceIte, hne, hread,
          Except.ok_bind_eq, hp₁, Except.mapError, hrest, Bool.or_self]

/-! ## A tree and its items -/

section

variable {isRoot : Bool} {p : Parsing}

theorem parseItems_append : ∀ (items items' : List Item) (p : Parsing),
    parseItems isRoot p (items ++ items') =
      parseItems isRoot p items >>= fun p => parseItems isRoot p items'
  | [], items', p => by
      rw [List.nil_append, parseItems, Except.ok_bind_eq]
  | item :: items, items', p => by
      rw [List.cons_append, parseItems, parseItems, bind_assoc]
      exact congrArg _ (funext fun p => parseItems_append items items' p)

theorem parseItems_context {o : Option String} (h : ∀ ty ∈ o, isRoot = true) :
    parseItems isRoot p (o.toList.map .context) =
      .ok { p with body := { p.body with contextTy := o.or p.body.contextTy } } := by
  cases o with
  | none => rfl
  | some ty =>
      rw [h ty rfl]
      rfl

theorem parseItems_events {o : Option String} (h : ∀ ty ∈ o, isRoot = true) :
    parseItems isRoot p (o.toList.map .events) =
      .ok { p with body := { p.body with eventTy := o.or p.body.eventTy } } := by
  cases o with
  | none => rfl
  | some ty =>
      rw [h ty rfl]
      rfl

theorem parseItems_default (x : Ident) : ∀ (n : Nat) (p : Parsing),
    parseItems isRoot p (List.replicate (n + 1) (.default x)) = .ok { p with body := { p.body with
      defaultCount := p.body.defaultCount + (n + 1)
      defaultChild := p.body.defaultChild.or (some x) } }
  | 0, p => rfl
  | n + 1, p => by
      rw [List.replicate_succ, parseItems, parseItem, Except.ok_bind_eq, parseItems_default x n]
      simp only [Option.or_assoc, Option.or_self, Except.ok.injEq]
      congr 2
      omega

theorem parseItems_defaults {o : Option Ident} {n : Nat} (h : n = 0 ↔ o = none) :
    parseItems isRoot p (o.toList.flatMap fun x => List.replicate n (.default x)) =
      .ok { p with body := { p.body with
        defaultCount := p.body.defaultCount + n
        defaultChild := p.body.defaultChild.or o } } := by
  cases o with
  | none =>
      rw [h.mpr rfl, Option.or_none]
      rfl
  | some x =>
      obtain ⟨n, rfl⟩ := Nat.exists_eq_succ_of_ne_zero fun hn => Option.some_ne_none x (h.mp hn)
      rw [Option.toList_some, List.flatMap_singleton]
      exact parseItems_default x n p

theorem parseItems_terminate (x : Ident) : ∀ (n : Nat) (p : Parsing),
    parseItems isRoot p (List.replicate (n + 1) (.terminate x)) = .ok { p with body := { p.body with
      terminateCount := p.body.terminateCount + (n + 1)
      terminate := p.body.terminate.or (some x) } }
  | 0, p => rfl
  | n + 1, p => by
      rw [List.replicate_succ, parseItems, parseItem, Except.ok_bind_eq, parseItems_terminate x n]
      simp only [Option.or_assoc, Option.or_self, Except.ok.injEq]
      congr 2
      omega

theorem parseItems_terminates {o : Option Ident} {n : Nat} (h : n = 0 ↔ o = none) :
    parseItems isRoot p (o.toList.flatMap fun x => List.replicate n (.terminate x)) =
      .ok { p with body := { p.body with
        terminateCount := p.body.terminateCount + n
        terminate := p.body.terminate.or o } } := by
  cases o with
  | none =>
      rw [h.mpr rfl, Option.or_none]
      rfl
  | some x =>
      obtain ⟨n, rfl⟩ := Nat.exists_eq_succ_of_ne_zero fun hn => Option.some_ne_none x (h.mp hn)
      rw [Option.toList_some, List.flatMap_singleton]
      exact parseItems_terminate x n p

/-- Items that each append to the same list. -/
theorem parseItems_map {α : Type} {item : α → Item} (put : List α → Parsing)
    (h : ∀ l a, parseItem isRoot (put l) (item a) = .ok (put (l ++ [a]))) :
    ∀ l l₀ : List α, parseItems isRoot (put l₀) (l.map item) = .ok (put (l₀ ++ l))
  | [], l₀ => by
      rw [List.append_nil]
      rfl
  | a :: l, l₀ => by
      rw [List.map_cons, parseItems, h, Except.ok_bind_eq, parseItems_map put h l,
        List.append_assoc, List.singleton_append]

theorem parseItems_entries (l : List Ident) (p : Parsing) :
    parseItems isRoot p (l.map fun x => .entry x []) =
      .ok { p with body := { p.body with entries := p.body.entries ++ l } } :=
  parseItems_map (fun l => { p with body := { p.body with entries := l } }) (fun _ _ => rfl) l _

theorem parseItems_exits (l : List Ident) (p : Parsing) :
    parseItems isRoot p (l.map fun x => .exit x []) =
      .ok { p with body := { p.body with exits := p.body.exits ++ l } } :=
  parseItems_map (fun l => { p with body := { p.body with exits := l } }) (fun _ _ => rfl) l _

theorem parseItems_durings (l : List During) (p : Parsing) :
    parseItems isRoot p (l.map fun d => .during d.fnName d.fields) =
      .ok { p with body := { p.body with durings := p.body.durings ++ l } } :=
  parseItems_map (fun l => { p with body := { p.body with durings := l } }) (fun _ _ => rfl) l _

theorem parseTrigger_item {t : Trigger} (hp : t.item.parsed = t) (h : t.item.Readable S) :
    Hsmc.parseTrigger t.item = .ok t := by
  cases t with
  | event variant payload => rfl
  | duration expr key repeats =>
      obtain ⟨-, hn⟩ := h
      show (if isNumericLit expr = true then _ else _) = _
      rw [hn]
      exact congrArg Except.ok hp

theorem Numbered.cons_inv {k : Nat} {trigger : Trigger} {target : Ident}
    {l : List (Trigger × Ident)} {h : Handler} {hs : List Handler}
    (hn : Numbered k ((trigger, target) :: l) (h :: hs)) :
    h = ⟨trigger, target, k⟩ ∧ Numbered (k + 1) l hs := by
  cases hn with
  | cons hn => exact ⟨rfl, hn⟩

theorem parseItems_handlers : ∀ {hs : List Handler} {k : Nat} {p : Parsing}, p.declIndex = k →
    Numbered k (hs.map fun h => (h.trigger, h.target)) hs →
    (∀ h ∈ hs, h.trigger.item.parsed = h.trigger ∧ h.trigger.item.Readable S ∧ S.IsIdent h.target) →
    parseItems isRoot p (hs.map fun h => .on h.trigger.item h.target []) =
      .ok { p with
        body := { p.body with handlers := p.body.handlers ++ hs }
        declIndex := k + hs.length }
  | [], _, p, rfl, _, _ => by
      rw [List.append_nil]
      rfl
  | h :: hs, k, p, hk, hn, hh => by
      obtain ⟨⟨hp, hr, -⟩, hh⟩ := List.forall_mem_cons.mp hh
      obtain ⟨he, hn⟩ := hn.cons_inv
      rw [List.map_cons, parseItems, parseItem, parseTrigger_item hp hr, Except.ok_bind_eq,
        Except.ok_bind_eq, pushTargets, List.foldl_cons, List.foldl_nil, hk, ← he,
        parseItems_handlers rfl hn hh]
      simp only [List.append_assoc, List.singleton_append, List.length_cons, Nat.add_assoc,
        Nat.add_comm 1]

/-- A body is what its items are parsed to. -/
theorem parseItems_body {b : StateBody} (h : b.WellFormed S isRoot) :
    parseItems isRoot {} b.items = .ok { body := b, declIndex := b.handlers.length } := by
  unfold StateBody.items
  simp only [parseItems_append, parseItems_context fun ty hty => (h.context ty hty).1,
    parseItems_events fun ty hty => (h.events ty hty).1, parseItems_defaults h.defaultCount,
    parseItems_terminates h.terminateCount, parseItems_entries, parseItems_exits,
    parseItems_durings, Except.ok_bind_eq]
  rw [parseItems_handlers rfl h.numbered h.handlers]
  simp

theorem parseItems_decls : ∀ {ds : List StateDecl} {isRoot : Bool} {p : Parsing},
    declsWellFormed S ds →
    parseItems isRoot p (declItems ds) = .ok { p with children := p.children ++ ds }
  | [], _, p, _ => by
      rw [List.append_nil]
      rfl
  | .mk name body children :: ds, _, p, h => by
      unfold declsWellFormed StateDecl.WellFormed at h
      obtain ⟨⟨-, hb, hc⟩, hds⟩ := h
      rw [declItems, StateDecl.item, parseItems, parseItem, parseItems_append, parseItems_body hb,
        Except.ok_bind_eq, parseItems_decls hc, Except.ok_bind_eq, Except.ok_bind_eq,
        parseItems_decls hds]
      simp only [List.nil_append, List.append_assoc, List.singleton_append]

end

/-- A tree is what its items are parsed to. -/
theorem parseItems_items {input : StatechartInput} (h : input.WellFormed S) (traced : Bool) :
    parseItems true {} (input.items traced) = .ok
      { body := input.body
        children := input.children
        declIndex := input.body.handlers.length
        traceEnabled := traced } := by
  unfold StatechartInput.items
  rw [parseItems_append, parseItems_append, parseItems_body h.body, Except.ok_bind_eq,
    parseItems_decls h.children, Except.ok_bind_eq]
  cases traced <;> rfl

/-! ## The items of a tree are readable -/

theorem itemsReadable_iff : ∀ {items : List Item},
    itemsReadable S items ↔ ∀ item ∈ items, item.Readable S
  | [] => by simp [itemsReadable]
  | item :: items => by
      rw [itemsReadable, itemsReadable_iff, List.forall_mem_cons]

theorem StateBody.WellFormed.items {isRoot : Bool} {b : StateBody} (h : b.WellFormed S isRoot) :
    ∀ item ∈ b.items, item.Readable S := by
  intro item hmem
  unfold StateBody.items at hmem
  simp only [List.mem_append, List.mem_map, List.mem_flatMap, List.mem_replicate] at hmem
  rcases hmem with ((((((⟨ty, hty, rfl⟩ | ⟨ty, hty, rfl⟩) | ⟨x, hx, -, rfl⟩) | ⟨x, hx, -, rfl⟩) |
    ⟨x, hx, rfl⟩) | ⟨x, hx, rfl⟩) | ⟨a, ha, rfl⟩) | ⟨d, hd, rfl⟩
  · exact (h.context ty (Option.mem_toList.mp hty)).2
  · exact (h.events ty (Option.mem_toList.mp hty)).2
  · exact h.default x (Option.mem_toList.mp hx)
  · exact h.terminate x (Option.mem_toList.mp hx)
  · exact List.forall_mem_singleton.mpr (h.entries x hx)
  · exact List.forall_mem_singleton.mpr (h.exits x hx)
  · exact ⟨(h.handlers a ha).2.1, List.forall_mem_singleton.mpr (h.handlers a ha).2.2⟩
  · exact h.durings d hd

theorem declItems_readable : ∀ {ds : List StateDecl}, declsWellFormed S ds →
    ∀ item ∈ declItems ds, item.Readable S
  | [], _ => by simp [declItems]
  | .mk name body children :: ds, h => by
      unfold declsWellFormed StateDecl.WellFormed at h
      obtain ⟨⟨hname, hb, hc⟩, hds⟩ := h
      rw [declItems, List.forall_mem_cons]
      refine ⟨⟨hname, itemsReadable_iff.mpr ?_⟩, declItems_readable hds⟩
      exact List.forall_mem_append.mpr ⟨hb.items, declItems_readable hc⟩

/-- What is printed for a well-formed tree is parsed to it. -/
theorem parseChart_tokens {input : StatechartInput} (h : input.WellFormed S) (traced : Bool) :
    parseChart S (input.tokens Q traced) = .ok (input, traced) := by
  have hitems : itemsReadable S (input.items traced) := by
    refine itemsReadable_iff.mpr (List.forall_mem_append.mpr ⟨List.forall_mem_append.mpr
      ⟨h.body.items, declItems_readable h.children⟩, ?_⟩)
    split
    · exact List.forall_mem_singleton.mpr trivial
    · simp
  unfold parseChart StatechartInput.tokens
  rw [parseIdent_cons h.name, Except.ok_bind_eq]
  simp only [parseGroup_cons, Except.ok_bind_eq,
    parseBody_tokens Q hitems (parseItems_items h traced) (Nat.le_refl _)]
  rfl

end Hsmc
