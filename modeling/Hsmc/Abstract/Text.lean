import Hsmc.Link.Parsed
import Hsmc.Macros.Tokens

/-
  Printing a parse tree.

  `Quote` prints types and expressions, so that `syn` reads them back. The rest of a tree is
  printed by way of items (`StateDecl.item`), one item for each thing declared.
  `StatechartInput.WellFormed` says which trees come out of the parser.
-/

namespace Hsmc

/-- `quote!` on types and expressions. What is printed parses as what was printed. -/
structure Quote (S : Syn) where
  type : String → List Token
  expr : Expr → List Token
  parse_type : ∀ {input ty rest}, S.parseType input = some (ty, rest) →
    ∀ {ch joint rest'}, ch = ';' ∨ ch = ',' →
      S.parseType (type ty ++ .punct ch joint :: rest') = some (ty, .punct ch joint :: rest')
  parse_expr : ∀ {input e rest}, S.parseExpr input = some (e, rest) →
    S.parseExpr (expr e) = some (e, [])

/-! ## Tokens -/

section

variable {S : Syn} (Q : Quote S)

/-- A punctuation character with a blank after it. -/
def sign (ch : Char) : Token := .punct ch false

def identTokens (first : Ident) (rest : List Ident) : List Token :=
  .ident first :: rest.flatMap fun x => [sign ',', .ident x]

def typedTokens (fields : List PayloadField) : List Token :=
  fields.flatMap fun f => .ident f.name :: sign ':' :: Q.type f.ty ++ [sign ',']

def EventPayload.token (payload : EventPayload) : Token :=
  match payload.kind with
  | .struct => .group .brace (typedTokens Q payload.fields)
  | .tuple => .group .parenthesis (typedTokens Q payload.fields)

def TriggerItem.tokens : TriggerItem → List Token
  | .event variant payload => .ident variant :: payload.toList.map (EventPayload.token Q)
  | .duration expr repeats => .ident (if repeats then "every" else "after") :: Q.expr expr

mutual

def Item.tokens : Item → List Token
  | .context ty => .ident "context" :: sign ':' :: Q.type ty ++ [sign ';']
  | .events ty => .ident "events" :: sign ':' :: Q.type ty ++ [sign ';']
  | .trace => [.ident "trace", sign ';']
  | .entry first rest => .ident "entry" :: sign ':' :: identTokens first rest ++ [sign ';']
  | .exit first rest => .ident "exit" :: sign ':' :: identTokens first rest ++ [sign ';']
  | .default child => [.ident "default", .group .parenthesis [.ident child], sign ';']
  | .terminate event => [.ident "terminate", .group .parenthesis [.ident event], sign ';']
  | .on trigger first rest =>
      .ident "on" :: .group .parenthesis (trigger.tokens Q) :: .punct '=' true :: sign '>' ::
        identTokens first rest ++ [sign ';']
  | .during fnName fields =>
      [.ident "during", sign ':', .ident fnName,
        .group .parenthesis (fields.flatMap fun x => [.ident x, sign ',']), sign ';']
  | .state name items => [.ident "state", .ident name, .group .brace (itemsTokens items)]
  | .other name => [.ident name]

def itemsTokens : List Item → List Token
  | [] => []
  | item :: items => item.tokens ++ itemsTokens items

end

end

/-! ## Items -/

/-- The trigger as written. -/
def Trigger.item : Trigger → TriggerItem
  | .event variant payload => .event variant payload
  | .duration expr _ repeats => .duration expr repeats

def StateBody.items (b : StateBody) : List Item :=
  b.contextTy.toList.map .context ++ b.eventTy.toList.map .events ++
    b.defaultChild.toList.flatMap (fun x => List.replicate b.defaultCount (.default x)) ++
    b.terminate.toList.flatMap (fun x => List.replicate b.terminateCount (.terminate x)) ++
    b.entries.map (fun x => .entry x []) ++ b.exits.map (fun x => .exit x []) ++
    b.handlers.map (fun h => .on h.trigger.item h.target []) ++
    b.durings.map (fun d => .during d.fnName d.fields)

mutual

def StateDecl.item : StateDecl → Item
  | .mk name body children => .state name (body.items ++ declItems children)

def declItems : List StateDecl → List Item
  | [] => []
  | d :: ds => d.item :: declItems ds

end

def StatechartInput.items (input : StatechartInput) (traced : Bool) : List Item :=
  input.body.items ++ declItems input.children ++ if traced then [.trace] else []

/-- The text of a chart, with or without `trace;`. -/
def StatechartInput.tokens {S : Syn} (Q : Quote S) (input : StatechartInput) (traced : Bool) :
    List Token :=
  [.ident input.name, .group .brace (itemsTokens Q (input.items traced))]

/-! ## The trees that the parser gives -/

section

variable (S : Syn)

/-- `ty` is the print of a type. -/
def Syn.IsType (ty : String) : Prop := ∃ input rest, S.parseType input = some (ty, rest)

def Syn.IsExpr (e : Expr) : Prop := ∃ input rest, S.parseExpr input = some (e, rest)

abbrev Syn.IsIdent (x : Ident) : Prop := S.acceptAsIdent x = true

def TriggerItem.Readable : TriggerItem → Prop
  | .event variant payload => S.IsIdent variant ∧ variant ≠ "every" ∧ variant ≠ "after" ∧
      ∀ p ∈ payload, ∀ f ∈ p.fields, S.IsIdent f.name ∧ S.IsType f.ty
  | .duration expr _ => S.IsExpr expr ∧ isNumericLit expr = false

mutual

/-- What the tokens of an item can stand for. -/
def Item.Readable : Item → Prop
  | .context ty | .events ty => S.IsType ty
  | .trace => True
  | .entry first rest | .exit first rest => ∀ x ∈ first :: rest, S.IsIdent x
  | .default x | .terminate x => S.IsIdent x
  | .on trigger first rest => trigger.Readable S ∧ ∀ x ∈ first :: rest, S.IsIdent x
  | .during fnName fields => ∀ x ∈ fnName :: fields, S.IsIdent x
  | .state name items => S.IsIdent name ∧ itemsReadable items
  | .other _ => False

def itemsReadable : List Item → Prop
  | [] => True
  | item :: items => item.Readable ∧ itemsReadable items

end

/-- The handlers are numbered in order, and a duration keeps its own key. -/
structure StateBody.WellFormed (isRoot : Bool) (b : StateBody) : Prop where
  context : ∀ ty ∈ b.contextTy, isRoot = true ∧ S.IsType ty
  events : ∀ ty ∈ b.eventTy, isRoot = true ∧ S.IsType ty
  default : ∀ x ∈ b.defaultChild, S.IsIdent x
  defaultCount : b.defaultCount = 0 ↔ b.defaultChild = none
  terminate : ∀ x ∈ b.terminate, S.IsIdent x
  terminateCount : b.terminateCount = 0 ↔ b.terminate = none
  entries : ∀ x ∈ b.entries, S.IsIdent x
  exits : ∀ x ∈ b.exits, S.IsIdent x
  numbered : Numbered 0 (b.handlers.map fun h => (h.trigger, h.target)) b.handlers
  handlers : ∀ h ∈ b.handlers, h.trigger.item.parsed = h.trigger ∧
    h.trigger.item.Readable S ∧ S.IsIdent h.target
  durings : ∀ d ∈ b.durings, ∀ x ∈ d.fnName :: d.fields, S.IsIdent x

mutual

def StateDecl.WellFormed : StateDecl → Prop
  | .mk name body children =>
      S.IsIdent name ∧ body.WellFormed S false ∧ declsWellFormed children

def declsWellFormed : List StateDecl → Prop
  | [] => True
  | d :: ds => d.WellFormed ∧ declsWellFormed ds

end

/-- A tree that the parser can have made: `context:` and `events:` only at the root, names that
    are not reserved, at least one target for each trigger and the handlers numbered in order. -/
structure StatechartInput.WellFormed (input : StatechartInput) : Prop where
  name : S.IsIdent input.name
  body : input.body.WellFormed S true
  children : declsWellFormed S input.children

end

end Hsmc
