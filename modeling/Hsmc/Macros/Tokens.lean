import Hsmc.Macros.Parse

/-
  The text of `statechart!`, as token trees (`hsmc-macros/src/parse.rs`).

  `proc_macro2` hands the parser a list of tokens in which every bracketed part is one token.
  `syn`'s parsers for types and expressions are a parameter (`Syn`), and so is its list of
  reserved words. Where the source calls `syn`, an error is `ParseError.syn`; the messages that
  the source writes itself are kept.

  A nested stream with tokens left over is no error where it is dropped; `syn::parse2` reports
  it at the end. The flag that a parser returns beside its result says that there was one.

  Two things are left out: the words that `syn` puts before a message of the source at the end of
  a stream (`on()`), and groups without a delimiter, which only other macros make.
-/

namespace Hsmc

inductive Delimiter where
  | parenthesis
  | brace
  | bracket
deriving DecidableEq, Repr

inductive Token where
  | ident (text : Ident)
  /-- `joint` says that another punctuation character follows at once. -/
  | punct (ch : Char) (joint : Bool)
  | literal (text : String)
  | group (delimiter : Delimiter) (stream : List Token)

inductive ParseError where
  | syn
  | own (message : String)
  | outOfFuel
deriving DecidableEq, Repr

/-- A word that begins an item, or a duration. -/
def itemWords : List Ident :=
  ["context", "events", "trace", "entry", "exit", "default", "terminate", "on", "during", "state",
    "every", "after"]

/-- What the parser uses of `syn`. No word of the grammar is reserved, and a type is one token at
    least. -/
structure Syn where
  /-- Whether `Ident::parse` takes the word. -/
  acceptAsIdent : Ident → Bool
  /-- `Type::parse`, and how `quote!` prints the type. -/
  parseType : List Token → Option (String × List Token)
  /-- `Expr::parse`, and the tokens `quote!` prints for the expression. -/
  parseExpr : List Token → Option (Expr × List Token)
  acceptAsIdent_word : ∀ word ∈ itemWords, acceptAsIdent word = true
  parseType_suffix : ∀ {input ty rest}, parseType input = some (ty, rest) →
    ∃ used, used ≠ [] ∧ input = used ++ rest

/-! ## Single tokens -/

namespace Tokens

variable (S : Syn)

/-- `input.parse::<Ident>()` -/
def parseIdent : List Token → Except ParseError (Ident × List Token)
  | .ident x :: input => if S.acceptAsIdent x then .ok (x, input) else .error .syn
  | _ => .error .syn

/-- `input.parse::<Token![ch]>()`, for a token of one character -/
def parsePunct (ch : Char) : List Token → Except ParseError (List Token)
  | .punct ch' _ :: input => if ch' = ch then .ok input else .error .syn
  | _ => .error .syn

/-- `input.parse::<Token![=>]>()` -/
def parseFatArrow : List Token → Except ParseError (List Token)
  | .punct '=' true :: .punct '>' _ :: input => .ok input
  | _ => .error .syn

/-- `input.peek(Token![::])` -/
def peekPathSep : List Token → Bool
  | .punct ':' true :: .punct ':' _ :: _ => true
  | _ => false

/-- `parenthesized!(inner in input)`, `braced!(content in input)` -/
def parseGroup (delimiter : Delimiter) : List Token → Except ParseError (List Token × List Token)
  | .group delimiter' inner :: input =>
      if delimiter' = delimiter then .ok (inner, input) else .error .syn
  | _ => .error .syn

def parseType (input : List Token) : Except ParseError (String × List Token) :=
  match S.parseType input with
  | some r => .ok r
  | none => .error .syn

def parseExpr (input : List Token) : Except ParseError (Expr × List Token) :=
  match S.parseExpr input with
  | some r => .ok r
  | none => .error .syn

/-! ## Lists -/

/-- `while input.peek(Token![,])` of `parse_ident_list` -/
def identListTail : List Token → Except ParseError (List Ident × List Token)
  | .punct ch joint :: .ident x :: input =>
      if ch = ',' then
        if S.acceptAsIdent x then do
          let (xs, input) ← identListTail input
          .ok (x :: xs, input)
        else .error .syn
      else .ok ([], .punct ch joint :: .ident x :: input)
  | .punct ch joint :: input =>
      if ch = ',' then .error .syn else .ok ([], .punct ch joint :: input)
  | input => .ok ([], input)

/-- `parse_ident_list` -/
def parseIdentList (input : List Token) : Except ParseError (Ident × List Ident × List Token) := do
  let (first, input) ← parseIdent S input
  let (rest, input) ← identListTail S input
  .ok (first, rest, input)

/-- `while !inner.is_empty()` of `during`, and the check after it -/
def parseFields : List Token → Except ParseError (List Ident)
  | [] => .ok []
  | [.ident x] => if S.acceptAsIdent x then .ok [x] else .error .syn
  | .ident x :: .punct ch _ :: inner =>
      if S.acceptAsIdent x then
        if ch = ',' then do
          let xs ← parseFields inner
          .ok (x :: xs)
        else .error (.own "unexpected tokens after field list")
      else .error .syn
  | .ident x :: _ :: _ =>
      if S.acceptAsIdent x then .error (.own "unexpected tokens after field list")
      else .error .syn
  | _ => .error .syn

/-- The loop of `parse_typed_fields`, one turn for each unit of fuel, and the check after it. -/
def typedFields : Nat → List Token → Except ParseError (List PayloadField)
  | _, [] => .ok []
  | 0, _ :: _ => .error .outOfFuel
  | fuel + 1, input => do
      let (name, input) ← parseIdent S input
      let input ← parsePunct ':' input
      let (ty, input) ← parseType S input
      match input with
      | [] => .ok [⟨name, ty⟩]
      | token :: input => do
          let input ← (parsePunct ',' (token :: input)).mapError
            fun _ => .own "unexpected tokens after typed payload bindings"
          let fields ← typedFields fuel input
          .ok (⟨name, ty⟩ :: fields)

/-- `parse_typed_fields` -/
def parseTypedFields (input : List Token) : Except ParseError (List PayloadField) :=
  typedFields S input.length input

/-! ## Triggers -/

/-- `parse_duration_rest` -/
def parseDurationRest (input : List Token) (repeats : Bool) :
    Except ParseError (TriggerItem × List Token) := do
  let (expr, input) ← parseExpr S input
  let _ ← (parseTrigger (.duration expr repeats)).mapError ParseError.own
  .ok (.duration expr repeats, input)

/-- What follows the variant name of an event trigger. -/
def parsePayload (variant : Ident) : List Token → Except ParseError (TriggerItem × List Token)
  | [] => .ok (.event variant none, [])
  | .group .brace inner :: input => do
      let fields ← parseTypedFields S inner
      .ok (.event variant (some ⟨.struct, fields⟩), input)
  | .group .parenthesis inner :: input => do
      let fields ← parseTypedFields S inner
      .ok (.event variant (some ⟨.tuple, fields⟩), input)
  | _ => .error (.own ("unexpected token after event variant name; expected end of trigger, " ++
    "`(..)`, or `\x7b .. \x7d`"))

def notATrigger : ParseError :=
  .own ("expected an event variant (`Name`, `Name(..)`, `Name \x7b .. \x7d`) or a duration " ++
    "trigger prefixed with `after` or `every`")

/-- `parse_trigger` -/
def parseTrigger : List Token → Except ParseError (TriggerItem × List Token)
  | .ident x :: input =>
      if !S.acceptAsIdent x then .error notATrigger
      else if x = "every" then parseDurationRest S input true
      else if x = "after" then parseDurationRest S input false
      else if peekPathSep input then .error notATrigger
      else parsePayload S x input
  | _ => .error notATrigger

/-! ## Items -/

/-- What follows the word of an item other than `state`: the item, whether a nested stream had
    tokens left over, and the rest. -/
def parseItemRest (word : Ident) (input : List Token) :
    Except ParseError (Item × Bool × List Token) :=
  if word = "context" then do
    let input ← parsePunct ':' input
    let (ty, input) ← parseType S input
    let input ← parsePunct ';' input
    .ok (.context ty, false, input)
  else if word = "events" then do
    let input ← parsePunct ':' input
    let (ty, input) ← parseType S input
    let input ← parsePunct ';' input
    .ok (.events ty, false, input)
  else if word = "trace" then do
    let input ← parsePunct ';' input
    .ok (.trace, false, input)
  else if word = "entry" then do
    let input ← parsePunct ':' input
    let (first, rest, input) ← parseIdentList S input
    let input ← parsePunct ';' input
    .ok (.entry first rest, false, input)
  else if word = "exit" then do
    let input ← parsePunct ':' input
    let (first, rest, input) ← parseIdentList S input
    let input ← parsePunct ';' input
    .ok (.exit first rest, false, input)
  else if word = "default" then do
    let (inner, input) ← parseGroup .parenthesis input
    let (child, inner) ← parseIdent S inner
    let input ← parsePunct ';' input
    .ok (.default child, !inner.isEmpty, input)
  else if word = "terminate" then do
    let (inner, input) ← parseGroup .parenthesis input
    let (event, inner) ← parseIdent S inner
    let input ← parsePunct ';' input
    .ok (.terminate event, !inner.isEmpty, input)
  else if word = "on" then do
    let (inner, input) ← parseGroup .parenthesis input
    let (trigger, inner) ← parseTrigger S inner
    let input ← parseFatArrow input
    let (first, rest, input) ← parseIdentList S input
    let input ← parsePunct ';' input
    .ok (.on trigger first rest, !inner.isEmpty, input)
  else if word = "during" then do
    let input ← parsePunct ':' input
    let (fnName, input) ← parseIdent S input
    let (fields, input) ← match input with
      | .group .parenthesis inner :: input => do
          let fields ← parseFields S inner
          .ok (fields, input)
      | input => .ok ([], input)
    let input ← parsePunct ';' input
    .ok (.during fnName fields, false, input)
  else .ok (.other word, false, input)

/-- `parse_body`, one turn of its loop for each unit of fuel. -/
def parseBody : Nat → Bool → Parsing → List Token → Except ParseError (Parsing × Bool)
  | _, _, p, [] => .ok (p, false)
  | 0, _, _, _ :: _ => .error .outOfFuel
  | fuel + 1, isRoot, p, .ident word :: input =>
      if !S.acceptAsIdent word then .error .syn
      else if word = "state" then do
        let (name, input) ← parseIdent S input
        let (content, input) ← parseGroup .brace input
        let (inner, leftInner) ← parseBody fuel false {} content
        let p := { p with children := p.children ++ [.mk name inner.body inner.children] }
        let (p, left) ← parseBody fuel isRoot p input
        .ok (p, leftInner || left)
      else do
        let (item, leftItem, input) ← parseItemRest S word input
        let p ← (parseItem isRoot p item).mapError ParseError.own
        let (p, left) ← parseBody fuel isRoot p input
        .ok (p, leftItem || left)
  | _, _, _, _ :: _ => .error .syn

mutual

/-- How many tokens there are, those in groups included. -/
def weight : Token → Nat
  | .group _ stream => weights stream + 1
  | _ => 1

def weights : List Token → Nat
  | [] => 0
  | token :: input => weight token + weights input

end

/-- `syn::parse2::<StatechartInput>`, and whether the chart has `trace;`. -/
def parseChart (input : List Token) : Except ParseError (StatechartInput × Bool) := do
  let (name, input) ← parseIdent S input
  let (content, input) ← parseGroup .brace input
  let (p, left) ← parseBody S (weights content) true {} content
  if left || !input.isEmpty then .error .syn
  else .ok ({ name, body := p.body, children := p.children }, p.traceEnabled)

end Tokens

end Hsmc
