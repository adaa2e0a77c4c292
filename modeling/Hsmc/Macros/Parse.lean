import Mathlib.Data.List.Basic

/-
  The parse tree of `statechart!` (`hsmc-macros/src/parse.rs`).

  Spans are left out: they place an error in the user's file and decide nothing. A Rust type
  or expression is kept as its tokens, since the macro only prints it and compares the prints.
  The children of a body stand beside it (`StateDecl.children`), because a Lean structure
  cannot hold a list of itself.

  `parseStatechart` is `parse_body` on items whose tokens `syn` has already grouped (`Item`).
-/

namespace Hsmc

/-- An identifier, compared by its text as `proc_macro2::Ident` is. -/
abbrev Ident := String

/-- An expression, as the tokens `quote!` prints. -/
abbrev Expr := List String

inductive PayloadKind where
  | tuple
  | struct
deriving DecidableEq, Repr

structure PayloadField where
  name : Ident
  /-- `quote! { #ty }.to_string()`, the form in which two types are compared. -/
  ty : String
deriving DecidableEq, Repr

/-- Typed bindings at an event trigger, as in `on(PacketRx { rssi: i16 }) => h;`. -/
structure EventPayload where
  kind : PayloadKind
  fields : List PayloadField
deriving DecidableEq, Repr

inductive Trigger where
  | event (variant : Ident) (payload : Option EventPayload)
  /-- `after expr` or, with `repeats`, `every expr`. -/
  | duration (expr : Expr) (key : String) (repeats : Bool)
deriving DecidableEq, Repr

/-- One target of an `on(..) => a, b, C;` list. The parser does not yet know whether `target`
    names a state or an action. -/
structure Handler where
  trigger : Trigger
  target : Ident
  declIndex : Nat
deriving DecidableEq, Repr

/-- `during: fn_name(field, ..);` -/
structure During where
  fnName : Ident
  fields : List Ident
deriving DecidableEq, Repr

/-- What one `{ .. }` body declares, its child states apart. -/
structure StateBody where
  contextTy : Option String := none
  eventTy : Option String := none
  terminate : Option Ident := none
  defaultChild : Option Ident := none
  defaultCount : Nat := 0
  terminateCount : Nat := 0
  entries : List Ident := []
  exits : List Ident := []
  handlers : List Handler := []
  durings : List During := []
deriving DecidableEq, Repr

inductive StateDecl where
  | mk (name : Ident) (body : StateBody) (children : List StateDecl)

def StateDecl.name : StateDecl → Ident
  | .mk name _ _ => name

def StateDecl.body : StateDecl → StateBody
  | .mk _ body _ => body

def StateDecl.children : StateDecl → List StateDecl
  | .mk _ _ children => children

/-- `statechart! { name { .. } }` -/
structure StatechartInput where
  name : Ident
  body : StateBody
  children : List StateDecl

/-- `char::is_whitespace`: the characters with the Unicode property `White_Space`. -/
def isWhitespace (ch : Char) : Bool :=
  let c := ch.toNat
  (0x9 ≤ c && c ≤ 0xD) || c == 0x20 || c == 0x85 || c == 0xA0 || c == 0x1680 ||
    (0x2000 ≤ c && c ≤ 0x200A) || c == 0x2028 || c == 0x2029 || c == 0x202F || c == 0x205F ||
    c == 0x3000

/-- The dedup key of a duration expression: its printed tokens, without white space. -/
def exprToString (e : Expr) : String :=
  String.ofList ((" ".intercalate e).toList.filter fun ch => !isWhitespace ch)

/-! ## Items -/

/-- A trigger as written. -/
inductive TriggerItem where
  | event (variant : Ident) (payload : Option EventPayload)
  /-- `after expr` or, with `repeats`, `every expr`. -/
  | duration (expr : Expr) (repeats : Bool)
deriving DecidableEq, Repr

/-- One item of a body. `entry`, `exit` and `on` list at least one name (`parse_ident_list`). -/
inductive Item where
  | context (ty : String)
  | events (ty : String)
  | trace
  | entry (first : Ident) (rest : List Ident)
  | exit (first : Ident) (rest : List Ident)
  | default (child : Ident)
  | terminate (event : Ident)
  | on (trigger : TriggerItem) (first : Ident) (rest : List Ident)
  | during (fnName : Ident) (fields : List Ident)
  | state (name : Ident) (items : List Item)
  | other (name : Ident)

/-- `Expr::Lit` of an integer or a float, which is one token that begins with a digit. -/
def isNumericLit : Expr → Bool
  | [token] => token.toList.head?.any (·.isDigit)
  | _ => false

/-- `parse_trigger`, `parse_duration_rest` -/
def parseTrigger : TriggerItem → Except String Trigger
  | .event variant payload => .ok (.event variant payload)
  | .duration expr repeats =>
      if isNumericLit expr then
        .error ("bare numeric literals are not accepted as durations; use a typed expression " ++
          "like `Duration::from_secs(5)` or `Duration::from_millis(250)`")
      else .ok (.duration expr (exprToString expr) repeats)

/-- The locals of `parse_body`. -/
structure Parsing where
  body : StateBody := {}
  children : List StateDecl := []
  declIndex : Nat := 0
  traceEnabled : Bool := false

/-- `for target in targets { handlers.push(..); decl_index += 1; }` -/
def pushTargets (trigger : Trigger) (p : Parsing) (targets : List Ident) : Parsing :=
  targets.foldl (fun p target =>
    { p with
      body := { p.body with handlers := p.body.handlers ++ [⟨trigger, target, p.declIndex⟩] }
      declIndex := p.declIndex + 1 }) p

mutual

/-- One turn of the `while` loop of `parse_body`. -/
def parseItem (isRoot : Bool) (p : Parsing) : Item → Except String Parsing
  | .context ty =>
      if !isRoot then .error "`context:` is only valid at root"
      else .ok { p with body := { p.body with contextTy := some ty } }
  | .events ty =>
      if !isRoot then .error "`events:` is only valid at root"
      else .ok { p with body := { p.body with eventTy := some ty } }
  | .trace =>
      if !isRoot then .error "`trace;` is only valid at root"
      else if p.traceEnabled then .error "duplicate `trace;` declaration"
      else .ok { p with traceEnabled := true }
  | .entry first rest =>
      .ok { p with body := { p.body with entries := p.body.entries ++ first :: rest } }
  | .exit first rest =>
      .ok { p with body := { p.body with exits := p.body.exits ++ first :: rest } }
  | .default child =>
      .ok { p with body := { p.body with
        defaultCount := p.body.defaultCount + 1
        defaultChild := p.body.defaultChild.or (some child) } }
  | .terminate event =>
      .ok { p with body := { p.body with
        terminateCount := p.body.terminateCount + 1
        terminate := p.body.terminate.or (some event) } }
  | .on trigger first rest => do
      let trigger ← parseTrigger trigger
      .ok (pushTargets trigger p (first :: rest))
  | .during fnName fields =>
      .ok { p with body := { p.body with durings := p.body.durings ++ [⟨fnName, fields⟩] } }
  | .state name items => do
      let inner ← parseItems false {} items
      .ok { p with children := p.children ++ [.mk name inner.body inner.children] }
  | .other name => .error s!"unknown item `{name}` in statechart body"

/-- `parse_body` -/
def parseItems (isRoot : Bool) (p : Parsing) : List Item → Except String Parsing
  | [] => .ok p
  | item :: items => do
      let p ← parseItem isRoot p item
      parseItems isRoot p items

end

/-- `statechart! { name { items } }` -/
def parseStatechart (name : Ident) (items : List Item) : Except String StatechartInput := do
  let p ← parseItems true {} items
  .ok { name, body := p.body, children := p.children }

end Hsmc
