import Mathlib.Algebra.Group.Nat.Defs
import Hsmc.Macros.Parse

/-
  Lowering the parse tree to the intermediate representation (`hsmc-macros/src/ir.rs`).

  `Ir.symbols` groups the three interning tables of the source's `Ir`, so that a function that
  only interns takes and returns these and cannot touch the states. Ids are `u16`: where the
  source casts a `usize` with `as u16`, so does `asU16`.
-/

namespace Hsmc

/-- `x as u16` -/
def asU16 (x : Nat) : Nat := x % 65536

/-- `u16::MAX` -/
def u16Max : Nat := 65535

/-- `x as u64` -/
def asU64 (x : Nat) : Nat := x % 2 ^ 64

structure BoundVariant where
  name : Ident
  kind : PayloadKind
deriving DecidableEq, Repr

structure ActionIr where
  name : Ident
  params : List PayloadField
  boundVariants : List BoundVariant
deriving DecidableEq, Repr

inductive VariantKind where
  | unit
  | tuple
  | struct
deriving DecidableEq, Repr

structure EventVariantIr where
  name : Ident
  kind : VariantKind
  fieldCount : Option Nat
deriving DecidableEq, Repr

structure DurationTrigger where
  id : Nat
  key : String
  expr : Expr
  repeats : Bool
deriving DecidableEq, Repr

inductive TriggerIr where
  | event (id : Nat) (variant : Ident) (payload : Option EventPayload)
  | duration (id : Nat)
deriving DecidableEq, Repr

inductive HandlerKindIr where
  /-- The target's name, and its id once `resolveTransitions` has run. -/
  | transition (target : Ident) (slot : Option Nat)
  | action (aid : Nat) (name : Ident)
deriving DecidableEq, Repr

structure HandlerIr where
  trigger : TriggerIr
  kind : HandlerKindIr
  declIndex : Nat
deriving DecidableEq, Repr

structure StateIr where
  id : Nat
  name : Ident
  parent : Option Nat
  /-- `u8` -/
  depth : Nat
  defaultChild : Option Nat := none
  defaultTargetIdent : Option Ident := none
  entries : List Nat := []
  exits : List Nat := []
  handlers : List HandlerIr := []
  children : List Nat := []
  ownedTimers : List Nat := []
  durings : List During := []
deriving DecidableEq, Repr

structure Symbols where
  actions : List ActionIr := []
  eventVariants : List EventVariantIr := []
  durationTriggers : List DurationTrigger := []
deriving DecidableEq, Repr

structure Ir where
  name : Ident
  eventsOmitted : Bool
  terminateEvent : Option Ident
  states : List StateIr
  symbols : Symbols
deriving DecidableEq, Repr

/-! ## Interning -/

/-- Position of the first item with `p`, or `none` (`iter().position`). -/
def position {α : Type} (p : α → Bool) (l : List α) : Option Nat := l.findIdx? p

def internActionUnit (actions : List ActionIr) (i : Ident) :
    Except String (List ActionIr × Nat) :=
  match position (fun x => x.name == i) actions with
  | some p =>
      match actions[p]? with
      | some a =>
          if !a.params.isEmpty then
            .error (s!"action `{i}` was previously declared with typed event-payload bindings; " ++
              "cannot also be used without bindings")
          else .ok (actions, asU16 p)
      | none => .ok (actions, asU16 p)
  | none =>
      .ok (actions ++ [{ name := i, params := [], boundVariants := [] }], asU16 actions.length)

def paramsMatch (a b : List PayloadField) : Bool :=
  a.length == b.length && (a.zip b).all fun (x, y) => x.name == y.name && x.ty == y.ty

def internActionWithParams (actions : List ActionIr) (i : Ident) (params : List PayloadField)
    (variant : Ident) (variantKind : PayloadKind) : Except String (List ActionIr × Nat) :=
  match position (fun x => x.name == i) actions with
  | some p =>
      match actions[p]? with
      | some a =>
          if a.params.isEmpty then
            .error (s!"action `{i}` was previously declared without bindings; cannot also be " ++
              "used with typed event-payload bindings")
          else if !paramsMatch a.params params then
            .error (s!"action `{i}` used with a different payload binding shape than its first " ++
              "declaration")
          else if a.boundVariants.any (fun bv => bv.name == variant) then
            .ok (actions, asU16 p)
          else
            let a' := { a with boundVariants := a.boundVariants ++ [⟨variant, variantKind⟩] }
            .ok (actions.set p a', asU16 p)
      | none => .ok (actions, asU16 p)
  | none =>
      .ok (actions ++ [{ name := i, params, boundVariants := [⟨variant, variantKind⟩] }],
        asU16 actions.length)

def variantKindName : VariantKind → String
  | .unit => "unit"
  | .tuple => "tuple"
  | .struct => "struct"

def payloadVariantKind : Option EventPayload → VariantKind
  | none => .unit
  | some p => match p.kind with
    | .tuple => .tuple
    | .struct => .struct

/-- A later use of variant `e` with kind `kind` and field count `fieldCount`: the recorded
    variant afterwards, or the conflict. -/
def mergeVariant (i : Ident) (e : EventVariantIr) (kind : VariantKind) (fieldCount : Option Nat) :
    Except String EventVariantIr :=
  match e.kind, kind with
  | .unit, .unit => .ok e
  | .unit, k => .ok { e with kind := k, fieldCount }
  | a, b =>
      if a = b then
        match e.fieldCount, fieldCount with
        | some x, some y =>
            if x ≠ y then
              .error (s!"event variant `{i}` is used with inconsistent payload field counts " ++
                s!"({x} vs {y})")
            else .ok e
        | _, _ => .ok e
      else if b = .unit then .ok e
      else
        let na := variantKindName a
        let nb := variantKindName b
        .error s!"event variant `{i}` is used with inconsistent kinds ({na} vs {nb})"

def internEvent (events : List EventVariantIr) (i : Ident) (payload : Option EventPayload) :
    Except String (List EventVariantIr × Nat) :=
  let kind := payloadVariantKind payload
  let fieldCount := payload.map fun p => p.fields.length
  match position (fun x => x.name == i) events with
  | some p =>
      match events[p]? with
      | some e => do
          let e' ← mergeVariant i e kind fieldCount
          .ok (events.set p e', asU16 p)
      | none => .ok (events, asU16 p)
  | none => .ok (events ++ [{ name := i, kind, fieldCount }], asU16 events.length)

/-- `format!("{}:{}", key, repeat)` -/
def durationKey (key : String) (repeats : Bool) : String :=
  key ++ ":" ++ (if repeats then "true" else "false")

def internDuration (durs : List DurationTrigger) (expr : Expr) (key : String) (repeats : Bool) :
    List DurationTrigger × Nat :=
  let fullKey := durationKey key repeats
  match durs.find? (fun d => d.key == fullKey) with
  | some dt => (durs, dt.id)
  | none =>
      let id := asU16 durs.length
      (durs ++ [{ id, key := fullKey, expr, repeats }], id)

/-! ## Classifying handlers -/

/-- `matches!(trig, Duration(tid) if ir.duration_triggers[tid].repeat)` -/
def triggerRepeats (durs : List DurationTrigger) : TriggerIr → Bool
  | .duration tid => (durs[tid]?.map (·.repeats)).getD false
  | .event .. => false

/-- The action branch: bind the payload when the trigger declares one. -/
def internTarget (actions : List ActionIr) (target : Ident) :
    TriggerIr → Except String (List ActionIr × Nat)
  | .event _ variant (some payload) =>
      internActionWithParams actions target payload.fields variant payload.kind
  | _ => internActionUnit actions target

/-- `on(trigger) => target`: a transition when `target` names a declared state, an action
    otherwise. -/
def classifyTarget (syms : Symbols) (target : Ident) (trig : TriggerIr) (stateNames : List Ident) :
    Except String (Symbols × HandlerKindIr) :=
  if stateNames.contains target then
    if triggerRepeats syms.durationTriggers trig then
      .error ("`every` timers are only valid on action handlers; transitioning to a state " ++
        "cancels the timer on first fire")
    else
      match trig with
      | .event _ _ (some _) =>
          .error ("event payload bindings are only valid when dispatching to an action handler; " ++
            "a transition target takes no arguments")
      | _ => .ok (syms, .transition target none)
  else do
    let (actions, aid) ← internTarget syms.actions target trig
    .ok ({ syms with actions }, .action aid target)

/-! ## Lowering a body -/

def internActions (syms : Symbols) : List Ident → Except String (Symbols × List Nat)
  | [] => .ok (syms, [])
  | i :: is => do
      let (actions, aid) ← internActionUnit syms.actions i
      let (syms, aids) ← internActions { syms with actions } is
      .ok (syms, aid :: aids)

/-- The trigger of one handler, interned; `owned` is the state's `owned_timers` so far. -/
def lowerTrigger (syms : Symbols) (owned : List Nat) :
    Trigger → Except String (Symbols × List Nat × TriggerIr)
  | .event variant payload => do
      let (eventVariants, id) ← internEvent syms.eventVariants variant payload
      .ok ({ syms with eventVariants }, owned, .event id variant payload)
  | .duration expr key repeats =>
      let (durationTriggers, id) := internDuration syms.durationTriggers expr key repeats
      let owned := if owned.contains id then owned else owned ++ [id]
      .ok ({ syms with durationTriggers }, owned, .duration id)

def lowerHandlers (stateNames : List Ident) (syms : Symbols) (owned : List Nat) :
    List Handler → Except String (Symbols × List Nat × List HandlerIr)
  | [] => .ok (syms, owned, [])
  | h :: hs => do
      let (syms, owned, trigger) ← lowerTrigger syms owned h.trigger
      let (syms, kind) ← classifyTarget syms h.target trigger stateNames
      let (syms, owned, rest) ← lowerHandlers stateNames syms owned hs
      .ok (syms, owned, { trigger, kind, declIndex := h.declIndex } :: rest)

/-- Append a fresh state; its id is the number of states before it. -/
def allocState (states : List StateIr) (name : Ident) (parent : Option Nat) (depth : Nat) :
    List StateIr × Nat :=
  let s : StateIr := { id := asU16 states.length, name, parent, depth }
  (states ++ [s], s.id)

/-- `ir.states[state_id].depth` -/
def depthOf (states : List StateIr) (stateId : Nat) : Nat :=
  (states[stateId]?.map (·.depth)).getD 0

mutual

/-- Fill in state `stateId` from its body, then lower its children below it. -/
def lowerBody (stateNames : List Ident) (syms : Symbols) (states : List StateIr) (stateId : Nat) :
    StateDecl → Except String (Symbols × List StateIr)
  | .mk _ body children => do
      let (syms, entries) ← internActions syms body.entries
      let (syms, exits) ← internActions syms body.exits
      let (syms, ownedTimers, handlers) ← lowerHandlers stateNames syms [] body.handlers
      let states := states.modify stateId fun s =>
        { s with entries, exits, ownedTimers, handlers, durings := body.durings }
      let (syms, states, childIds) ←
        lowerChildren stateNames syms states stateId (depthOf states stateId) children
      .ok (syms, states.modify stateId fun s =>
        { s with children := childIds, defaultTargetIdent := body.defaultChild })

/-- Allocate and lower the children one after the other. The depth is a `u8`. -/
def lowerChildren (stateNames : List Ident) (syms : Symbols) (states : List StateIr)
    (stateId parentDepth : Nat) :
    List StateDecl → Except String (Symbols × List StateIr × List Nat)
  | [] => .ok (syms, states, [])
  | c :: cs => do
      let (states, cid) := allocState states c.name (some stateId) ((parentDepth + 1) % 256)
      let (syms, states) ← lowerBody stateNames syms states cid c
      let (syms, states, ids) ← lowerChildren stateNames syms states stateId parentDepth cs
      .ok (syms, states, cid :: ids)

end

mutual

/-- Every declared state name, in source order. -/
def collectStateNames : StateDecl → List Ident
  | .mk _ _ children => collectChildNames children

def collectChildNames : List StateDecl → List Ident
  | [] => []
  | c :: cs => c.name :: collectStateNames c ++ collectChildNames cs

end

/-- The root body as a state declaration named after the chart. -/
def StatechartInput.root (input : StatechartInput) : StateDecl :=
  .mk input.name input.body input.children

/-- The terminate event gets an id of its own, so that the journal can name it. -/
def internTerminate (syms : Symbols) : Option Ident → Except String Symbols
  | none => .ok syms
  | some t => do
      let (eventVariants, _) ← internEvent syms.eventVariants t none
      .ok { syms with eventVariants }

def buildIr (input : StatechartInput) : Except String Ir :=
  match input.body.contextTy with
  | none => .error "statechart missing `context:` declaration"
  | some _ => do
      let stateNames := input.name :: collectStateNames input.root
      let (states, rootId) := allocState [] "__Root" none 0
      let (syms, states) ← lowerBody stateNames {} states rootId input.root
      let syms ← internTerminate syms input.body.terminate
      .ok { name := input.name, eventsOmitted := input.body.eventTy.isNone,
            terminateEvent := input.body.terminate, states, symbols := syms }

/-! ## Resolving targets -/

/-- State names to ids. A `HashMap` whose later inserts win is the list of inserts read from
    the back; the chart's own name, for the root, is inserted last. -/
def nameMap (ir : Ir) : List (Ident × Nat) :=
  let root := match ir.states.find? fun s => s.parent.isNone with
    | some root => [(ir.name, root.id)]
    | none => []
  root ++ ((ir.states.filter fun s => s.name != "__Root").map fun s => (s.name, s.id)).reverse

def resolveKind (map : List (Ident × Nat)) : HandlerKindIr → Except String HandlerKindIr
  | .transition target none =>
      match map.lookup target with
      | some id => .ok (.transition target (some id))
      | none => .error s!"unknown state `{target}` in transition"
  | kind => .ok kind

def resolveHandler (map : List (Ident × Nat)) (h : HandlerIr) : Except String HandlerIr := do
  let kind ← resolveKind map h.kind
  .ok { h with kind }

def resolveHandlers (map : List (Ident × Nat)) (s : StateIr) : Except String StateIr := do
  let handlers ← s.handlers.mapM (resolveHandler map)
  .ok { s with handlers }

def resolveDefault (map : List (Ident × Nat)) (s : StateIr) : Except String StateIr :=
  match s.defaultTargetIdent with
  | none => .ok s
  | some ident =>
      match map.lookup ident with
      | some id => .ok { s with defaultChild := some id }
      | none => .error s!"unknown state `{ident}` in `default(...)`"

def resolveTransitions (ir : Ir) : Except String Ir := do
  let map := nameMap ir
  let states ← ir.states.mapM (resolveHandlers map)
  let states ← states.mapM (resolveDefault map)
  .ok { ir with states }

end Hsmc
