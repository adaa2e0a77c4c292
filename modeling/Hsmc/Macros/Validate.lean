import Hsmc.Macros.Ir

/-
  Compile-time validation (`hsmc-macros/src/validate.rs`).

  `validateParseTree` runs on the parse tree, `validate` on the resolved `Ir`. Each check is a
  function under the source's name or, where the source writes it inline, a function of its own
  called in the same place. An `Ok(())` is `.ok ()`.
-/

namespace Hsmc

/-! ## The parse tree -/

def validateItems (body : StateBody) (isRoot : Bool) (stateName : Ident) : Except String Unit :=
  if body.defaultCount > 1 then
    .error s!"multiple `default` declarations in state `{stateName}`"
  else if body.terminateCount > 1 then
    .error "multiple `terminate` declarations"
  else if !isRoot && body.terminate.isSome then
    .error "`terminate` is only valid at the root level"
  else .ok ()

mutual

def validateBody (isRoot : Bool) : StateDecl → Except String Unit
  | .mk name body children => do
      validateItems body isRoot name
      validateChildren children

def validateChildren : List StateDecl → Except String Unit
  | [] => .ok ()
  | c :: cs => do
      validateBody false c
      validateChildren cs

end

def validateParseTree (input : StatechartInput) : Except String Unit :=
  validateBody true input.root

/-! ## The default graph -/

inductive Color where
  | white
  | gray
  | black
deriving DecidableEq, Repr

/-- `ir.states[s].default_child` -/
def defaultChildOf (states : List StateIr) (s : Nat) : Option Nat :=
  states[s]?.bind (·.defaultChild)

def stateNameOf (states : List StateIr) (s : Nat) : Ident :=
  (states[s]?.map (·.name)).getD ""

/-- The message for the cycle that starts at `cur` on the current chain. -/
def cycleMessage (states : List StateIr) (chain : List Nat) (cur : Nat) : String :=
  match position (fun x => x == cur) chain with
  | none => "gray node must be on current chain"
  | some cycleStart =>
      let cycle := (chain.drop cycleStart).map (stateNameOf states)
      let pretty := " -> ".intercalate cycle ++ " -> " ++ cycle.headD ""
      s!"default-transition cycle detected: {pretty} (entering any state in this cycle would " ++
        "loop forever before reaching user code)"

/-- The inner `loop`. Each turn colours a white state gray, so `fuel` above the number of
    states is never used up. -/
def walkDefaults (states : List StateIr) :
    Nat → List Color → List Nat → Nat → Except String (List Color × List Nat)
  | 0, _, _, _ => .error "default walk out of fuel"
  | fuel + 1, color, chain, cur =>
      match color[cur]? with
      | none => .error "index out of bounds"
      | some .black => .ok (color, chain)
      | some .gray => .error (cycleMessage states chain cur)
      | some .white =>
          let color := color.set cur .gray
          let chain := chain ++ [cur]
          match defaultChildOf states cur with
          | some next => walkDefaults states fuel color chain next
          | none => .ok (color, chain)

/-- One turn of the outer `for`. -/
def colorFrom (states : List StateIr) (color : List Color) (start : Nat) :
    Except String (List Color) :=
  if color[start]? = some .white then do
    let (color, chain) ← walkDefaults states (states.length + 1) color [] start
    .ok (chain.foldl (fun color id => color.set id .black) color)
  else .ok color

def validateDefaultGraph (ir : Ir) : Except String Unit := do
  let n := ir.states.length
  let _ ← (List.range n).foldlM (colorFrom ir.states) (List.replicate n Color.white)
  .ok ()

/-! ## The states -/

/-- A name that `seen` does not hold yet, for each state in order. -/
def checkDuplicateNames (seen : List Ident) : List StateIr → Except String Unit
  | [] => .ok ()
  | s :: ss =>
      if s.name == "__Root" then checkDuplicateNames seen ss
      else if seen.contains s.name then
        let name := s.name
        .error s!"duplicate state name `{name}`"
      else checkDuplicateNames (s.name :: seen) ss

def checkEmptyState (s : StateIr) : Except String Unit :=
  if s.parent.isSome && s.entries.isEmpty && s.exits.isEmpty && s.handlers.isEmpty
      && s.children.isEmpty && s.durings.isEmpty then
    let name := s.name
    .error s!"empty state `{name}`"
  else .ok ()

/-- No field twice in one `during:`. -/
def checkDuringFields (fnName : Ident) (seenInOne : List Ident) : List Ident → Except String Unit
  | [] => .ok ()
  | f :: fs =>
      if seenInOne.contains f then
        .error (s!"field `{f}` listed twice in `during: {fnName}(...)` — each field can only be " ++
          "borrowed once per during")
      else checkDuringFields fnName (f :: seenInOne) fs

/-- No field in two durings of one state; `owner` maps the fields seen so far to their during. -/
def checkFieldOwners (stateName : Ident) (owner : List (Ident × Ident)) :
    List (Ident × Ident) → Except String Unit
  | [] => .ok ()
  | (f, fnName) :: fs =>
      match owner.lookup f with
      | some prev =>
          .error (s!"field `{f}` is borrowed by two concurrent durings on state `{stateName}` " ++
            s!"(`{prev}` and `{fnName}`) — move one of them to a disjoint field or combine the " ++
            "activities into a single during that uses `select`")
      | none => checkFieldOwners stateName ((f, fnName) :: owner) fs

def checkDurings (s : StateIr) : Except String Unit := do
  s.durings.forM fun d => checkDuringFields d.fnName [] d.fields
  checkFieldOwners s.name [] (s.durings.flatMap fun d => d.fields.map fun f => (f, d.fnName))

/-- `format!("ev:{}", i)` or `format!("dur:{}", id)` -/
def triggerKey : TriggerIr → String
  | .event _ i _ => "ev:" ++ i
  | .duration id => "dur:" ++ toString id

def triggerDisplay (durs : List DurationTrigger) : TriggerIr → String
  | .event _ i _ => i
  | .duration id => (durs[id]?.map (·.key)).getD ""

/-- The trigger keys of the transitions and of the actions seen so far, with the declaration
    index of the last one. -/
structure HandlerSeen where
  txn : List (String × Nat) := []
  lastAction : List (String × Nat) := []

def checkHandler (ir : Ir) (s : StateIr) (seen : HandlerSeen) (h : HandlerIr) :
    Except String HandlerSeen :=
  let key := triggerKey h.trigger
  let display := triggerDisplay ir.symbols.durationTriggers h.trigger
  let stateName := s.name
  match h.kind with
  | .transition target _ =>
      if (seen.txn.lookup key).isSome then
        .error s!"duplicate transition on trigger `{display}` in state `{stateName}`"
      else if ((nameMap ir).lookup target).isNone then
        .error s!"unknown state `{target}` in transition"
      else if (seen.lastAction.lookup key).any (fun last => last > h.declIndex) then
        .error (s!"transition to state `{target}` on trigger `{display}` must come after every " ++
          "action handler on the same trigger; hsmc runs all actions before the transition, so " ++
          "declaring the state target earlier misleads the reader")
      else .ok { seen with txn := (key, h.declIndex) :: seen.txn }
  | .action .. =>
      if (seen.txn.lookup key).any (fun txn => txn < h.declIndex) then
        .error (s!"action handler on trigger `{display}` must be declared before the state " ++
          "transition target; hsmc runs all actions before the transition, so placing actions " ++
          "after the target misleads the reader")
      else .ok { seen with lastAction := (key, h.declIndex) :: seen.lastAction }

def checkState (ir : Ir) (s : StateIr) : Except String Unit := do
  checkEmptyState s
  checkDurings s
  let _ ← s.handlers.foldlM (checkHandler ir s) {}
  .ok ()

def validate (ir : Ir) : Except String Unit := do
  validateDefaultGraph ir
  checkDuplicateNames [] ir.states
  ir.states.forM (checkState ir)

end Hsmc
