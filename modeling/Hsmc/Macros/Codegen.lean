import Mathlib.Data.List.Sort
import Hsmc.Lib.Except
import Hsmc.Macros.Validate

/-
  Code generation (`hsmc-macros/src/codegen.rs`): from the `Ir` to a `Chart`, the constants
  and match tables of the emitted module.

  A panic of the macro and an array literal whose length rustc refuses are both `.error`. A
  walk up the parents takes fuel, one more than the number of states, which no walk in a tree
  uses up. A `match` on an id is a list of arms, looked up from the front.
-/

namespace Hsmc

/-! ## The chart hash -/

def leBytes16 (x : Nat) : List Nat := [x % 256, x / 256 % 256]

def nameBytes (s : Ident) : List Nat :=
  s.toList.flatMap fun ch => (String.utf8EncodeChar ch).map UInt8.toNat

def feedHandler (h : HandlerIr) : List (List Nat) :=
  (match h.trigger with
    | .event id ident _ => [[0x01], leBytes16 id, nameBytes ident]
    | .duration id => [[0x02], leBytes16 id]) ++
  (match h.kind with
    | .transition name slot => [[0x10], nameBytes name, leBytes16 (slot.getD u16Max)]
    | .action aid name => [[0x11], leBytes16 aid, nameBytes name])

def feedState (s : StateIr) : List (List Nat) :=
  [leBytes16 s.id, nameBytes s.name, leBytes16 (s.parent.getD u16Max), [s.depth],
    leBytes16 (s.defaultChild.getD u16Max)] ++
  s.entries.map leBytes16 ++ [[0xee]] ++
  s.exits.map leBytes16 ++ [[0xff]] ++
  s.handlers.flatMap feedHandler ++ [[0xfe]] ++
  s.ownedTimers.map leBytes16 ++ [[0xfd]] ++
  [leBytes16 (asU16 s.durings.length)]

/-- The arguments of the successive `feed` calls. -/
def chartFeeds (ir : Ir) : List (List Nat) :=
  [nameBytes ir.name] ++ ir.states.flatMap feedState ++ [[0xfc]] ++
  ir.symbols.actions.flatMap (fun a => [nameBytes a.name, leBytes16 (asU16 a.params.length)]) ++
  [[0xfb]] ++ ir.symbols.eventVariants.map fun e => nameBytes e.name

def fnvPrime : Nat := 0x00000100000001b3

def fnvByte (h b : Nat) : Nat := asU64 ((h ^^^ b) * fnvPrime)

def computeChartHash (ir : Ir) : Nat :=
  (chartFeeds ir).foldl (fun h bytes => fnvByte (bytes.foldl fnvByte h) 0xff) 0xcbf29ce484222325

/-! ## Transition paths -/

/-- `states[s].parent` -/
def parentOf (states : List StateIr) (s : Nat) : Option Nat :=
  states[s]?.bind (·.parent)

/-- `usize` to `u16` with `expect(msg)`. -/
def toU16 (x : Nat) (msg : String) : Except String Nat :=
  if x ≤ u16Max then .ok x else .error msg

/-- `while d > 0 { a = parent(a)?; d -= 1 }` -/
def climb (states : List StateIr) : Nat → Nat → Option Nat
  | 0, a => some a
  | d + 1, a => (parentOf states a).bind (climb states d)

/-- `while a != b { a = parent(a)?; b = parent(b)? }` -/
def lockstep (states : List StateIr) : Nat → Nat → Nat → Option Nat
  | 0, a, b => if a = b then some a else none
  | fuel + 1, a, b =>
      if a = b then some a
      else (parentOf states a).bind fun a => (parentOf states b).bind fun b =>
        lockstep states fuel a b

/-- Align the depths, then climb together. The two subtractions stand for the two loops, of
    which at most one runs. -/
def lca (states : List StateIr) (a b : Nat) : Option Nat :=
  let da := depthOf states a
  let db := depthOf states b
  (climb states (da - db) a).bind fun a => (climb states (db - da) b).bind fun b =>
    lockstep states (states.length + 1) a b

def isAncestorFrom (states : List StateIr) (anc : Nat) : Nat → Option Nat → Bool
  | 0, _ => false
  | _, none => false
  | fuel + 1, some c => if c = anc then true else isAncestorFrom states anc fuel (parentOf states c)

def isStrictAncestor (states : List StateIr) (anc desc : Nat) : Bool :=
  isAncestorFrom states anc (states.length + 1) (parentOf states desc)

/-- `while cur != dst { push(cur); cur = parent(cur).expect(..) }` -/
def upWalk (states : List StateIr) (dst : Nat) : Nat → Nat → Except String (List Nat)
  | 0, _ => .error "walk out of fuel"
  | fuel + 1, cur =>
      if cur = dst then .ok []
      else match parentOf states cur with
        | none => .error "up-transition walk must reach `to`"
        | some p => do
            let rest ← upWalk states dst fuel p
            .ok (cur :: rest)

/-- `loop { if Some(cur) == stop { break } push(cur); match parent(cur) { .. None => break } }` -/
def walkBelow (states : List StateIr) (stop : Option Nat) : Nat → Nat → Except String (List Nat)
  | 0, _ => .error "walk out of fuel"
  | fuel + 1, cur =>
      if some cur = stop then .ok []
      else match parentOf states cur with
        | none => .ok [cur]
        | some p => do
            let rest ← walkBelow states stop fuel p
            .ok (cur :: rest)

/-- The exit and the enter path of one pair. -/
def computeOne (states : List StateIr) (src dst : Nat) : Except String (List Nat × List Nat) :=
  if src ≠ dst ∧ isStrictAncestor states dst src then do
    let exitPath ← upWalk states dst (states.length + 1) src
    .ok (exitPath, [])
  else if src = dst then .ok ([dst], [dst])
  else do
    let lcaId := lca states src dst
    let exitPath ← walkBelow states lcaId (states.length + 1) src
    let rev ← walkBelow states lcaId (states.length + 1) dst
    .ok (exitPath, rev.reverse)

structure TransitionPathTables where
  exitData : List Nat := []
  enterData : List Nat := []
  exitRange : List (Nat × Nat) := []
  enterRange : List (Nat × Nat) := []
deriving DecidableEq

/-- The body of the double loop. -/
def pushPair (states : List StateIr) (t : TransitionPathTables) (pair : Nat × Nat) :
    Except String TransitionPathTables := do
  let (ep, np) ← computeOne states pair.1 pair.2
  let estart ← toU16 t.exitData.length "exit path data exceeds u16 offset range"
  let exitData := t.exitData ++ ep
  let eend ← toU16 exitData.length "exit path data exceeds u16 offset range"
  let nstart ← toU16 t.enterData.length "enter path data exceeds u16 offset range"
  let enterData := t.enterData ++ np
  let nend ← toU16 enterData.length "enter path data exceeds u16 offset range"
  .ok { exitData, enterData, exitRange := t.exitRange ++ [(estart, eend)],
        enterRange := t.enterRange ++ [(nstart, nend)] }

/-- `for from in 0..n as u16 { for to in 0..n as u16 { .. } }` -/
def pairsOf (n : Nat) : List (Nat × Nat) :=
  (List.range (asU16 n)).flatMap fun src => (List.range (asU16 n)).map fun dst => (src, dst)

def computeTransitionPaths (states : List StateIr) : Except String TransitionPathTables :=
  (pairsOf states.length).foldlM (pushPair states) {}

/-- `&data[s..e]`, out of range being a panic. -/
def sliceOf {α : Type} (data : List α) (s e : Nat) : Except String (List α) :=
  if s ≤ e ∧ e ≤ data.length then .ok ((data.drop s).take (e - s))
  else .error "range out of bounds"

/-- One turn of the loop that folds the exit and the enter blob into `path_data`. -/
def foldPair (t : TransitionPathTables) (acc : List Nat × List (Nat × Nat × Nat))
    (ranges : (Nat × Nat) × (Nat × Nat)) : Except String (List Nat × List (Nat × Nat × Nat)) := do
  let ((es, ee), (ns, ne)) := ranges
  let (pathData, pathRange) := acc
  let start ← toU16 pathData.length "transition path data exceeds u16 offset range"
  let exits ← sliceOf t.exitData es ee
  let pathData := pathData ++ exits
  let mid ← toU16 pathData.length "transition path data exceeds u16 offset range"
  let enters ← sliceOf t.enterData ns ne
  let pathData := pathData ++ enters
  let stop ← toU16 pathData.length "transition path data exceeds u16 offset range"
  .ok (pathData, pathRange ++ [(start, mid, stop)])

/-- `const NAME: [T; declared] = [lits]`: rustc refuses a literal of another length. -/
def emitTable {α : Type} (declared : Nat) (lits : List α) : Except String (List α) :=
  if lits.length = declared then .ok lits else .error "mismatched array length"

/-- `__PATH_DATA` and `__PATH_RANGE`. -/
def pathTables (states : List StateIr) : Except String (List Nat × List (Nat × Nat × Nat)) := do
  let t ← computeTransitionPaths states
  let (pathData, pathRange) ← (t.exitRange.zip t.enterRange).foldlM (foldPair t) ([], [])
  let pathRange ← emitTable (states.length * states.length) pathRange
  .ok (pathData, pathRange)

/-! ## Terminate paths -/

/-- `while let Some(s) = cur { push(s); cur = parent(s) }` -/
def walkToRoot (states : List StateIr) : Nat → Option Nat → Except String (List Nat)
  | _, none => .ok []
  | 0, some _ => .error "walk out of fuel"
  | fuel + 1, some s => do
      let rest ← walkToRoot states fuel (parentOf states s)
      .ok (s :: rest)

def pushTerminate (states : List StateIr) (acc : List Nat × List (Nat × Nat)) (src : Nat) :
    Except String (List Nat × List (Nat × Nat)) := do
  let (data, range) := acc
  let start ← toU16 data.length "terminate path data exceeds u16 offset range"
  let path ← walkToRoot states (states.length + 1) (some src)
  let data := data ++ path
  let stop ← toU16 data.length "terminate path data exceeds u16 offset range"
  .ok (data, range ++ [(start, stop)])

def computeTerminatePaths (states : List StateIr) :
    Except String (List Nat × List (Nat × Nat)) :=
  (List.range (asU16 states.length)).foldlM (pushTerminate states) ([], [])

/-! ## Handlers -/

/-- The actions of one trigger in declaration order, and its transition target. -/
abbrev Group := List Nat × Option Nat

/-- `map.entry(key).or_default()`, then the update `f`. A `BTreeMap` is read only by key here,
    so the order of the entries does not show. -/
def upsert {κ : Type} [DecidableEq κ] (key : κ) (f : Group → Group) :
    List (κ × Group) → List (κ × Group)
  | [] => [(key, f ([], none))]
  | (k, g) :: rest => if k = key then (k, f g) :: rest else (k, g) :: upsert key f rest

def addKind (kind : HandlerKindIr) (g : Group) : Group :=
  match kind with
  | .action aid _ => (g.1 ++ [aid], g.2)
  | .transition _ (some tid) => (g.1, some tid)
  | .transition _ none => g

/-- `handlers.sort_by_key(|h| h.decl_index)`, which is stable. -/
def sortHandlers (hs : List HandlerIr) : List HandlerIr :=
  hs.insertionSort fun a b => a.declIndex ≤ b.declIndex

/-- `per_state[sid]` of `compute_event_dispatch`. -/
def stateHandlers (s : StateIr) : List (Nat × Group) :=
  (sortHandlers s.handlers).foldl (fun m h =>
    match h.trigger with
    | .event id _ _ => upsert id (addKind h.kind) m
    | .duration _ => m) []

/-- The first state on the walk from `cur` that handles `eventId`. -/
def bubble (states : List StateIr) (eventId : Nat) :
    Nat → Option Nat → Option (Nat × List Nat × Option Nat)
  | 0, _ => none
  | _, none => none
  | fuel + 1, some s =>
      match (states[s]?.map stateHandlers).bind (·.lookup eventId) with
      | some (actions, target) => some (s, actions, target)
      | none => bubble states eventId fuel (parentOf states s)

def computeEventDispatch (ir : Ir) : List (Nat × List Nat × Option Nat) :=
  (List.range ir.states.length).flatMap fun state =>
    (List.range (asU16 ir.symbols.eventVariants.length)).map fun eventId =>
      (bubble ir.states eventId (ir.states.length + 1) (some (asU16 state))).getD (u16Max, [], none)

/-- `(trigger_kind, trigger_id)`: 0 for an event, 1 for a timer. -/
def triggerKindId : TriggerIr → Nat × Nat
  | .event id _ _ => (0, id)
  | .duration id => (1, id)

/-- The inner arms of one state of `__handler_lookup`. -/
def stateHandlerArms (s : StateIr) : List ((Nat × Nat) × Group) :=
  (sortHandlers s.handlers).foldl
    (fun m h => upsert (triggerKindId h.trigger) (addKind h.kind) m) []

/-! ## Durings -/

/-- The durings declared from `cur` up to the root. -/
def duringChain (states : List StateIr) : Nat → Option Nat → List During
  | 0, _ => []
  | _, none => []
  | fuel + 1, some id =>
      (states[id]?.map (·.durings)).getD [] ++ duringChain states fuel (parentOf states id)

/-- The states for which `run()` gets an arm of its own, with the durings it polls there. -/
def activeDuringsPerInnermostState (ir : Ir) : List (Nat × List During) :=
  ir.states.filterMap fun s =>
    if !s.children.isEmpty && s.defaultChild.isSome then none
    else if s.parent.isNone then none
    else
      let chain := duringChain ir.states (ir.states.length + 1) (some s.id)
      if chain.isEmpty then none else some (s.id, chain)

/-! ## The emitted module -/

/-- What `generate` emits, as data. -/
structure Chart where
  chartHash : Nat
  nStates : Nat
  nEvents : Nat
  maxTimers : Nat
  /-- Whether the calls into the timer table are emitted at all. -/
  hasTimers : Bool
  parent : List (Option Nat)
  depth : List Nat
  defaultChild : List (Option Nat)
  pathData : List Nat
  pathRange : List (Nat × Nat × Nat)
  terminateData : List Nat
  terminateRange : List (Nat × Nat)
  dispatch : List (Nat × List Nat × Option Nat)
  handlerArms : List (Nat × List ((Nat × Nat) × Group))
  ownedTimersArms : List (Nat × List Nat)
  entriesArms : List (Nat × List Nat)
  exitsArms : List (Nat × List Nat)
  duringsCountArms : List (Nat × Nat)
  durationExprArms : List (Nat × Expr)
  durationRepeatArms : List (Nat × Bool)
  eventVariantArms : List (Ident × Nat)
  terminateEvent : Option Ident
  actionArms : List (Nat × ActionIr)
  publicStateArms : List (Nat × Ident)
  activeDurings : List (Nat × List During)
  eventsOmitted : Bool
deriving DecidableEq

/-- `(i as u16, f(x))` for the items of a list, in order. -/
def indexArms {α β : Type} (f : α → β) (l : List α) : List (Nat × β) :=
  l.zipIdx.map fun (x, i) => (asU16 i, f x)

def generate (ir : Ir) : Except String Chart := do
  let n := ir.states.length
  let nEvents := ir.symbols.eventVariants.length
  let durs := ir.symbols.durationTriggers
  let (pathData, pathRange) ← pathTables ir.states
  let (terminateData, terminateRange) ← computeTerminatePaths ir.states
  let terminateRange ← emitTable n terminateRange
  let dispatch ← emitTable (n * nEvents) (computeEventDispatch ir)
  .ok {
    chartHash := computeChartHash ir
    nStates := n
    nEvents
    maxTimers := max durs.length 1
    hasTimers := !durs.isEmpty
    parent := ir.states.map (·.parent)
    depth := ir.states.map (·.depth)
    defaultChild := ir.states.map (·.defaultChild)
    pathData, pathRange, terminateData, terminateRange, dispatch
    handlerArms := ir.states.map fun s => (s.id, stateHandlerArms s)
    ownedTimersArms := ir.states.map fun s => (s.id, s.ownedTimers)
    entriesArms := ir.states.map fun s => (s.id, s.entries)
    exitsArms := ir.states.map fun s => (s.id, s.exits)
    duringsCountArms := ir.states.map fun s => (s.id, asU16 s.durings.length)
    durationExprArms := indexArms (·.expr) durs
    durationRepeatArms := indexArms (·.repeats) durs
    eventVariantArms := ir.symbols.eventVariants.zipIdx.map fun (v, i) => (v.name, asU16 i)
    terminateEvent := ir.terminateEvent
    actionArms := indexArms id ir.symbols.actions
    publicStateArms := (ir.states.filter (·.parent.isSome)).map fun s => (s.id, s.name)
    activeDurings := activeDuringsPerInnermostState ir
    eventsOmitted := ir.eventsOmitted }

/-- `statechart_impl` after parsing. -/
def statechartImpl (input : StatechartInput) : Except String Chart := do
  validateParseTree input
  let ir ← buildIr input
  let ir ← resolveTransitions ir
  validate ir
  generate ir

namespace Chart

variable (c : Chart)

/-- `match k { arms, _ => dflt }` -/
def arm {κ β : Type} [BEq κ] (arms : List (κ × β)) (k : κ) (dflt : β) : β :=
  (arms.lookup k).getD dflt

/-- `__handler_lookup` -/
def handlerLookup (state kind id : Nat) : Option Group :=
  (arm c.handlerArms state []).lookup (kind, id)

/-- `__owned_timers` -/
def ownedTimers (sid : Nat) : List Nat := arm c.ownedTimersArms sid []

def entriesOf (sid : Nat) : List Nat := arm c.entriesArms sid []

def exitsOf (sid : Nat) : List Nat := arm c.exitsArms sid []

/-- `__durings_count` -/
def duringsCount (sid : Nat) : Nat := arm c.duringsCountArms sid 0

/-- `__duration_repeats` -/
def durationRepeats (tid : Nat) : Bool := arm c.durationRepeatArms tid false

/-- The durings the race arm of `run()` for `current` polls, in `select` order. -/
def raceDurings (current : Option Nat) : List During :=
  match current with
  | some sid => arm c.activeDurings sid []
  | none => []

/-- `has_any_during` of the timer-only `run()`. -/
def hasActiveDuring (current : Option Nat) : Bool :=
  match current with
  | some sid => (c.activeDurings.lookup sid).isSome
  | none => false

end Chart

/-! ## An example -/

/-- A lamp: `Toggle` switches it, and it goes off by itself. -/
def lamp : StatechartInput where
  name := "Lamp"
  body := {
    contextTy := some "LampCtx", eventTy := some "LampEvent", terminate := some "Stop"
    terminateCount := 1, defaultChild := some "Off", defaultCount := 1 }
  children := [
    .mk "Off" { handlers := [⟨.event "Toggle" none, "On", 0⟩] } [],
    .mk "On" {
      entries := ["count"]
      handlers := [⟨.event "Toggle" none, "Off", 0⟩,
        ⟨.duration ["Duration", "::", "from_nanos", "(", "50", ")"]
          "Duration::from_nanos(50)" false, "Off", 1⟩] } []]

def lampChart : Chart := (statechartImpl lamp).get (by decide +kernel)

theorem lamp_accepted : statechartImpl lamp = .ok lampChart := Except.eq_ok_get _ _

end Hsmc
