import Hsmc.Macros.Codegen
import Hsmc.Runtime.Journal
import Hsmc.Runtime.Timers

/-
  The generated machine (the `impl` block `generate` emits): its state, the action context, and
  `step`, `current_state`, `send` and `dispatch`.

  The sync and the async version of each function are the same but for `.await`, so one
  definition stands for both. A `get_unchecked` outside its table and a loop that has not ended
  within its fuel are faults (`Fault`); a run without faults is one without undefined
  behaviour. `UserCode` is everything the chart's author supplies beside the chart.
-/

namespace Hsmc

inductive HsmcError where
  | queueFull
  | alreadyTerminated
deriving DecidableEq, Repr

inductive Fault where
  /-- `get_unchecked` with an index or a range outside the table. -/
  | outOfBounds
  /-- The loop's fuel ran out. -/
  | outOfFuel
deriving DecidableEq, Repr

/-- An action body: code on the context, cut at each call of `emit`. -/
inductive Body (Ev Ctx : Type) where
  | done (ctx : Ctx)
  | emit (event : Ev) (next : Except HsmcError Unit → Body Ev Ctx)

/-- The user's event enum, duration expressions and action methods. -/
structure UserCode (Ev Ctx Val : Type) where
  /-- The variant of an event. -/
  variant : Ev → Ident
  tupleField : Ev → Nat → Val
  structField : Ev → Ident → Val
  /-- The value of a duration expression, in nanoseconds. -/
  duration : Expr → Nat
  /-- The trait method of an action, applied to its payload arguments. -/
  method : Ident → List Val → Ctx → Body Ev Ctx

/-- The machine struct, with queue capacity `qn` and timer capacity `tn`. -/
structure Machine (Ev Ctx : Type) (qn tn : Nat) where
  ctx : Ctx
  current : Option Nat
  queue : Bounded Ev qn
  timers : TimerTable tn
  terminated : Bool
  overflow : Bool
  journal : List TraceEvent

variable {Ev Ctx Val : Type} {qn tn : Nat}

namespace Machine

def new (ctx : Ctx) : Machine Ev Ctx qn tn :=
  { ctx, current := none, queue := Bounded.empty, timers := TimerTable.new,
    terminated := false, overflow := false, journal := [] }

/-- `__chart_observe!`, with the journal as the sink. -/
def observe (e : TraceEvent) (m : Machine Ev Ctx qn tn) : Machine Ev Ctx qn tn :=
  { m with journal := m.journal ++ [e] }

def observeAll (es : List TraceEvent) (m : Machine Ev Ctx qn tn) : Machine Ev Ctx qn tn :=
  es.foldl (fun m e => m.observe e) m

/-- `EmitProxy::push` -/
def proxyPush (ev : Ev) (m : Machine Ev Ctx qn tn) :
    Except HsmcError Unit × Machine Ev Ctx qn tn :=
  if m.overflow then (.error .queueFull, m)
  else match m.queue.push ev with
    | some queue => (.ok (), { m with queue })
    | none => (.error .queueFull, { m with overflow := true })

def takeOverflow (m : Machine Ev Ctx qn tn) : Bool × Machine Ev Ctx qn tn :=
  (m.overflow, { m with overflow := false })

def isTerminated (m : Machine Ev Ctx qn tn) : Bool := m.terminated

/-- `send` -/
def send (ev : Ev) (m : Machine Ev Ctx qn tn) : Except HsmcError Unit × Machine Ev Ctx qn tn :=
  if m.terminated then (.error .alreadyTerminated, m)
  else match m.queue.push ev with
    | some queue => (.ok (), { m with queue })
    | none => (.error .queueFull, m)

end Machine

open Machine

variable (c : Chart) (u : UserCode Ev Ctx Val)

/-- `__event_to_id` -/
def eventToId (ev : Ev) : Nat := Chart.arm c.eventVariantArms (u.variant ev) u16Max

/-- `__check_terminate` -/
def checkTerminate (ev : Ev) : Bool := c.terminateEvent == some (u.variant ev)

/-- `__duration_for` -/
def durationFor (tid : Nat) : Nat := ((c.durationExprArms.lookup tid).map u.duration).getD 0

/-! ## Actions -/

/-- `ActionContext::emit` -/
def emit (ev : Ev) (m : Machine Ev Ctx qn tn) : Except HsmcError Unit × Machine Ev Ctx qn tn :=
  if m.terminated then (.error .alreadyTerminated, m)
  else
    let evId := eventToId c u ev
    let (result, m) := m.proxyPush ev
    match result with
    | .ok () => (result, m.observe (.emitQueued evId))
    | .error _ => (result, m.observe (.emitFailed evId))

def runBody : Body Ev Ctx → Machine Ev Ctx qn tn → Machine Ev Ctx qn tn
  | .done ctx, m => { m with ctx }
  | .emit ev next, m =>
      let (result, m) := emit c u ev m
      runBody (next result) m

/-- The clones of the payload fields, bound by position or by name. -/
def payloadArgs (params : List PayloadField) (kind : PayloadKind) (ev : Ev) : List Val :=
  match kind with
  | .tuple => params.zipIdx.map fun (_, i) => u.tupleField ev i
  | .struct => params.map fun f => u.structField ev f.name

def runAction (aid : Nat) (event : Option Ev) (m : Machine Ev Ctx qn tn) : Machine Ev Ctx qn tn :=
  match c.actionArms.lookup aid with
  | none => m
  | some a =>
      if a.params.isEmpty then runBody c u (u.method a.name [] m.ctx) m
      else match event with
        | none => m
        | some ev =>
            match a.boundVariants.find? fun bv => bv.name == u.variant ev with
            | none => m
            | some bv => runBody c u (u.method a.name (payloadArgs u a.params bv.kind ev) m.ctx) m

/-- The loop over a list of actions; the flag says that it returned early. -/
def runActions (sid : Nat) (kind : ActionKind) (event : Option Ev) :
    List Nat → Machine Ev Ctx qn tn → Bool × Machine Ev Ctx qn tn
  | [], m => (false, m)
  | aid :: aids, m =>
      let m := runAction c u aid event (m.observe (.actionInvoked sid aid kind))
      if m.terminated then (true, m) else runActions sid kind event aids m

/-! ## Entering and leaving one state -/

def startTimer (sid tid : Nat) (m : Machine Ev Ctx qn tn) : Machine Ev Ctx qn tn :=
  let d := durationFor c u tid
  { m with timers := m.timers.start sid tid d }.observe (.timerArmed sid tid (asU64 d))

def enterStateNoDescent (sid : Nat) (m : Machine Ev Ctx qn tn) : Machine Ev Ctx qn tn :=
  let m := m.observe (.enterBegan sid)
  let (stopped, m) := runActions c u sid .entry none (c.entriesOf sid) m
  if stopped then m
  else
    let m := (c.ownedTimers sid).foldl (fun m tid => startTimer c u sid tid m) m
    let m := { m with current := some sid }
    let m := m.observeAll ((List.range (c.duringsCount sid)).map (.duringStarted sid))
    m.observe (.entered sid)

def cancelTimers (sid : Nat) (m : Machine Ev Ctx qn tn) : Machine Ev Ctx qn tn :=
  if c.hasTimers then { m with timers := m.timers.cancelState sid } else m

def exitState (sid : Nat) (m : Machine Ev Ctx qn tn) : Machine Ev Ctx qn tn :=
  let m := m.observe (.exitBegan sid)
  let m := m.observeAll ((List.range (c.duringsCount sid)).map (.duringCancelled sid))
  let m := m.observeAll ((c.ownedTimers sid).map (.timerCancelled sid))
  let m := cancelTimers c sid m
  let (stopped, m) := runActions c u sid .exit none (c.exitsOf sid) m
  if stopped then m else m.observe (.exited sid)

/-! ## Transitions -/

/-- `*table.get_unchecked(i)` -/
def getUnchecked {α : Type} (table : List α) (i : Nat) : Except Fault α :=
  match table[i]? with
  | some x => .ok x
  | none => .error .outOfBounds

/-- `data.get_unchecked(s..e)` -/
def sliceUnchecked {α : Type} (data : List α) (s e : Nat) : Except Fault (List α) :=
  if s ≤ e ∧ e ≤ data.length then .ok ((data.drop s).take (e - s)) else .error .outOfBounds

/-- The enter loop; the flag says that it returned early. -/
def enterStates : List Nat → Machine Ev Ctx qn tn → Bool × Machine Ev Ctx qn tn
  | [], m => (false, m)
  | sid :: sids, m =>
      let m := enterStateNoDescent c u sid m
      if m.terminated then (true, m) else enterStates sids m

/-- Returns whether a state was newly entered. -/
def applyPath (src target : Nat) (m : Machine Ev Ctx qn tn) :
    Except Fault (Bool × Machine Ev Ctx qn tn) := do
  let (s, mid, e) ← getUnchecked c.pathRange (src * c.nStates + target)
  let exitPath ← sliceUnchecked c.pathData s mid
  let enterPath ← sliceUnchecked c.pathData mid e
  let m := exitPath.foldl (fun m sid => exitState c u sid m) m
  let (stopped, m) := enterStates c u enterPath m
  if stopped then .ok (!enterPath.isEmpty, m)
  else if enterPath.isEmpty then .ok (false, { m with current := some target })
  else .ok (true, m)

/-- The `while let` loop, one turn for each unit of fuel. -/
def followDefaults : Nat → Machine Ev Ctx qn tn → Except Fault (Machine Ev Ctx qn tn)
  | 0, _ => .error .outOfFuel
  | fuel + 1, m =>
      match m.current with
      | none => .ok m
      | some cur => do
          match ← getUnchecked c.defaultChild cur with
          | none => .ok m
          | some target =>
              let m := m.observe (.transitionFired m.current target .internal)
              let completeFrom := m.current
              let (entered, m) ← applyPath c u cur target m
              let m := m.observe (.transitionComplete completeFrom target)
              if m.terminated then .ok m
              else if !entered then .ok m
              else followDefaults fuel m

def transition (target : Nat) (m : Machine Ev Ctx qn tn) :
    Except Fault (Machine Ev Ctx qn tn) := do
  let src := m.current.getD target
  let (entered, m) ← applyPath c u src target m
  if m.terminated then .ok m
  else if entered then followDefaults c u c.nStates m
  else .ok m

def enterPath (root : Nat) (m : Machine Ev Ctx qn tn) : Except Fault (Machine Ev Ctx qn tn) :=
  let m := enterStateNoDescent c u root m
  if m.terminated then .ok m else followDefaults c u c.nStates m

/-! ## Handlers -/

/-- The actions, then the transition. `reason` is what the callers pass as `__reason_kind` and
    its two operands: an event, or a timer. -/
def runHandlers (sourceState : Nat) (actions : List Nat) (target : Option Nat)
    (event : Option Ev) (reason : TransitionReason) (m : Machine Ev Ctx qn tn) :
    Except Fault (Machine Ev Ctx qn tn) :=
  let (stopped, m) := runActions c u sourceState .handler event actions m
  if stopped then .ok m
  else match target with
    | none => .ok m
    | some target => do
        let m := m.observe (.transitionFired m.current target reason)
        let completeFrom := m.current
        let m ← transition c u target m
        .ok (m.observe (.transitionComplete completeFrom target))

def dispatchTrigger (state kind trig : Nat) (m : Machine Ev Ctx qn tn) :
    Except Fault (Machine Ev Ctx qn tn) :=
  match c.handlerLookup state kind trig with
  | some (actions, target) => runHandlers c u state actions target none (.timer state trig) m
  | none => .ok m

def doTerminate (m : Machine Ev Ctx qn tn) : Except Fault (Machine Ev Ctx qn tn) := do
  let m ← match m.current with
    | some cur => do
        let (s, e) ← getUnchecked c.terminateRange cur
        let path ← sliceUnchecked c.terminateData s e
        .ok (path.foldl (fun m sid => exitState c u sid m) m)
    | none => .ok m
  .ok ({ m with terminated := true, current := none, queue := Bounded.empty }.observe .terminated)

/-! ## `step` -/

/-- `timer_min_remaining_expr` -/
def minRemaining (m : Machine Ev Ctx qn tn) : Option Nat :=
  if c.hasTimers then m.timers.minRemaining else none

/-- `timer_decrement_call` -/
def decrementTimers (elapsed : Nat) (m : Machine Ev Ctx qn tn) : Machine Ev Ctx qn tn :=
  if c.hasTimers then { m with timers := m.timers.decrement elapsed } else m

/-- The test of `timer_pop_block`. -/
def popTimer (m : Machine Ev Ctx qn tn) : Option ((Nat × Nat) × TimerTable tn) :=
  if c.hasTimers then m.timers.popExpired c.depth else none

/-- The body of `timer_pop_block`, for the popped `(state, trig)`. -/
def fireTimer (state trig : Nat) (m : Machine Ev Ctx qn tn) :
    Except Fault (Machine Ev Ctx qn tn) :=
  let m := m.observe (.timerFired state trig)
  let m := if c.durationRepeats trig then startTimer c u state trig m else m
  dispatchTrigger c u state 1 trig m

/-- The event block of `step`, for a popped event that does not terminate the machine. -/
def handleEvent (ev : Ev) (m : Machine Ev Ctx qn tn) : Except Fault (Machine Ev Ctx qn tn) :=
  let evId := eventToId c u ev
  if evId = u16Max then .ok (m.observe (.eventDropped evId))
  else match m.current with
    | none => .ok (m.observe (.eventDropped evId))
    | some cur => do
        let (handlerState, actions, target) ← getUnchecked c.dispatch (cur * c.nEvents + evId)
        if handlerState = u16Max then .ok (m.observe (.eventDropped evId))
        else
          let m := m.observe (.eventDelivered handlerState evId)
          runHandlers c u handlerState actions target (some ev) (.event evId) m

/-- Advance by `elapsed` nanoseconds; the time to the next timer, if any. -/
def step (m : Machine Ev Ctx qn tn) (elapsed : Nat) :
    Except Fault (Option Nat × Machine Ev Ctx qn tn) :=
  if m.terminated then .ok (none, m)
  else if m.current.isNone then do
    let m ← enterPath c u 0 (m.observe (.started c.chartHash))
    .ok (minRemaining c m, m)
  else
    let m := decrementTimers c elapsed m
    match popTimer c m with
    | some ((state, trig), timers) => do
        let m ← fireTimer c u state trig { m with timers }
        .ok (m.timers.minRemaining, m)
    | none =>
        match m.queue.popFront with
        | none => .ok (minRemaining c m, m)
        | some (ev, queue) =>
            let m := { m with queue }.observe (.eventReceived (eventToId c u ev))
            if checkTerminate c u ev then do
              let m ← doTerminate c u (m.observe (.terminateRequested (eventToId c u ev)))
              .ok (none, m)
            else do
              let m ← handleEvent c u ev m
              .ok (minRemaining c m, m)

/-! ## `current_state` -/

/-- `__state_id_to_public`; the error is the message of the panic. -/
def stateIdToPublic (id : Nat) : Except String Ident :=
  match c.publicStateArms.lookup id with
  | some variant => .ok variant
  | none => .error s!"internal: state id {id} has no public variant"

def currentState (m : Machine Ev Ctx qn tn) : Except String Ident :=
  match m.current with
  | some id => stateIdToPublic c id
  | none => .error "machine not started; call step() first"

/-! ## `dispatch` -/

/-- `while !self.queue.is_empty() { step; take_overflow; terminated }` -/
def drain : Nat → Machine Ev Ctx qn tn →
    Except Fault (Except HsmcError Unit × Machine Ev Ctx qn tn)
  | 0, _ => .error .outOfFuel
  | fuel + 1, m =>
      if m.queue.items.isEmpty then .ok (.ok (), m)
      else do
        let (_, m) ← step c u m 0
        let (overflow, m) := m.takeOverflow
        if overflow then .ok (.error .queueFull, m)
        else if m.terminated then .ok (.ok (), m)
        else drain fuel m

/-- `dispatch`; the draining loop runs for at most `fuel` turns. -/
def dispatch (fuel : Nat) (ev : Ev) (m : Machine Ev Ctx qn tn) :
    Except Fault (Except HsmcError Unit × Machine Ev Ctx qn tn) :=
  if m.terminated then .ok (.error .alreadyTerminated, m)
  else match m.queue.push ev with
    | none => .ok (.error .queueFull, m)
    | some queue =>
        let m := { m with queue }
        if m.current.isNone then do
          let (_, m) ← step c u m 0
          let (overflow, m) := m.takeOverflow
          if overflow then .ok (.error .queueFull, m)
          else if m.terminated then .ok (.ok (), m)
          else drain c u fuel m
        else drain c u fuel m

end Hsmc
