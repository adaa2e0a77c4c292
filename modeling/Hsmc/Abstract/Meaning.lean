import Mathlib.Logic.Function.Basic
import Hsmc.Link.Layout
import Hsmc.Link.Lowers
import Hsmc.Macros.Trace
import Hsmc.Runtime.Machine

/-
  What a chart means as it is written.

  A reference interpreter of the parse tree, without ids, tables, fuel or faults. The active
  states are the declarations themselves, from the innermost to the root; a timer is its
  expression and its mode, and the time it has left is filed under the name of its state;
  handlers are looked for from the innermost state outwards and run in the order in which they
  are written. What a step does is a relation (`Config.Step`), because one thing is left open:
  which of several expired timers of one state fires first.
-/

namespace Hsmc

/-- A timer as written: its expression, and whether it repeats. -/
abbrev Timer := Expr × Bool

/-! ## The declarations of a chart -/

namespace StateDecl

/-- The timers of a state, each once. -/
def timers (d : StateDecl) : List Timer := (d.body.handlers.filterMap (·.trigger.timer)).eraseDups

def onTimer (d : StateDecl) (t : Timer) : List Handler :=
  d.body.handlers.filter fun h => h.trigger.timer == some t

end StateDecl

/-- The variant a trigger waits for. -/
def Trigger.awaited : Trigger → Option Ident
  | .event variant _ => some variant
  | .duration .. => none

def StateDecl.onEvent (d : StateDecl) (v : Ident) : List Handler :=
  d.body.handlers.filter fun h => h.trigger.awaited == some v

mutual

/-- The declarations in source order, each as the walk from it to the root. -/
def StateDecl.walks (above : List StateDecl) : StateDecl → List (List StateDecl)
  | .mk name body children =>
      let walk := .mk name body children :: above
      walk :: walksAll walk children

def walksAll (above : List StateDecl) : List StateDecl → List (List StateDecl)
  | [] => []
  | d :: ds => d.walks above ++ walksAll above ds

end

namespace StatechartInput

variable (input : StatechartInput)

def walks : List (List StateDecl) := input.root.walks []

/-- The walk to the root from the state of a name. -/
def walkTo (x : Ident) : List StateDecl :=
  (input.walks.find? fun walk => walk.head?.any (·.name == x)).getD []

/-- The declared states in source order, the root first. -/
def states : List StateDecl := input.walks.filterMap List.head?

/-- The timers in the order of their first uses. -/
def allTimers : List Timer :=
  (input.states.flatMap fun d => d.body.handlers.filterMap (·.trigger.timer)).eraseDups

/-- The event variants that the chart names. -/
def variants : List Ident :=
  (input.states.flatMap fun d => d.body.handlers.filterMap (·.trigger.awaited)) ++
    input.body.terminate.toList

def timerName (t : Timer) : String := timerLabel (input.allTimers.idxOf t)

def eventName (v : Ident) : String := if v ∈ input.variants then v else "<unknown>"

end StatechartInput

variable {Ev Ctx Val : Type} {qn : Nat}

/-- The arguments that a handler passes for the event it handles. -/
def Handler.args (u : UserCode Ev Ctx Val) (h : Handler) (event : Option Ev) : List Val :=
  match h.trigger, event with
  | .event _ (some payload), some ev => payloadArgs u payload.fields payload.kind ev
  | _, _ => []

/-! ## Configurations -/

structure Config (Ev Ctx : Type) (qn : Nat) where
  ctx : Ctx
  /-- The active states, innermost first; none before the start and after the end. -/
  active : List StateDecl
  queue : Bounded Ev qn
  /-- The time left of the live timers, by the name of their state. -/
  left : Ident × Timer → Option Nat
  terminated : Bool
  overflow : Bool
  log : List Note

namespace Config

def new (ctx : Ctx) : Config Ev Ctx qn :=
  { ctx, active := [], queue := Bounded.empty, left := fun _ => none, terminated := false,
    overflow := false, log := [] }

def note (n : Note) (g : Config Ev Ctx qn) : Config Ev Ctx qn := { g with log := g.log ++ [n] }

def noteAll (ns : List Note) (g : Config Ev Ctx qn) : Config Ev Ctx qn :=
  { g with log := g.log ++ ns }

/-- The name of the innermost active state, as the trace prints it. -/
def innermost (g : Config Ev Ctx qn) : String :=
  match g.active with
  | [] => "<none>"
  | d :: _ => d.name

def defaultOf (g : Config Ev Ctx qn) : Option Ident := g.active.head?.bind (·.body.defaultChild)

/-- The time to the next expiry. -/
def next (g : Config Ev Ctx qn) : Option Nat :=
  (g.active.flatMap fun d => d.timers.filterMap fun t => g.left (d.name, t)).min?

section

variable (input : StatechartInput) (u : UserCode Ev Ctx Val)

/-! ## Actions -/

def emit (ev : Ev) (g : Config Ev Ctx qn) : Except HsmcError Unit × Config Ev Ctx qn :=
  let name := input.eventName (u.variant ev)
  match if g.overflow then none else g.queue.push ev with
  | some queue => (.ok (), { g with queue }.note (.emitQueued name))
  | none => (.error .queueFull, { g with overflow := true }.note (.emitFailed name))

def runBody : Body Ev Ctx → Config Ev Ctx qn → Config Ev Ctx qn
  | .done ctx, g => { g with ctx }
  | .emit ev next, g => runBody (next (g.emit input u ev).1) (g.emit input u ev).2

/-- State `d` calls a method. -/
def call (d : StateDecl) (kind : ActionKind) (method : Ident) (args : List Val)
    (g : Config Ev Ctx qn) : Config Ev Ctx qn :=
  (g.note (.action d.name method kind)).runBody input u (u.method method args g.ctx)

/-! ## Entering and leaving one state -/

def arm (d : StateDecl) (t : Timer) (g : Config Ev Ctx qn) : Config Ev Ctx qn :=
  { g with left := Function.update g.left (d.name, t) (some (u.duration t.1)) }.note
    (.timerArmed d.name (input.timerName t) (u.duration t.1))

def enter (d : StateDecl) (g : Config Ev Ctx qn) : Config Ev Ctx qn :=
  let g := g.note (.entering d.name)
  let g := d.body.entries.foldl (fun g a => g.call input u d .entry a []) g
  let g := d.timers.foldl (fun g t => g.arm input u d t) g
  let g := g.noteAll (d.body.durings.map fun x => .duringStarted d.name x.fnName)
  { g with active := d :: g.active }.note (.entered d.name)

/-- Stop the timers of the state of this name. -/
def disarm (name : Ident) (g : Config Ev Ctx qn) : Config Ev Ctx qn :=
  { g with left := fun k => if k.1 = name then none else g.left k }

def leave (d : StateDecl) (g : Config Ev Ctx qn) : Config Ev Ctx qn :=
  let g := g.note (.exiting d.name)
  let g := g.noteAll (d.body.durings.map fun x => .duringCancelled d.name x.fnName)
  let g := g.noteAll (d.timers.map fun t => .timerCancelled d.name (input.timerName t))
  let g := d.body.exits.foldl (fun g a => g.call input u d .exit a []) (g.disarm d.name)
  { g with active := g.active.tail }.note (.exited d.name)

end

/-! ## Transitions -/

/-- The innermost active state itself is the target. -/
def isSelf (active walk : List StateDecl) : Bool :=
  active.head?.map (·.name) == walk.head?.map (·.name)

/-- The part of a walk that another walk does not share. -/
def apart (walk other : List StateDecl) : List StateDecl :=
  walk.takeWhile fun d => d.name ∉ other.map (·.name)

/-- What a transition to the end of `walk` leaves: the states that do not contain the target,
    or just the target, when it is the innermost state. -/
def leaving (active walk : List StateDecl) : List StateDecl :=
  if isSelf active walk then active.take 1 else apart active walk

/-- What it enters, outermost first. -/
def entering (active walk : List StateDecl) : List StateDecl :=
  (if isSelf active walk then walk.take 1 else apart walk active).reverse

variable (input : StatechartInput) (u : UserCode Ev Ctx Val)

def move (walk : List StateDecl) (g : Config Ev Ctx qn) : Config Ev Ctx qn :=
  let left := (leaving g.active walk).foldl (fun g d => g.leave input u d) g
  (entering g.active walk).foldl (fun g d => g.enter input u d) left

/-- A transition to `x`, from its line in the log to the last state it enters. -/
def depart (x : Ident) (reason : String) (g : Config Ev Ctx qn) : Config Ev Ctx qn :=
  (g.note (.transitionBegin g.innermost x reason)).move input u (input.walkTo x)

/-- The default transition to `x`. -/
def hop (x : Ident) (g : Config Ev Ctx qn) : Config Ev Ctx qn :=
  (g.depart input u x "internal").note (.transitionComplete g.innermost x)

/-- The default transitions, as long as each enters a state. -/
inductive Descends : Config Ev Ctx qn → Config Ev Ctx qn → Prop where
  | stop {g : Config Ev Ctx qn} : g.defaultOf = none → Descends g g
  | up {g : Config Ev Ctx qn} {x : Ident} : g.defaultOf = some x →
      entering g.active (input.walkTo x) = [] → Descends g (g.hop input u x)
  | down {g g' : Config Ev Ctx qn} {x : Ident} : g.defaultOf = some x →
      entering g.active (input.walkTo x) ≠ [] → Descends (g.hop input u x) g' → Descends g g'

/-- The transition of a handler, with the default transitions below a newly entered target. -/
inductive Transits (x : Ident) (reason : String) : Config Ev Ctx qn → Config Ev Ctx qn → Prop where
  | up {g : Config Ev Ctx qn} : entering g.active (input.walkTo x) = [] →
      Transits x reason g ((g.depart input u x reason).note (.transitionComplete g.innermost x))
  | down {g g' : Config Ev Ctx qn} : entering g.active (input.walkTo x) ≠ [] →
      Descends input u (g.depart input u x reason) g' →
      Transits x reason g (g'.note (.transitionComplete g.innermost x))

/-- Handlers of state `d`, one after the other. A name of a state is gone to, any other name is
    called. -/
inductive Handles (d : StateDecl) (event : Option Ev) (reason : String) :
    List Handler → Config Ev Ctx qn → Config Ev Ctx qn → Prop where
  | nil {g : Config Ev Ctx qn} : Handles d event reason [] g g
  | call {g g' : Config Ev Ctx qn} {h : Handler} {hs : List Handler} :
      h.target ∉ input.stateNames →
      Handles d event reason hs (g.call input u d .handler h.target (h.args u event)) g' →
      Handles d event reason (h :: hs) g g'
  | go {g g₁ g' : Config Ev Ctx qn} {h : Handler} {hs : List Handler} :
      h.target ∈ input.stateNames → Transits input u h.target reason g g₁ →
      Handles d event reason hs g₁ g' → Handles d event reason (h :: hs) g g'

/-! ## One step -/

def tick (elapsed : Nat) (g : Config Ev Ctx qn) : Config Ev Ctx qn :=
  { g with left := fun k => (g.left k).map (· - elapsed) }

/-- Timer `t` of `d` has expired, and no state within `d` has an expired timer. -/
def Due (g : Config Ev Ctx qn) (d : StateDecl) (t : Timer) : Prop :=
  ∃ inner outer, g.active = inner ++ d :: outer ∧ g.left (d.name, t) = some 0 ∧
    ∀ x ∈ inner, ∀ t', g.left (x.name, t') ≠ some 0

def NoneDue (g : Config Ev Ctx qn) : Prop := ∀ k, g.left k ≠ some 0

/-- An expired timer is gone, or runs again when it repeats. -/
def fire (d : StateDecl) (t : Timer) (g : Config Ev Ctx qn) : Config Ev Ctx qn :=
  let g := { g with left := Function.update g.left (d.name, t) none }.note
    (.timerFired d.name (input.timerName t))
  if t.2 then g.arm input u d t else g

/-- The innermost active state that handles a variant. -/
def handler (g : Config Ev Ctx qn) (v : Ident) : Option StateDecl :=
  g.active.find? fun d => !(d.onEvent v).isEmpty

/-- Take an event from the queue. -/
def receive (ev : Ev) (queue : Bounded Ev qn) (g : Config Ev Ctx qn) : Config Ev Ctx qn :=
  { g with queue }.note (.eventReceived (input.eventName (u.variant ev)))

/-- Leave everything, then end. -/
def shutDown (g : Config Ev Ctx qn) : Config Ev Ctx qn :=
  let left := g.active.foldl (fun g d => g.leave input u d) g
  { left with terminated := true, active := [], queue := Bounded.empty }.note .terminated

/-- What a step of `elapsed` nanoseconds may do, with the time to the next expiry. -/
inductive Step (hash elapsed : Nat) : Config Ev Ctx qn → Option Nat → Config Ev Ctx qn → Prop where
  | halted {g : Config Ev Ctx qn} : g.terminated = true → Step hash elapsed g none g
  | start {g g' : Config Ev Ctx qn} : g.terminated = false → g.active = [] →
      Descends input u ((g.note (.started hash)).enter input u input.root) g' →
      Step hash elapsed g g'.next g'
  | timer {g g' : Config Ev Ctx qn} {d : StateDecl} {t : Timer} : g.terminated = false →
      (g.tick elapsed).Due d t →
      Handles input u d none s!"timer:{d.name}/{input.timerName t}" (d.onTimer t)
        ((g.tick elapsed).fire input u d t) g' →
      Step hash elapsed g g'.next g'
  | idle {g : Config Ev Ctx qn} : g.terminated = false → g.active ≠ [] → (g.tick elapsed).NoneDue →
      g.queue.popFront = none → Step hash elapsed g (g.tick elapsed).next (g.tick elapsed)
  | drop {g : Config Ev Ctx qn} {ev : Ev} {queue : Bounded Ev qn} : g.terminated = false →
      g.active ≠ [] → (g.tick elapsed).NoneDue → g.queue.popFront = some (ev, queue) →
      input.body.terminate ≠ some (u.variant ev) → g.handler (u.variant ev) = none →
      Step hash elapsed g (g.tick elapsed).next (((g.tick elapsed).receive input u ev queue).note
        (.eventDropped (input.eventName (u.variant ev))))
  | event {g g' : Config Ev Ctx qn} {ev : Ev} {queue : Bounded Ev qn} {d : StateDecl} :
      g.terminated = false → (g.tick elapsed).NoneDue → g.queue.popFront = some (ev, queue) →
      input.body.terminate ≠ some (u.variant ev) → g.handler (u.variant ev) = some d →
      Handles input u d (some ev) s!"event:{u.variant ev}" (d.onEvent (u.variant ev))
        (((g.tick elapsed).receive input u ev queue).note
          (.eventDelivered (input.eventName (u.variant ev)) d.name)) g' →
      Step hash elapsed g g'.next g'
  | terminate {g : Config Ev Ctx qn} {ev : Ev} {queue : Bounded Ev qn} : g.terminated = false →
      g.active ≠ [] → (g.tick elapsed).NoneDue → g.queue.popFront = some (ev, queue) →
      input.body.terminate = some (u.variant ev) →
      Step hash elapsed g none (shutDown input u (((g.tick elapsed).receive input u ev queue).note
        (.terminateRequested (input.eventName (u.variant ev)))))

/-! ## The other calls -/

def send (ev : Ev) (g : Config Ev Ctx qn) : Except HsmcError Unit × Config Ev Ctx qn :=
  if g.terminated then (.error .alreadyTerminated, g)
  else match g.queue.push ev with
    | some queue => (.ok (), { g with queue })
    | none => (.error .queueFull, g)

def takeOverflow (g : Config Ev Ctx qn) : Bool × Config Ev Ctx qn :=
  (g.overflow, { g with overflow := false })

end Config

end Hsmc
