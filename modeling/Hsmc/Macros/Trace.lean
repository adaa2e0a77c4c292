import Hsmc.Macros.Codegen
import Hsmc.Runtime.Journal

/-
  The trace: the name tables that `generate` emits (`name_helpers` of
  `hsmc-macros/src/codegen.rs`) and the lines that `__chart_observe!` logs with the feature
  `trace-log` (`hsmc/src/lib.rs`).

  Each observable atom has one arm of the macro, which pushes a `TraceEvent` and logs a line.
  `TraceNames.note` is what the line says, with the names the call sites look up for the ids;
  `Note.record` is the line.
-/

namespace Hsmc

/-! ## The name tables -/

/-- What `generate` emits for the trace, as data. -/
structure TraceNames where
  /-- `chart_name_lit` -/
  chart : Ident
  stateNameArms : List (Nat × String)
  actionNameArms : List (Nat × String)
  eventNameArms : List (Nat × String)
  timerNameArms : List (Nat × String)
  duringNameArms : List ((Nat × Nat) × String)
  eventReasonArms : List (Nat × String)
  timerReasonArms : List ((Nat × Nat) × String)
deriving DecidableEq

/-- The root is the chart. -/
def StateIr.printed (chart : Ident) (s : StateIr) : String :=
  if s.parent.isNone then chart else s.name

/-- `format!("t{}", tid)` -/
def timerLabel (tid : Nat) : String := "t" ++ toString tid

def traceNames (ir : Ir) : TraceNames where
  chart := ir.name
  stateNameArms := ir.states.map fun s => (s.id, s.printed ir.name)
  actionNameArms := indexArms (·.name) ir.symbols.actions
  eventNameArms := indexArms (·.name) ir.symbols.eventVariants
  timerNameArms := ir.symbols.durationTriggers.zipIdx.map fun (_, i) =>
    (asU16 i, timerLabel (asU16 i))
  duringNameArms := ir.states.flatMap fun s =>
    s.durings.zipIdx.map fun (d, i) => ((s.id, asU16 i), d.fnName)
  eventReasonArms := indexArms (fun v => "event:" ++ v.name) ir.symbols.eventVariants
  timerReasonArms := ir.states.flatMap fun s => s.ownedTimers.map fun tid =>
    ((s.id, tid), "timer:" ++ s.printed ir.name ++ "/" ++ timerLabel tid)

namespace TraceNames

variable (n : TraceNames)

/-- `__state_name` -/
def stateName (sid : Nat) : String := Chart.arm n.stateNameArms sid "<unknown>"

/-- `__action_name` -/
def actionName (aid : Nat) : String := Chart.arm n.actionNameArms aid "<unknown>"

/-- `__event_name` -/
def eventName (eid : Nat) : String := Chart.arm n.eventNameArms eid "<unknown>"

/-- `__timer_name` -/
def timerName (tid : Nat) : String := Chart.arm n.timerNameArms tid "<unknown>"

/-- `__during_name` -/
def duringName (sid did : Nat) : String := Chart.arm n.duringNameArms (sid, did) "<unknown>"

/-- `__event_reason_str` -/
def eventReason (eid : Nat) : String := Chart.arm n.eventReasonArms eid "event:?"

/-- `__timer_reason_str` -/
def timerReason (sid tid : Nat) : String := Chart.arm n.timerReasonArms (sid, tid) "timer:?"

/-- `__from_name` -/
def fromName : Option Nat → String
  | some id => n.stateName id
  | none => "<none>"

/-- The text that the call sites pass for a reason. -/
def reason : TransitionReason → String
  | .event event => n.eventReason event
  | .timer state timer => n.timerReason state timer
  | .internal => "internal"

end TraceNames

/-! ## The lines -/

/-- What a line says: the arm of the macro and the names it prints. -/
inductive Note where
  | started (chartHash : Nat)
  | entering (state : String)
  | entered (state : String)
  | exiting (state : String)
  | exited (state : String)
  | action (state action : String) (kind : ActionKind)
  | duringStarted (state during : String)
  | duringCancelled (state during : String)
  | transitionBegin (src dst reason : String)
  | transitionComplete (src dst : String)
  | eventReceived (name : String)
  | eventDelivered (name handler : String)
  | eventDropped (name : String)
  | emitQueued (event : String)
  | emitFailed (event : String)
  | terminateRequested (event : String)
  | timerArmed (state timer : String) (durationNs : Nat)
  | timerCancelled (state timer : String)
  | timerFired (state timer : String)
  | terminated
deriving DecidableEq, Repr

/-- The names a call of `__chart_observe!` passes beside the ids. -/
def TraceNames.note (n : TraceNames) : TraceEvent → Note
  | .started hash => .started hash
  | .enterBegan s => .entering (n.stateName s)
  | .entered s => .entered (n.stateName s)
  | .exitBegan s => .exiting (n.stateName s)
  | .exited s => .exited (n.stateName s)
  | .actionInvoked s a kind => .action (n.stateName s) (n.actionName a) kind
  | .duringStarted s d => .duringStarted (n.stateName s) (n.duringName s d)
  | .duringCancelled s d => .duringCancelled (n.stateName s) (n.duringName s d)
  | .transitionFired src dst reason =>
      .transitionBegin (n.fromName src) (n.stateName dst) (n.reason reason)
  | .transitionComplete src dst => .transitionComplete (n.fromName src) (n.stateName dst)
  | .eventReceived e => .eventReceived (n.eventName e)
  | .eventDelivered s e => .eventDelivered (n.eventName e) (n.stateName s)
  | .eventDropped e => .eventDropped (n.eventName e)
  | .emitQueued e => .emitQueued (n.eventName e)
  | .emitFailed e => .emitFailed (n.eventName e)
  | .terminateRequested e => .terminateRequested (n.eventName e)
  | .timerArmed s t ns => .timerArmed (n.stateName s) (n.timerName t) ns
  | .timerCancelled s t => .timerCancelled (n.stateName s) (n.timerName t)
  | .timerFired s t => .timerFired (n.stateName s) (n.timerName t)
  | .terminated => .terminated

inductive LogLevel where
  | trace
  | debug
  | info
  | warn
deriving DecidableEq, Repr

structure LogRecord where
  level : LogLevel
  line : String
deriving DecidableEq, Repr

/-- `{:#x}` -/
def hexLiteral (x : Nat) : String := "0x" ++ String.ofList (Nat.toDigits 16 x)

def ActionKind.text : ActionKind → String
  | .entry => "entry"
  | .exit => "exit"
  | .handler => "handler"

/-- The level and the text behind the chart's name. -/
def Note.body : Note → LogLevel × String
  | .started hash => (.info, s!"started chart_hash={hexLiteral hash}")
  | .entering s => (.info, s!"entering state={s}")
  | .entered s => (.info, s!"entered state={s}")
  | .exiting s => (.info, s!"exiting state={s}")
  | .exited s => (.info, s!"exited state={s}")
  | .action s a kind =>
      let k := kind.text
      (.trace, s!"action state={s} action={a} kind={k}")
  | .duringStarted s d => (.debug, s!"during-started state={s} during={d}")
  | .duringCancelled s d => (.debug, s!"during-cancelled state={s} during={d}")
  | .transitionBegin src dst reason =>
      (.info, s!"transition-begin from={src} to={dst} reason={reason}")
  | .transitionComplete src dst => (.info, s!"transition-complete from={src} to={dst}")
  | .eventReceived e => (.debug, s!"event-received name={e}")
  | .eventDelivered e s => (.info, s!"event-delivered name={e} handler={s}")
  | .eventDropped e => (.debug, s!"event-dropped name={e}")
  | .emitQueued e => (.debug, s!"emit-queued event={e}")
  | .emitFailed e => (.warn, s!"emit-failed event={e} reason=queue-full")
  | .terminateRequested e => (.info, s!"terminate-requested event={e}")
  | .timerArmed s t ns => (.debug, s!"timer-armed state={s} timer={t} duration_ns={ns}")
  | .timerCancelled s t => (.debug, s!"timer-cancelled state={s} timer={t}")
  | .timerFired s t => (.info, s!"timer-fired state={s} timer={t}")
  | .terminated => (.info, "terminated")

/-- One line of the log. -/
def Note.record (chart : Ident) (n : Note) : LogRecord :=
  let text := n.body.2
  { level := n.body.1, line := s!"[statechart:{chart}] {text}" }

/-- What the arms of `__chart_observe!` log while they write the journal. -/
def TraceNames.log (n : TraceNames) (journal : List TraceEvent) : List LogRecord :=
  journal.map fun e => (n.note e).record n.chart

end Hsmc
