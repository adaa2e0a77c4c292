import Hsmc.Runtime.Machine

/-
  The generated `run()` loops, and the machines that calls can reach.

  The four loops share one body with the differences as parameters (`RunKind`). A turn of the
  loop takes what the race resolved to and the clock reading after it from a `Wake`, so a
  schedule is a list of wakes. The clock counts nanoseconds. `Reachable` closes the fresh
  machine under the public calls.
-/

namespace Hsmc

/-- What tells the generated loops apart. -/
structure RunKind where
  /-- The event channel is generated only when the chart declares `events:`. -/
  channel : Bool
  /-- `now.duration_since(last_instant)`, as it is passed to `step`. -/
  elapsed : Nat → Nat
  /-- Whether `recv` can report a closed channel. -/
  closes : Bool

/-- `__HsmcRace` -/
inductive Race (Ev : Type) where
  | event (ev : Ev)
  | channelClosed
  | timer

/-- One pass of the loop: what the durings did to the context and how the race ended, when
    there is a race, and the clock reading before the step. -/
structure Wake (Ev Ctx : Type) where
  durings : Ctx → Ctx
  race : Race Ev
  now : Nat

structure RunState (Ev Ctx : Type) (qn tn : Nat) where
  machine : Machine Ev Ctx qn tn
  next : Option Nat
  lastInstant : Nat

/-- A `run()` that is still in its loop, or has returned. -/
inductive Running (Ev Ctx : Type) (qn tn : Nat) where
  | looping (s : RunState Ev Ctx qn tn)
  | returned (result : Except HsmcError Unit) (m : Machine Ev Ctx qn tn)

variable {Ev Ctx Val : Type} {qn tn : Nat} (c : Chart) (u : UserCode Ev Ctx Val)

/-- Everything before the loop; `now` is the first clock reading. -/
def runStart (now : Nat) (m : Machine Ev Ctx qn tn) : Except Fault (Running Ev Ctx qn tn) :=
  if m.terminated then .ok (.returned (.error .alreadyTerminated) m)
  else do
    let (next, m) ← step c u m 0
    let (overflow, m) := m.takeOverflow
    if overflow then .ok (.returned (.error .queueFull) m)
    else .ok (.looping { machine := m, next, lastInstant := now })

/-- `elapsed = now - last_instant; last_instant = now; next = self.step(elapsed)` -/
def runStep (k : RunKind) (now : Nat) (s : RunState Ev Ctx qn tn) :
    Except Fault (Running Ev Ctx qn tn) := do
  let (next, machine) ← step c u s.machine (k.elapsed (now - s.lastInstant))
  .ok (.looping { machine, next, lastInstant := now })

/-- What the durings of the active path do to the context while they are polled. -/
def pollDurings (durings : Ctx → Ctx) (m : Machine Ev Ctx qn tn) : Machine Ev Ctx qn tn :=
  if (c.raceDurings m.current).isEmpty then m else { m with ctx := durings m.ctx }

/-- One pass of `while !self.terminated { .. }`. -/
def runTurn (k : RunKind) (w : Wake Ev Ctx) (s : RunState Ev Ctx qn tn) :
    Except Fault (Running Ev Ctx qn tn) :=
  if s.machine.terminated then .ok (.returned (.ok ()) s.machine)
  else
    let (overflow, m) := s.machine.takeOverflow
    if overflow then .ok (.returned (.error .queueFull) m)
    else if !m.queue.items.isEmpty then runStep c u k w.now { s with machine := m }
    else if !k.channel && s.next.isNone && !c.hasActiveDuring m.current then
      .ok (.returned (.ok ()) m)
    else
      let m := pollDurings c w.durings m
      match w.race with
      | .event ev =>
          -- the result of this `push_back` is discarded
          let queue := (m.queue.push ev).getD m.queue
          runStep c u k w.now { s with machine := { m with queue } }
      | .channelClosed =>
          if k.channel && k.closes && s.next.isNone then .ok (.returned (.ok ()) m)
          else runStep c u k w.now { s with machine := m }
      | .timer => runStep c u k w.now { s with machine := m }

/-- The loop, one turn for each wake. -/
def runLoop (k : RunKind) : List (Wake Ev Ctx) → Running Ev Ctx qn tn →
    Except Fault (Running Ev Ctx qn tn)
  | _, .returned result m => .ok (.returned result m)
  | [], .looping s => .ok (.looping s)
  | w :: ws, .looping s => do
      let r ← runTurn c u k w s
      runLoop k ws r

def run (k : RunKind) (now : Nat) (wakes : List (Wake Ev Ctx)) (m : Machine Ev Ctx qn tn) :
    Except Fault (Running Ev Ctx qn tn) := do
  let r ← runStart c u now m
  runLoop c u k wakes r

/-! ## What a call led to -/

/-- The loop that a call leads to, if it does. -/
def loopState (r : Except Fault (Running Ev Ctx qn tn)) : Option (RunState Ev Ctx qn tn) :=
  match r with
  | .ok (.looping s) => some s
  | _ => none

theorem eq_looping {r : Except Fault (Running Ev Ctx qn tn)} (h : (loopState r).isSome = true) :
    r = .ok (.looping ((loopState r).get h)) := by
  unfold loopState at h ⊢
  split at h
  · rfl
  · cases h

/-- What a `run()` returned. -/
def returnedWith : Except Fault (Running Ev Ctx qn tn) → Option (Except HsmcError Unit)
  | .ok (.returned result _) => some result
  | _ => none

theorem eq_returned_of {r : Except Fault (Running Ev Ctx qn tn)} {result : Except HsmcError Unit}
    (h : returnedWith r = some result) : ∃ m', r = .ok (.returned result m') := by
  match r, h with
  | .ok (.returned _ m'), h =>
      cases h
      exact ⟨m', rfl⟩

/-! ## The four loops -/

def tokio (channel : Bool) : RunKind := { channel, elapsed := id, closes := true }

/-- `as_micros()` rounds down, and `from_micros` takes it back to a `Duration`. -/
def embassy (channel : Bool) : RunKind :=
  { channel, elapsed := fun d => d / 1000 * 1000, closes := false }

/-- `tokio_run_with_ch_body` -/
def tokioRunWithCh (now : Nat) (wakes : List (Wake Ev Ctx)) (m : Machine Ev Ctx qn tn) :=
  run c u (tokio true) now wakes m

/-- The timer-only tokio `run()`. -/
def tokioRunTimerOnly (now : Nat) (wakes : List (Wake Ev Ctx)) (m : Machine Ev Ctx qn tn) :=
  run c u (tokio false) now wakes m

/-- `embassy_run_with_ch_body` -/
def embassyRunWithCh (now : Nat) (wakes : List (Wake Ev Ctx)) (m : Machine Ev Ctx qn tn) :=
  run c u (embassy true) now wakes m

/-- The timer-only embassy `run()`. -/
def embassyRunTimerOnly (now : Nat) (wakes : List (Wake Ev Ctx)) (m : Machine Ev Ctx qn tn) :=
  run c u (embassy false) now wakes m

/-! ## Reachable machines -/

/-- The machine of a chart, with the timer capacity the macro computes. -/
abbrev ChartMachine (Ev Ctx : Type) (qn : Nat) := Machine Ev Ctx qn c.maxTimers

/-- The machines that some sequence of public calls on a fresh machine leads to. A call of
    `run()` is a sequence of these. -/
inductive Reachable : ChartMachine c Ev Ctx qn → Prop where
  | new (ctx : Ctx) : Reachable (Machine.new ctx)
  | step {m m' : ChartMachine c Ev Ctx qn} {elapsed : Nat} {next : Option Nat} :
      Reachable m → step c u m elapsed = .ok (next, m') → Reachable m'
  | send {m : ChartMachine c Ev Ctx qn} (ev : Ev) : Reachable m → Reachable (m.send ev).2
  | dispatch {m m' : ChartMachine c Ev Ctx qn} {fuel : Nat} {ev : Ev}
      {result : Except HsmcError Unit} :
      Reachable m → dispatch c u fuel ev m = .ok (result, m') → Reachable m'
  | takeOverflow {m : ChartMachine c Ev Ctx qn} : Reachable m → Reachable m.takeOverflow.2
  | contextMut {m : ChartMachine c Ev Ctx qn} (f : Ctx → Ctx) :
      Reachable m → Reachable { m with ctx := f m.ctx }

/-- Where a `run()` called on a reachable machine can stand at the top of its loop. -/
inductive Looping (k : RunKind) : RunState Ev Ctx qn c.maxTimers → Prop where
  | start {m : ChartMachine c Ev Ctx qn} {now : Nat} {s : RunState Ev Ctx qn c.maxTimers} :
      Reachable c u m → runStart c u now m = .ok (.looping s) → Looping k s
  | turn {s s' : RunState Ev Ctx qn c.maxTimers} {w : Wake Ev Ctx} :
      Looping k s → runTurn c u k w s = .ok (.looping s') → Looping k s'

/-! ## The example, switched on -/

/-- Events without payload; the action counts. -/
def countCode : UserCode Ident Nat Unit where
  variant := id
  tupleField := fun _ _ => ()
  structField := fun _ _ => ()
  duration := fun _ => 50
  method := fun _ _ n => .done (n + 1)

theorem lampOn_isOk : (dispatch lampChart countCode 4 "Toggle"
    (.new 0 : ChartMachine lampChart Ident Nat 4)).isOk = true := by
  decide +kernel

def lampOn : ChartMachine lampChart Ident Nat 4 := (Except.get _ lampOn_isOk).2

theorem lampOn_reachable : Reachable lampChart countCode lampOn :=
  .dispatch (.new 0) (Except.eq_ok_get _ lampOn_isOk)

example : lampOn.current = some 2 ∧ lampOn.timers.keys = [(2, 0)] ∧ lampOn.ctx = 1 := by
  decide +kernel

end Hsmc
