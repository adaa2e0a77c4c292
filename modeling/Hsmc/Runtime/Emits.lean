import Hsmc.Runtime.Run

/-
  What a call emits, pops and steps through.

  The machine forgets the emits of its actions; their answers go to the action bodies only. To
  speak of them, the same code is run with action bodies that also note every emit and its
  answer in the context (`UserCode.recording`): `stepEmits` is what `step` leaves there. The
  steps that `dispatch` and the loop of `run()` make are read off their code (`dispatchSteps`,
  `runSteps`).
-/

namespace Hsmc

variable {Ev Ctx Val : Type} {qn tn : Nat}

/-! ## Emits -/

/-- A context together with the emits made so far and what each returned. -/
structure Recorded (Ev Ctx : Type) where
  ctx : Ctx
  emits : List (Ev × Except HsmcError Unit)

/-- The same body on a recorded context. -/
def Body.record : Body Ev Ctx → List (Ev × Except HsmcError Unit) → Body Ev (Recorded Ev Ctx)
  | .done ctx, log => .done { ctx, emits := log }
  | .emit ev next, log => .emit ev fun result => (next result).record (log ++ [(ev, result)])

def UserCode.recording (u : UserCode Ev Ctx Val) : UserCode Ev (Recorded Ev Ctx) Val where
  variant := u.variant
  tupleField := u.tupleField
  structField := u.structField
  duration := u.duration
  method := fun name args r => (u.method name args r.ctx).record r.emits

/-- The machine with nothing recorded yet. -/
def Machine.recorded (m : Machine Ev Ctx qn tn) : Machine Ev (Recorded Ev Ctx) qn tn :=
  { m with ctx := { ctx := m.ctx, emits := [] } }

/-- The events whose emit was answered `Ok`. -/
def accepted (es : List (Ev × Except HsmcError Unit)) : List Ev :=
  es.filterMap fun (ev, result) => match result with
    | .ok () => some ev
    | .error _ => none

/-- Some emit was answered with `QueueFull`. -/
def EmitFails (es : List (Ev × Except HsmcError Unit)) : Prop :=
  ∃ e ∈ es, e.2 = .error .queueFull

instance (es : List (Ev × Except HsmcError Unit)) : Decidable (EmitFails es) :=
  inferInstanceAs (Decidable (∃ e ∈ es, e.2 = .error .queueFull))

variable (c : Chart) (u : UserCode Ev Ctx Val)

/-- The emits that a step makes, each with its answer. -/
def stepEmits (m : Machine Ev Ctx qn tn) (elapsed : Nat) : List (Ev × Except HsmcError Unit) :=
  match step c u.recording m.recorded elapsed with
  | .ok (_, m') => m'.ctx.emits
  | .error _ => []

/-- The event that a step takes from the queue, if any. -/
def stepPops (m : Machine Ev Ctx qn tn) (elapsed : Nat) : List Ev :=
  if m.terminated || m.current.isNone then []
  else match popTimer c (decrementTimers c elapsed m) with
    | some _ => []
    | none => (m.queue.popFront.map (·.1)).toList

/-! ## Emits that are granted -/

/-- The events that a body emits and the context it leaves, when every emit is answered `Ok`. -/
def Body.granted : Body Ev Ctx → List Ev × Ctx
  | .done ctx => ([], ctx)
  | .emit ev next =>
      let (evs, ctx) := (next (.ok ())).granted
      (ev :: evs, ctx)

/-- The body that `run_action` runs when there is no event. -/
def actionBody (aid : Nat) (ctx : Ctx) : Body Ev Ctx :=
  match c.actionArms.lookup aid with
  | none => .done ctx
  | some a => if a.params.isEmpty then u.method a.name [] ctx else .done ctx

/-- The same for actions that run one after the other. -/
def grantedActions : List Nat → Ctx → List Ev × Ctx
  | [], ctx => ([], ctx)
  | aid :: aids, ctx =>
      let (evs, ctx) := (actionBody c u aid ctx).granted
      let (evs', ctx) := grantedActions aids ctx
      (evs ++ evs', ctx)

/-- What the exit actions of these states emit, when every emit is answered `Ok`. -/
def exitEmits (path : List Nat) (ctx : Ctx) : List Ev :=
  (grantedActions c u (path.flatMap c.exitsOf) ctx).1

/-! ## The steps of a call -/

/-- The machines on which `drain` calls `step`. -/
def drainSteps : Nat → Machine Ev Ctx qn tn → List (Machine Ev Ctx qn tn)
  | 0, _ => []
  | fuel + 1, m =>
      if m.queue.items.isEmpty then []
      else m :: match step c u m 0 with
        | .error _ => []
        | .ok (_, m₁) =>
            if m₁.overflow || m₁.terminated then [] else drainSteps fuel m₁.takeOverflow.2

/-- The machines on which `dispatch` calls `step`. -/
def dispatchSteps (fuel : Nat) (ev : Ev) (m : Machine Ev Ctx qn tn) :
    List (Machine Ev Ctx qn tn) :=
  if m.terminated then []
  else match m.queue.push ev with
    | none => []
    | some queue =>
        let m := { m with queue }
        if m.current.isNone then
          m :: match step c u m 0 with
            | .error _ => []
            | .ok (_, m₁) =>
                if m₁.overflow || m₁.terminated then []
                else drainSteps c u fuel m₁.takeOverflow.2
        else drainSteps c u fuel m

/-- The machine on which a turn of the loop of `run()` calls `step`, with the time it passes;
    `none` when the turn returns. -/
def turnStep (k : RunKind) (w : Wake Ev Ctx) (s : RunState Ev Ctx qn tn) :
    Option (Machine Ev Ctx qn tn × Nat) :=
  let elapsed := k.elapsed (w.now - s.lastInstant)
  if s.machine.terminated || s.machine.overflow then none
  else
    let m := s.machine.takeOverflow.2
    if !m.queue.items.isEmpty then some (m, elapsed)
    else if !k.channel && s.next.isNone && !c.hasActiveDuring m.current then none
    else
      let m := pollDurings c w.durings m
      match w.race with
      | .event ev => some ({ m with queue := (m.queue.push ev).getD m.queue }, elapsed)
      | .channelClosed =>
          if k.channel && k.closes && s.next.isNone then none else some (m, elapsed)
      | .timer => some (m, elapsed)

/-- Whether a turn comes to the race. -/
def turnRaces (k : RunKind) (s : RunState Ev Ctx qn tn) : Bool :=
  !s.machine.terminated && !s.machine.overflow && s.machine.queue.items.isEmpty &&
    (k.channel || s.next.isSome || c.hasActiveDuring s.machine.current)

/-- The event that a turn gets from its race. -/
def turnWins (k : RunKind) (w : Wake Ev Ctx) (s : RunState Ev Ctx qn tn) : Option Ev :=
  if turnRaces c k s then match w.race with
    | .event ev => some ev
    | _ => none
  else none

/-- The calls of `step` in the loop, one turn for each wake. -/
def loopSteps (k : RunKind) : List (Wake Ev Ctx) → RunState Ev Ctx qn tn →
    List (Machine Ev Ctx qn tn × Nat)
  | [], _ => []
  | w :: ws, s =>
      match turnStep c k w s with
      | none => []
      | some (m, elapsed) => (m, elapsed) :: match step c u m elapsed with
          | .error _ => []
          | .ok (next, machine) => loopSteps k ws { machine, next, lastInstant := w.now }

/-- The calls of `step` in the loop of a `run()`, after the one that comes before the loop. -/
def runSteps (k : RunKind) (now : Nat) (wakes : List (Wake Ev Ctx)) (m : Machine Ev Ctx qn tn) :
    List (Machine Ev Ctx qn tn × Nat) :=
  match runStart c u now m with
  | .ok (.looping s) => loopSteps c u k wakes s
  | _ => []

/-! ## An example that emits -/

/-- A relay: `greet` runs when it comes to rest, `part` when it leaves. -/
def relay : StatechartInput where
  name := "Relay"
  body := {
    contextTy := some "RelayCtx", eventTy := some "RelayEvent", terminate := some "Stop"
    terminateCount := 1, defaultChild := some "Idle", defaultCount := 1 }
  children := [
    .mk "Idle" {
      entries := ["greet"], exits := ["part"], handlers := [⟨.event "Ping" none, "Busy", 0⟩] } [],
    .mk "Busy" { handlers := [⟨.event "Ping" none, "Idle", 0⟩] } []]

def relayChart : Chart := (statechartImpl relay).get (by decide +kernel)

theorem relay_accepted : statechartImpl relay = .ok relayChart := Except.eq_ok_get _ _

/-- `n` emits of `Ping`. -/
def pings : Nat → Body Ident Unit
  | 0 => .done ()
  | n + 1 => .emit "Ping" fun _ => pings n

/-- Greeting emits `greets` times, parting `parts` times. -/
def relayCode (greets parts : Nat) : UserCode Ident Unit Unit where
  variant := id
  tupleField := fun _ _ => ()
  structField := fun _ _ => ()
  duration := fun _ => 50
  method := fun name _ _ => pings (if name == "greet" then greets else parts)

end Hsmc
