import Hsmc.Runtime.Emits

/-
  Three ways to bring a list of events to a machine.

  One `dispatch` for each of them (`ByDispatch`), a `send` for each of them and then `step` until
  the machine has terminated (`BySteps`), and `run()` on a channel that holds them (`ByRun`).
  Each relation holds of a machine and the machine that the drive leaves, if no push and no emit
  was refused on the way.
-/

namespace Hsmc

variable {Ev Ctx Val : Type} {qn tn : Nat} (c : Chart) (u : UserCode Ev Ctx Val)

/-! ## `dispatch` for each event -/

/-- The flag says that one of the calls reported `QueueFull`. -/
def dispatchAll (fuel : Nat) : List Ev → Machine Ev Ctx qn tn →
    Except Fault (Bool × Machine Ev Ctx qn tn)
  | [], m => .ok (false, m)
  | ev :: evs, m => do
      let (result, m) ← dispatch c u fuel ev m
      let (full, m) ← dispatchAll fuel evs m
      .ok (decide (result = .error .queueFull) || full, m)

def ByDispatch (evs : List Ev) (m m' : Machine Ev Ctx qn tn) : Prop :=
  ∃ fuel, dispatchAll c u fuel evs m = .ok (false, m')

/-! ## `send` for all, then `step` -/

/-- One `send` for each event; `none` when one of them is refused. -/
def sendAll : List Ev → Machine Ev Ctx qn tn → Option (Machine Ev Ctx qn tn)
  | [], m => some m
  | ev :: evs, m =>
      match m.send ev with
      | (.ok (), m) => sendAll evs m
      | (.error _, _) => none

/-- `for _ in 0..n { step(ZERO); if is_terminated() { break } }` -/
def stepUntil : Nat → Machine Ev Ctx qn tn → Except Fault (Machine Ev Ctx qn tn)
  | 0, m => .ok m
  | n + 1, m => do
      let (_, m) ← step c u m 0
      if m.isTerminated then .ok m else stepUntil n m

/-- Nothing takes the overflow flag between the steps, so it tells of all of them. -/
def BySteps (evs : List Ev) (m m' : Machine Ev Ctx qn tn) : Prop :=
  ∃ m₀ n, sendAll evs m = some m₀ ∧ stepUntil c u n m₀ = .ok m' ∧ m'.terminated = true ∧
    m'.overflow = false

/-! ## `run()` on a channel that holds the events -/

/-- The events that the loop gets from its races, each with whether the queue took it. -/
def loopPushes (k : RunKind) : List (Wake Ev Ctx) → RunState Ev Ctx qn tn → List (Ev × Bool)
  | [], _ => []
  | w :: ws, s =>
      ((turnWins c k w s).map fun ev => (ev, (s.machine.queue.push ev).isSome)).toList ++
        match turnStep c k w s with
        | none => []
        | some (m, elapsed) => match step c u m elapsed with
            | .error _ => []
            | .ok (next, machine) => loopPushes k ws { machine, next, lastInstant := w.now }

def runPushes (k : RunKind) (now : Nat) (wakes : List (Wake Ev Ctx)) (m : Machine Ev Ctx qn tn) :
    List (Ev × Bool) :=
  match runStart c u now m with
  | .ok (.looping s) => loopPushes c u k wakes s
  | _ => []

/-- What can come out of a channel that holds `evs`: the events in order. The channel is found
    closed only when it is empty, so a `run()` that has not terminated got all of them. -/
structure Received (evs : List Ev) (pushes : List (Ev × Bool)) (terminated : Bool) : Prop where
  order : pushes.map (·.1) <+: evs
  pushed : ∀ p ∈ pushes, p.2 = true
  all : terminated = false → pushes.map (·.1) = evs

def ByRun (k : RunKind) (evs : List Ev) (m m' : Machine Ev Ctx qn tn) : Prop :=
  ∃ now wakes, run c u k now wakes m = .ok (.returned (.ok ()) m') ∧ m'.overflow = false ∧
    Received evs (runPushes c u k now wakes m) m'.terminated

end Hsmc
