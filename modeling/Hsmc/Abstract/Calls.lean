import Hsmc.Abstract.Meaning
import Hsmc.Runtime.Scripts

/-
  The public calls on the reference interpreter.

  `dispatch` and `run()` are made of steps (`Config.Step`), so what a call answers and leads to
  is a relation too (`Config.Performs`). A script of calls is performed one after the other
  (`Config.PerformsAll`).
-/

namespace Hsmc

namespace Config

variable {Ev Ctx Val : Type} {qn : Nat}

/-! ## `run()` before a step -/

/-- The durings of the active states, if a race polls them: it polls none on the root, nor on a
    composite with a default. -/
def polled (g : Config Ev Ctx qn) : List During :=
  match g.active with
  | [] | [_] => []
  | d :: above =>
      if !d.children.isEmpty && d.body.defaultChild.isSome then []
      else (d :: above).flatMap (·.body.durings)

def poll (durings : Ctx → Ctx) (g : Config Ev Ctx qn) : Config Ev Ctx qn :=
  if g.polled.isEmpty then g else { g with ctx := durings g.ctx }

/-- A turn of the loop up to its step: what it returns, or the configuration that steps. -/
def turn (k : RunKind) (w : Wake Ev Ctx) (next : Option Nat) (g : Config Ev Ctx qn) :
    Except HsmcError Unit × Config Ev Ctx qn ⊕ Config Ev Ctx qn :=
  if g.terminated then .inl (.ok (), g)
  else if g.overflow then .inl (.error .queueFull, g.takeOverflow.2)
  else if !g.queue.items.isEmpty then .inr g
  else if !k.channel && next.isNone && g.polled.isEmpty then .inl (.ok (), g)
  else
    let g := g.poll w.durings
    match w.race with
    | .event ev => .inr { g with queue := (g.queue.push ev).getD g.queue }
    | .channelClosed =>
        if k.channel && k.closes && next.isNone then .inl (.ok (), g) else .inr g
    | .timer => .inr g

variable (input : StatechartInput) (u : UserCode Ev Ctx Val) (hash : Nat)

/-! ## `dispatch` -/

/-- Steps of no duration, until the queue is empty, an emit was refused, or the chart ended. -/
inductive Drains : Config Ev Ctx qn → Except HsmcError Unit → Config Ev Ctx qn → Prop where
  | empty {g : Config Ev Ctx qn} : g.queue.items = [] → Drains g (.ok ()) g
  | overflow {g g₁ : Config Ev Ctx qn} {next : Option Nat} : g.queue.items ≠ [] →
      Step input u hash 0 g next g₁ → g₁.overflow = true →
      Drains g (.error .queueFull) g₁.takeOverflow.2
  | terminated {g g₁ : Config Ev Ctx qn} {next : Option Nat} : g.queue.items ≠ [] →
      Step input u hash 0 g next g₁ → g₁.overflow = false → g₁.terminated = true →
      Drains g (.ok ()) g₁.takeOverflow.2
  | turn {g g₁ g' : Config Ev Ctx qn} {next : Option Nat} {result : Except HsmcError Unit} :
      g.queue.items ≠ [] → Step input u hash 0 g next g₁ → g₁.overflow = false →
      g₁.terminated = false → Drains g₁.takeOverflow.2 result g' → Drains g result g'

/-- A `dispatch` sends its event and drains the queue, if the event was taken. -/
inductive Dispatches (ev : Ev) : Config Ev Ctx qn → Except HsmcError Unit → Config Ev Ctx qn →
    Prop where
  | refused {g : Config Ev Ctx qn} : (g.send ev).1 ≠ .ok () → Dispatches ev g (g.send ev).1 g
  | drains {g g' : Config Ev Ctx qn} {result : Except HsmcError Unit} : (g.send ev).1 = .ok () →
      Drains input u hash (g.send ev).2 result g' → Dispatches ev g result g'

/-! ## `run()` -/

/-- The loop, with the answer of the last step and the reading after it. -/
inductive Loops (k : RunKind) : List (Wake Ev Ctx) → Option Nat → Nat → Config Ev Ctx qn →
    Answer → Config Ev Ctx qn → Prop where
  | pending {next : Option Nat} {last : Nat} {g : Config Ev Ctx qn} :
      Loops k [] next last g .pending g
  | returns {w : Wake Ev Ctx} {ws : List (Wake Ev Ctx)} {next : Option Nat} {last : Nat}
      {g g' : Config Ev Ctx qn} {result : Except HsmcError Unit} :
      g.turn k w next = .inl (result, g') → Loops k (w :: ws) next last g (.result result) g'
  | step {w : Wake Ev Ctx} {ws : List (Wake Ev Ctx)} {next next' : Option Nat} {last : Nat}
      {g g₁ g₂ g' : Config Ev Ctx qn} {answer : Answer} : g.turn k w next = .inr g₁ →
      Step input u hash (k.elapsed (w.now - last)) g₁ next' g₂ →
      Loops k ws next' w.now g₂ answer g' → Loops k (w :: ws) next last g answer g'

inductive Runs (k : RunKind) (now : Nat) (wakes : List (Wake Ev Ctx)) : Config Ev Ctx qn →
    Answer → Config Ev Ctx qn → Prop where
  | ended {g : Config Ev Ctx qn} : g.terminated = true →
      Runs k now wakes g (.result (.error .alreadyTerminated)) g
  | overflow {g g₁ : Config Ev Ctx qn} {next : Option Nat} : g.terminated = false →
      Step input u hash 0 g next g₁ → g₁.overflow = true →
      Runs k now wakes g (.result (.error .queueFull)) g₁.takeOverflow.2
  | loops {g g₁ g' : Config Ev Ctx qn} {next : Option Nat} {answer : Answer} :
      g.terminated = false → Step input u hash 0 g next g₁ → g₁.overflow = false →
      Loops input u hash k wakes next now g₁ answer g' → Runs k now wakes g answer g'

/-! ## Scripts -/

/-- What a call may answer, and where it leads. -/
inductive Performs : Call Ev Ctx → Config Ev Ctx qn → Answer → Config Ev Ctx qn → Prop where
  | step {elapsed : Nat} {g g' : Config Ev Ctx qn} {next : Option Nat} :
      Step input u hash elapsed g next g' → Performs (.step elapsed) g (.next next) g'
  | send {ev : Ev} {g : Config Ev Ctx qn} :
      Performs (.send ev) g (.result (g.send ev).1) (g.send ev).2
  | dispatch {fuel : Nat} {ev : Ev} {g g' : Config Ev Ctx qn} {result : Except HsmcError Unit} :
      Dispatches input u hash ev g result g' → Performs (.dispatch fuel ev) g (.result result) g'
  | run {k : RunKind} {now : Nat} {wakes : List (Wake Ev Ctx)} {g g' : Config Ev Ctx qn}
      {answer : Answer} : Runs input u hash k now wakes g answer g' →
      Performs (.run k now wakes) g answer g'
  | takeOverflow {g : Config Ev Ctx qn} :
      Performs .takeOverflow g (.overflow g.takeOverflow.1) g.takeOverflow.2
  | contextMut {f : Ctx → Ctx} {g : Config Ev Ctx qn} :
      Performs (.contextMut f) g .done { g with ctx := f g.ctx }

inductive PerformsAll : List (Call Ev Ctx) → Config Ev Ctx qn → List Answer → Config Ev Ctx qn →
    Prop where
  | nil {g : Config Ev Ctx qn} : PerformsAll [] g [] g
  | cons {call : Call Ev Ctx} {calls : List (Call Ev Ctx)} {g g₁ g' : Config Ev Ctx qn}
      {answer : Answer} {answers : List Answer} : Performs input u hash call g answer g₁ →
      PerformsAll calls g₁ answers g' → PerformsAll (call :: calls) g (answer :: answers) g'

end Config

end Hsmc
