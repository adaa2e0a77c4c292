import Hsmc.Abstract.Meaning
import Hsmc.Link.Step

/-
  Which names stand for which ids.

  A `Glossary` of a chart says, table by table, that the generated chart holds what the
  declarations say: state `s` is the declaration `decl s`, timer `t` has the id `tid t`, and the
  groups of handlers are the handlers as written. Nothing in it speaks of the machine, and
  nothing that uses it needs to know how the tables were made.
-/

namespace Hsmc

variable {Ev Ctx Val : Type}

/-- Running action `aid` is one call, of method `name` with these arguments. -/
def RunsAs (c : Chart) (u : UserCode Ev Ctx Val) (aid : Nat) (event : Option Ev) (name : Ident)
    (args : List Val) : Prop :=
  ∀ (qn tn : Nat) (m : Machine Ev Ctx qn tn),
    runAction c u aid event m = runBody c u (u.method name args m.ctx) m

section

variable (input : StatechartInput) (c : Chart) (n : TraceNames) (u : UserCode Ev Ctx Val)

/-- Handlers as written, and the group they were filed as. -/
inductive GroupOf (decl : Nat → StateDecl) (event : Option Ev) : List Handler → Group → Prop where
  | nil : GroupOf decl event [] ([], none)
  | call {h : Handler} {hs : List Handler} {aid : Nat} {aids : List Nat} {target : Option Nat} :
      h.target ∉ input.stateNames → n.actionName aid = h.target →
      RunsAs c u aid event h.target (h.args u event) → GroupOf decl event hs (aids, target) →
      GroupOf decl event (h :: hs) (aid :: aids, target)
  | go {h : Handler} {t : Nat} : h.target ∈ input.stateNames → t < c.nStates →
      (decl t).name = h.target → GroupOf decl event [h] ([], some t)

/-- An action without arguments, by its name and its id. -/
def NamesAction (a : Ident) (aid : Nat) : Prop :=
  n.actionName aid = a ∧ ∀ event, RunsAs c u aid event a []

/-- A timer of state `s`, by its expression and mode and by its id. -/
structure NamesTimer (s : Nat) (d : StateDecl) (t : Timer) (tid : Nat) : Prop where
  duration : durationFor c u tid = u.duration t.1
  fits : u.duration t.1 < 2 ^ 64
  repeats : c.durationRepeats tid = t.2
  name : n.timerName tid = input.timerName t
  reason : n.timerReason s tid = s!"timer:{d.name}/{input.timerName t}"

/-- What the tables say of each id, in the words of the chart. -/
structure Glossary where
  sound : c.Sound
  decl : Nat → StateDecl
  tid : Timer → Nat
  root : decl 0 = input.root
  walkTo : ∀ {s}, s < c.nStates → input.walkTo (decl s).name = (sound.tree.up s).map decl
  decl_inj : ∀ {s s'}, s < c.nStates → s' < c.nStates → (decl s).name = (decl s').name → s = s'
  stateName : ∀ {s}, s < c.nStates → n.stateName s = (decl s).name
  entries : ∀ {s}, s < c.nStates →
    List.Forall₂ (NamesAction c n u) (decl s).body.entries (c.entriesOf s)
  exits : ∀ {s}, s < c.nStates →
    List.Forall₂ (NamesAction c n u) (decl s).body.exits (c.exitsOf s)
  durings : ∀ {s}, s < c.nStates →
    (List.range (c.duringsCount s)).map (n.duringName s) = (decl s).body.durings.map (·.fnName)
  default_none : ∀ {s}, s < c.nStates → (decl s).body.defaultChild = none → c.defaultOf s = none
  default_some : ∀ {s x}, s < c.nStates → (decl s).body.defaultChild = some x →
    ∃ t, c.defaultOf s = some t ∧ (decl t).name = x
  ownedTimers : ∀ {s}, s < c.nStates → c.ownedTimers s = (decl s).timers.map tid
  tid_inj : ∀ {s t t'}, s < c.nStates → t ∈ (decl s).timers → t' ∈ input.allTimers →
    tid t = tid t' → t = t'
  timer : ∀ {s t}, s < c.nStates → t ∈ (decl s).timers →
    t ∈ input.allTimers ∧ NamesTimer input c n u s (decl s) t (tid t)
  onTimer : ∀ {s t}, s < c.nStates → t ∈ (decl s).timers → ∃ g,
    c.handlerLookup s 1 (tid t) = some g ∧ GroupOf input c n u decl none ((decl s).onTimer t) g
  onEvent_none : ∀ {s} {ev : Ev}, s < c.nStates → (decl s).onEvent (u.variant ev) = [] →
    c.handlerLookup s 0 (eventToId c u ev) = none
  onEvent_some : ∀ {s} {ev : Ev}, s < c.nStates → (decl s).onEvent (u.variant ev) ≠ [] → ∃ g,
    c.handlerLookup s 0 (eventToId c u ev) = some g ∧
      GroupOf input c n u decl (some ev) ((decl s).onEvent (u.variant ev)) g ∧
      n.eventReason (eventToId c u ev) = s!"event:{u.variant ev}"
  eventName : ∀ ev : Ev, n.eventName (eventToId c u ev) = input.eventName (u.variant ev)
  terminate : c.terminateEvent = input.body.terminate
  room : ∀ {s}, s < c.nStates → ((sound.tree.up s).flatMap c.ownedTimers).length ≤ c.maxTimers

end

end Hsmc
