import Hsmc.Runtime.Run

/-
  Scripts: public calls one after the other, with what they answer.

  A `run()` that is still in its loop when its wakes are over has not returned; the machine is
  then the one it would go on with (`Answer.pending`).
-/

namespace Hsmc

/-- A public call with its arguments. `fuel` bounds the draining loop of `dispatch`. -/
inductive Call (Ev Ctx : Type) where
  | step (elapsed : Nat)
  | send (ev : Ev)
  | dispatch (fuel : Nat) (ev : Ev)
  | run (k : RunKind) (now : Nat) (wakes : List (Wake Ev Ctx))
  | takeOverflow
  | contextMut (f : Ctx → Ctx)

inductive Answer where
  | next (d : Option Nat)
  | result (r : Except HsmcError Unit)
  | pending
  | overflow (b : Bool)
  | done
deriving DecidableEq

variable {Ev Ctx Val : Type} {qn tn : Nat} (c : Chart) (u : UserCode Ev Ctx Val)

def perform (call : Call Ev Ctx) (m : Machine Ev Ctx qn tn) :
    Except Fault (Answer × Machine Ev Ctx qn tn) :=
  match call with
  | .step elapsed => do
      let (next, m) ← step c u m elapsed
      .ok (.next next, m)
  | .send ev => .ok (.result (m.send ev).1, (m.send ev).2)
  | .dispatch fuel ev => do
      let (result, m) ← dispatch c u fuel ev m
      .ok (.result result, m)
  | .run k now wakes => do
      match ← run c u k now wakes m with
      | .returned result m => .ok (.result result, m)
      | .looping s => .ok (.pending, s.machine)
  | .takeOverflow => .ok (.overflow m.takeOverflow.1, m.takeOverflow.2)
  | .contextMut f => .ok (.done, { m with ctx := f m.ctx })

def performAll : List (Call Ev Ctx) → Machine Ev Ctx qn tn →
    Except Fault (List Answer × Machine Ev Ctx qn tn)
  | [], m => .ok ([], m)
  | call :: calls, m => do
      let (answer, m) ← perform c u call m
      let (answers, m) ← performAll calls m
      .ok (answer :: answers, m)

/-! ## The journal sink -/

/-- `take_journal` -/
def Machine.takeJournal (m : Machine Ev Ctx qn tn) : List TraceEvent × Machine Ev Ctx qn tn :=
  (m.journal, { m with journal := [] })

/-- `clear_journal` -/
def Machine.clearJournal (m : Machine Ev Ctx qn tn) : Machine Ev Ctx qn tn :=
  { m with journal := [] }

/-- A call, or one on the journal. -/
inductive Entry (Ev Ctx : Type) where
  | call (call : Call Ev Ctx)
  | takeJournal
  | clearJournal

/-- The calls among the entries. -/
def callsOf : List (Entry Ev Ctx) → List (Call Ev Ctx)
  | [] => []
  | .call call :: entries => call :: callsOf entries
  | _ :: entries => callsOf entries

/-- The answers, what was taken from the journal or dropped, and the machine. -/
def performEntries : List (Entry Ev Ctx) → Machine Ev Ctx qn tn →
    Except Fault (List Answer × List TraceEvent × Machine Ev Ctx qn tn)
  | [], m => .ok ([], [], m)
  | .call call :: entries, m => do
      let (answer, m) ← perform c u call m
      let (answers, removed, m) ← performEntries entries m
      .ok (answer :: answers, removed, m)
  | .takeJournal :: entries, m => do
      let (answers, removed, m') ← performEntries entries m.takeJournal.2
      .ok (answers, m.takeJournal.1 ++ removed, m')
  | .clearJournal :: entries, m => do
      let (answers, removed, m') ← performEntries entries m.clearJournal
      .ok (answers, m.journal ++ removed, m')

end Hsmc
