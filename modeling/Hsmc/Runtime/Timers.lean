import Hsmc.Lib.Bounded
import Hsmc.Macros.Ir

/-
  The timer table (`TimerTable` in `hsmc/src/lib.rs`), a `heapless::Vec` of entries keyed by
  (state, trigger). Durations are in nanoseconds; where the source casts the `u128` of
  `as_nanos()` with `as u64`, so does `asU64`.
-/

namespace Hsmc

structure TimerEntry where
  state : Nat
  trigger : Nat
  remainingNs : Nat
deriving DecidableEq, Repr

/-- The (state, trigger) pair an entry is filed under. -/
def TimerEntry.key (e : TimerEntry) : Nat × Nat := (e.state, e.trigger)

structure TimerTable (n : Nat) where
  entries : Bounded TimerEntry n
deriving DecidableEq

namespace TimerTable

variable {n : Nat}

def new : TimerTable n := ⟨Bounded.empty⟩

def keys (t : TimerTable n) : List (Nat × Nat) := t.entries.items.map TimerEntry.key

/-- Reset the entry of (state, trigger), or add one; when the table is full the `push` fails
    and its result is discarded. -/
def start (t : TimerTable n) (state trigger duration : Nat) : TimerTable n :=
  let ns := asU64 duration
  match t.entries.update (fun e => e.state == state && e.trigger == trigger)
      (fun e => { e with remainingNs := ns }) with
  | some entries => ⟨entries⟩
  | none =>
      match t.entries.push { state, trigger, remainingNs := ns } with
      | some entries => ⟨entries⟩
      | none => t

def cancelState (t : TimerTable n) (state : Nat) : TimerTable n :=
  ⟨t.entries.filter fun e => e.state != state⟩

def cancelOne (t : TimerTable n) (state trigger : Nat) : TimerTable n :=
  ⟨t.entries.filter fun e => !(e.state == state && e.trigger == trigger)⟩

/-- `saturating_sub` of the elapsed nanoseconds from every entry. -/
def decrement (t : TimerTable n) (elapsed : Nat) : TimerTable n :=
  ⟨t.entries.map fun e => { e with remainingNs := e.remainingNs - asU64 elapsed }⟩

/-- One turn of the selection scan: `i` replaces the best index when it is expired and strictly
    deeper. -/
def scanExpired (depth : List Nat) (entries : List TimerEntry) (best : Option Nat)
    (item : TimerEntry × Nat) : Option Nat :=
  let (e, i) := item
  if e.remainingNs = 0 then
    match best with
    | none => some i
    | some bi =>
        let cur := depth.getD e.state 0
        let prev := ((entries[bi]?).map fun b => depth.getD b.state 0).getD 0
        if cur > prev then some i else some bi
  else best

def bestExpired (depth : List Nat) (entries : List TimerEntry) : Option Nat :=
  entries.zipIdx.foldl (scanExpired depth entries) none

/-- The (state, trigger) of the expired entry the scan selects, and the table without it. The
    source's `depth[..]` panics out of range; every state id that reaches a table is in range
    (`Reachable.timers_on_path`). -/
def popExpired (t : TimerTable n) (depth : List Nat) : Option ((Nat × Nat) × TimerTable n) :=
  (bestExpired depth t.entries.items).bind fun i =>
    t.entries.items[i]?.map fun e => (e.key, ⟨t.entries.swapRemove i⟩)

def minRemaining (t : TimerTable n) : Option Nat :=
  (t.entries.items.map (·.remainingNs)).min?

end TimerTable

/-! ## Sequences of calls -/

/-- A call on a table. -/
inductive TimerOp where
  | start (state trigger duration : Nat)
  | cancelState (state : Nat)
  | cancelOne (state trigger : Nat)
  | decrement (elapsed : Nat)
  | popExpired (depth : List Nat)
deriving DecidableEq, Repr

namespace TimerTable

variable {n : Nat}

/-- What a call returns, and the table after it. -/
def apply (t : TimerTable n) : TimerOp → Option (Nat × Nat) × TimerTable n
  | .start state trigger duration => (none, t.start state trigger duration)
  | .cancelState state => (none, t.cancelState state)
  | .cancelOne state trigger => (none, t.cancelOne state trigger)
  | .decrement elapsed => (none, t.decrement elapsed)
  | .popExpired depth =>
      match t.popExpired depth with
      | some (x, t) => (some x, t)
      | none => (none, t)

/-- What successive calls return, and the table after them. -/
def applyAll (t : TimerTable n) : List TimerOp → List (Option (Nat × Nat)) × TimerTable n
  | [] => ([], t)
  | op :: ops =>
      let (answer, t) := t.apply op
      let (answers, t) := applyAll t ops
      (answer :: answers, t)

end TimerTable

end Hsmc
