import Mathlib.Data.List.Basic

/-
  The journal vocabulary (`hsmc/src/journal.rs`): one `TraceEvent` for each observable atom of
  chart execution. All ids are `u16` indices.
-/

namespace Hsmc

inductive ActionKind where
  | entry
  | exit
  | handler
deriving DecidableEq, Repr

inductive TransitionReason where
  | event (event : Nat)
  | timer (state timer : Nat)
  /-- A `default(..)` firing. -/
  | internal
deriving DecidableEq, Repr

inductive TraceEvent where
  | started (chartHash : Nat)
  | enterBegan (state : Nat)
  | entered (state : Nat)
  | exitBegan (state : Nat)
  | exited (state : Nat)
  | actionInvoked (state action : Nat) (kind : ActionKind)
  | duringStarted (state during : Nat)
  | duringCancelled (state during : Nat)
  | transitionFired (src : Option Nat) (dst : Nat) (reason : TransitionReason)
  | transitionComplete (src : Option Nat) (dst : Nat)
  | eventReceived (event : Nat)
  | eventDelivered (handlerState event : Nat)
  | eventDropped (event : Nat)
  | emitQueued (event : Nat)
  | emitFailed (event : Nat)
  | terminateRequested (event : Nat)
  | timerArmed (state timer ns : Nat)
  | timerCancelled (state timer : Nat)
  | timerFired (state timer : Nat)
  | terminated
deriving DecidableEq, Repr

end Hsmc
