import Hsmc.Macros.Codegen

/-
  The checks on the emitted tables: the `const _: ()` block that the generated module evaluates
  when it is compiled, and the validator of the verification crate that mirrors it.

  A failed `assert!` of the block is a build error with the text of the assertion.
-/

namespace Hsmc

/-! ## The const block -/

/-- `assert!(cond, msg)` in a const context. -/
def constAssert (cond : Bool) (msg : String) : Except String Unit :=
  if cond then .ok () else .error msg

/-- `const _: () = { .. }` -/
def constAsserts (c : Chart) : Except String Unit := do
  c.pathRange.forM fun (s, m, e) => do
    constAssert (s ≤ m) "__PATH_RANGE: s > m"
    constAssert (m ≤ e) "__PATH_RANGE: m > e"
    constAssert (e ≤ c.pathData.length) "__PATH_RANGE: e past __PATH_DATA end"
  c.terminateRange.forM fun (s, e) => do
    constAssert (s ≤ e) "__TERMINATE_RANGE: s > e"
    constAssert (e ≤ c.terminateData.length) "__TERMINATE_RANGE: e past __TERMINATE_DATA end"
  c.defaultChild.forM fun
    | some t =>
        constAssert (t < c.defaultChild.length) "__DEFAULT_CHILD: target id past N_STATES"
    | none => .ok ()
  c.pathData.forM fun id =>
    constAssert (id < c.defaultChild.length) "__PATH_DATA: state id past N_STATES"
  c.terminateData.forM fun id =>
    constAssert (id < c.defaultChild.length) "__TERMINATE_DATA: state id past N_STATES"

/-! ## The validator -/

def checkPathRangeInvariant (dataLen : Nat) : List (Nat × Nat × Nat) → Bool
  | [] => true
  | (s, m, e) :: range =>
      if !(s ≤ m && m ≤ e && e ≤ dataLen) then false else checkPathRangeInvariant dataLen range

def checkTerminateRangeInvariant (dataLen : Nat) : List (Nat × Nat) → Bool
  | [] => true
  | (s, e) :: range =>
      if !(s ≤ e && e ≤ dataLen) then false else checkTerminateRangeInvariant dataLen range

def checkStateIdsInBounds (nStates : Nat) : List Nat → Bool
  | [] => true
  | id :: data => if id ≥ nStates then false else checkStateIdsInBounds nStates data

def checkDefaultChildInBounds (nStates : Nat) : List (Option Nat) → Bool
  | [] => true
  | none :: defaultChild => checkDefaultChildInBounds nStates defaultChild
  | some t :: defaultChild =>
      if t ≥ nStates then false else checkDefaultChildInBounds nStates defaultChild

def checkPathTablesSound (pathRange : List (Nat × Nat × Nat)) (pathData : List Nat)
    (terminateRange : List (Nat × Nat)) (terminateData : List Nat)
    (defaultChild : List (Option Nat)) (nStates : Nat) : Bool :=
  checkPathRangeInvariant pathData.length pathRange &&
    checkTerminateRangeInvariant terminateData.length terminateRange &&
    checkStateIdsInBounds nStates pathData &&
    checkStateIdsInBounds nStates terminateData &&
    checkDefaultChildInBounds nStates defaultChild

end Hsmc
