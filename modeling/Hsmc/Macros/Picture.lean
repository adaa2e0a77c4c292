import Hsmc.Macros.Codegen

/-
  The constant `STATE_CHART` (`emit_state_chart_string`, `render_state` of
  `hsmc-macros/src/codegen.rs`).

  The source pushes everything to one string; here each part is a string of its own, and the
  parts are joined in the order of the pushes. An index out of range, at which the macro would
  panic, is `.error`. The recursion takes fuel, one unit for each level.
-/

namespace Hsmc

/-- `&list[i]` -/
def elementAt {α : Type} (l : List α) (i : Nat) : Except String α :=
  match l[i]? with
  | some a => .ok a
  | none => .error "index out of bounds"

/-- `key.split(':').next().unwrap_or("?")`. A `split` has a first part. -/
def firstPart (key : String) : String := String.ofList (key.toList.takeWhile (· != ':'))

variable (ir : Ir)

/-- The lines of the entry or of the exit actions. -/
def renderActions (childPrefix label : String) (aids : List Nat) : Except String String := do
  let lines ← aids.mapM fun aid => do
    let action ← elementAt ir.symbols.actions aid
    .ok (childPrefix ++ label ++ action.name ++ "\n")
  .ok (String.join lines)

def renderDuring (childPrefix : String) (d : During) : String :=
  childPrefix ++ "• during: " ++ d.fnName ++ "(" ++ ", ".intercalate d.fields ++ ")\n"

def renderTrigger : TriggerIr → Except String String
  | .event _ name _ => .ok ("on(" ++ name ++ ")")
  | .duration tid => do
      let d ← elementAt ir.symbols.durationTriggers tid
      let verb := if d.repeats then "every" else "after"
      .ok ("on(" ++ verb ++ " " ++ firstPart d.key ++ ")")

def renderTarget : HandlerKindIr → String
  | .transition target _ => "→ " ++ target
  | .action _ name => "⇒ " ++ name

def renderHandler (childPrefix : String) (h : HandlerIr) : Except String String := do
  let trigger ← renderTrigger ir h.trigger
  .ok (childPrefix ++ "• " ++ trigger ++ " " ++ renderTarget h.kind ++ "\n")

/-- One turn of the loop over the children of `s`, with the child's id and its position. -/
def renderChild (render : Nat → Bool → Bool → Except String String) (s : StateIr)
    (child : Nat × Nat) : Except String String :=
  render child.1 (child.2 + 1 == s.children.length) (some child.1 == s.defaultChild)

def renderChildren (render : Nat → Bool → Bool → Except String String) (s : StateIr) :
    Except String String := do
  let parts ← s.children.zipIdx.mapM (renderChild render s)
  .ok (String.join parts)

/-- `render_state` -/
def renderState : Nat → Nat → String → Bool → Bool → Except String String
  | 0, _, _, _, _ => .error "recursion out of fuel"
  | fuel + 1, sid, pre, isLast, isDefault => do
      let s ← elementAt ir.states sid
      let branch := if isLast then "└── " else "├── "
      let mark := if isDefault then "[default] " else ""
      let childPrefix := pre ++ if isLast then "    " else "│   "
      let entries ← renderActions ir childPrefix "• entry: " s.entries
      let exits ← renderActions ir childPrefix "• exit: " s.exits
      let durings := String.join (s.durings.map (renderDuring childPrefix))
      let handlers ← s.handlers.mapM (renderHandler ir childPrefix)
      let children ← renderChildren (fun cid => renderState fuel cid childPrefix) s
      .ok (pre ++ branch ++ mark ++ s.name ++ "\n" ++ entries ++ exits ++ durings ++
        String.join handlers ++ children)

/-- `emit_state_chart_string` -/
def emitStateChartString : Except String String := do
  let root ← elementAt ir.states 0
  let children ← renderChildren (fun cid => renderState ir ir.states.length cid "") root
  .ok (ir.name ++ "\n" ++ children)

end Hsmc
