import Hsmc.Link.Layout
import Hsmc.Macros.Picture

/-
  The picture of a chart, from its declarations.

  Each state has a line, the lines of what its body declares, and the pictures of its children,
  further in. A target is drawn with `→` when it names a state and with `⇒` otherwise. Of the
  expression of a timer, the part before the first colon is shown.
-/

namespace Hsmc

def Trigger.picture : Trigger → String
  | .event variant _ => "on(" ++ variant ++ ")"
  | .duration _ key repeats =>
      "on(" ++ (if repeats then "every" else "after") ++ " " ++ firstPart key ++ ")"

section

variable (names : List Ident)

def Handler.picture (h : Handler) : String :=
  "• " ++ h.trigger.picture ++ " " ++ (if h.target ∈ names then "→ " else "⇒ ") ++ h.target

def During.picture (d : During) : String :=
  "• during: " ++ d.fnName ++ "(" ++ ", ".intercalate d.fields ++ ")"

/-- What a body declares, line by line. -/
def StateBody.picture (b : StateBody) : List String :=
  b.entries.map ("• entry: " ++ ·) ++ b.exits.map ("• exit: " ++ ·) ++
    b.durings.map During.picture ++ b.handlers.map (Handler.picture names)

/-- `lines` below each other, behind a prefix. -/
def indented (pre : String) (lines : List String) : String :=
  String.join (lines.map fun line => pre ++ line ++ "\n")

mutual

def StateDecl.picture (pre : String) (isLast isDefault : Bool) : StateDecl → String
  | .mk name body children =>
      pre ++ (if isLast then "└── " else "├── ") ++ (if isDefault then "[default] " else "") ++
        name ++ "\n" ++
      indented (pre ++ if isLast then "    " else "│   ") (body.picture names) ++
      pictureAll (pre ++ if isLast then "    " else "│   ") body.defaultChild children

/-- The children of a state with this `default(..)`. -/
def pictureAll (pre : String) (default : Option Ident) : List StateDecl → String
  | [] => ""
  | c :: cs =>
      c.picture pre cs.isEmpty (default == some c.name) ++ pictureAll pre default cs

end

end

def StatechartInput.picture (input : StatechartInput) : String :=
  input.name ++ "\n" ++ pictureAll input.stateNames "" input.body.defaultChild input.children

end Hsmc
