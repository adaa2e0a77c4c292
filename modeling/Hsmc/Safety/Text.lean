import Hsmc.Link.Reads
import Hsmc.Safety.Order

/-
  The text and the tree.

  The parser ends on every text, and an accepted text stands for items that `parse_body` reads
  (`texts_are_items`). A tree that came out of the parser can be printed and parsed again
  (`reparses`), and the trees that come out are the well-formed ones (`parsed_iff`).
-/

namespace Hsmc

open Tokens

variable {S : Syn}

/-- The parser never runs out of fuel. What it accepts is what `parseStatechart` makes of items,
    and each name, type and expression in them was read by `syn`. -/
theorem texts_are_items (S : Syn) (input : List Token) :
    (∃ e, parseChart S input = .error e ∧ e ≠ .outOfFuel) ∨
      ∃ chart traced items, parseChart S input = .ok (chart, traced) ∧ itemsReadable S items ∧
        parseStatechart chart.name items = .ok chart := by
  have h := parseChart_ends S input
  cases hp : parseChart S input with
  | error e =>
      rw [hp] at h
      exact .inl ⟨e, rfl, h⟩
  | ok r =>
      obtain ⟨-, items, hitems, hparse⟩ := h.of_ok hp
      exact .inr ⟨r.1, r.2, items, rfl, hitems, hparse⟩

/-- The trees that the parser gives. -/
theorem parsed_iff (Q : Quote S) (chart : StatechartInput) (traced : Bool) :
    (∃ input, parseChart S input = .ok (chart, traced)) ↔ chart.WellFormed S := by
  constructor
  · rintro ⟨input, h⟩
    exact ((parseChart_ends S input).of_ok h).1
  · intro h
    exact ⟨chart.tokens Q traced, parseChart_tokens Q h traced⟩

/-- A parsed chart is printed as a text that parses to it. -/
theorem reparses (Q : Quote S) {input : List Token} {chart : StatechartInput} {traced : Bool}
    (h : parseChart S input = .ok (chart, traced)) :
    parseChart S (chart.tokens Q traced) = .ok (chart, traced) :=
  parseChart_tokens Q ((parseChart_ends S input).of_ok h).1 traced

/-- One word as a type, and `path::function(literal)` as an expression. -/
def lampSyn : Syn where
  acceptAsIdent _ := true
  parseType
    | .ident x :: input => some (x, input)
    | _ => none
  parseExpr
    | .ident x :: .punct ':' true :: .punct ':' _ :: .ident f ::
        .group .parenthesis [.literal n] :: input => some ([x, "::", f, "(", n, ")"], input)
    | _ => none
  acceptAsIdent_word _ _ := rfl
  parseType_suffix {input ty rest} h := by
    split at h
    · cases h
      exact ⟨[.ident ty], by simp, rfl⟩
    · cases h

def lampQuote : Quote lampSyn where
  type ty := [.ident ty]
  expr
    | [x, "::", f, "(", n, ")"] =>
        [.ident x, .punct ':' true, sign ':', .ident f, .group .parenthesis [.literal n]]
    | _ => []
  parse_type _ := by
    intro ch joint rest' _
    rfl
  parse_expr {input e rest} h := by
    unfold lampSyn at h
    dsimp only at h
    split at h
    · cases h
      rfl
    · cases h

/-- The lamp as it is written. -/
def lampText : List Token := [.ident "Lamp", .group .brace [
  .ident "context", sign ':', .ident "LampCtx", sign ';',
  .ident "events", sign ':', .ident "LampEvent", sign ';',
  .ident "terminate", .group .parenthesis [.ident "Stop"], sign ';',
  .ident "default", .group .parenthesis [.ident "Off"], sign ';',
  .ident "state", .ident "Off", .group .brace [
    .ident "on", .group .parenthesis [.ident "Toggle"], .punct '=' true, sign '>', .ident "On",
    sign ';'],
  .ident "state", .ident "On", .group .brace [
    .ident "entry", sign ':', .ident "count", sign ';',
    .ident "on", .group .parenthesis [.ident "Toggle"], .punct '=' true, sign '>', .ident "Off",
    sign ';',
    .ident "on", .group .parenthesis [.ident "after", .ident "Duration", .punct ':' true, sign ':',
      .ident "from_nanos", .group .parenthesis [.literal "50"]], .punct '=' true, sign '>',
    .ident "Off", sign ';']]]

theorem lampText_parsed : parseChart lampSyn lampText = .ok (lamp, false) := by rfl

theorem parsed_iff_lamp : lamp.WellFormed lampSyn :=
  (parsed_iff lampQuote lamp false).mp ⟨lampText, lampText_parsed⟩

theorem reparses_lamp :
    parseChart lampSyn (lamp.tokens lampQuote false) = .ok (lamp, false) :=
  reparses lampQuote lampText_parsed

end Hsmc
