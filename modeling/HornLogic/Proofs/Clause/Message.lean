import HornLogic.Proofs.Clause.Priority
import HornLogic.Proofs.Conjunction.Progress
import HornLogic.Text.Rows

/-!
# Messages of one line

A message shows the line or the conjunction that it is about, and else only words and numbers of its own. So it
has no line feed unless the line has one.
-/
namespace HornLogic

set_option autoImplicit false

open Text

namespace Conjunction.Scope

end Conjunction.Scope

/-- What a line can be refused for. -/
inductive Clause.Refusal (line : String) : ParseError → Prop where
  | blank : Refusal line .blankClause
  | arrows : Refusal line (.arrowCount line)
  | conjunction {left right : List Char} {fault : Fault} {position : Nat}
      (sole : SoleArrow line.toList left right)
      (fails : (⟨0, trim left⟩ : Conjunction.Scope).symbols = .error ⟨fault, position⟩) :
      Refusal line (.conjunction fault position (String.ofList (trim left)))
  | symbol : Refusal line .emptySymbol

theorem Clause.refusal_of_parse {line : String} {error : ParseError}
    (fails : parse line = .error error) : Refusal line error := by
  have standing := fails ▸ standing_parse line
  cases standing with
  | blank blank => exact .blank
  | arrows solid none => exact .arrows
  | conjunction sole symbolsFail => exact .conjunction sole symbolsFail
  | conclusion sole derived blank => exact .symbol

namespace Text

namespace SingleLine

theorem append {left right : String} (leftPlain : SingleLine left) (rightPlain : SingleLine right) :
    SingleLine (left ++ right) := by
  rw [SingleLine, String.toList_append, List.mem_append, not_or]
  exact ⟨leftPlain, rightPlain⟩

theorem number (number : Nat) : SingleLine (toString number) := by
  intro member
  rw [Nat.toString_eq_ofList_toDigits, String.toList_ofList] at member
  have digit := Nat.isDigit_of_mem_toDigits (by decide) (by decide) member
  revert digit
  decide

theorem character {character : Char} (differs : character ≠ '\n') : SingleLine (toString character) := by
  change SingleLine (String.singleton character)
  rw [SingleLine]
  simpa [eq_comm] using differs

end SingleLine
end Text

end HornLogic
