import HornLogic.Clause
import HornLogic.Conjunction

/-!
# Clauses as text

A clause is written as a conjunction, an arrow and the symbol of its conclusion. Of several things
wrong with a line, the first in this order is reported: the line is blank, the arrows are not
exactly one, the conjunction has a fault, the conclusion is missing.
-/
namespace HornLogic

set_option autoImplicit false

open Text

/-- The text before and after the first arrow. -/
def splitArrow : List Char → Option (List Char × List Char)
  | '-' :: '>' :: rest => some ([], rest)
  | first :: rest => (splitArrow rest).map fun (left, right) => (first :: left, right)
  | [] => none

/-- The two sides of a line that has exactly one arrow. -/
def soleArrow (line : List Char) : Option (List Char × List Char) :=
  match splitArrow line with
  | none => none
  | some (left, right) => if (splitArrow right).isSome then none else some (left, right)

/-- Reads a clause. Blanks around the line, the arrow and the conjuncts have no meaning. -/
def Clause.parse (line : String) : Except ParseError Clause :=
  if allBlank line.toList then .error .blankClause
  else
    match soleArrow line.toList with
    | none => .error (.arrowCount line)
    | some (left, right) => do
      let premise ← Conjunction.atoms (trim left)
      let conclusion ← Atom.ofSymbol (String.ofList (trim right))
      return .ofList premise conclusion

end HornLogic
