import HornLogic.Atom
import HornLogic.Conjunction.Scope

/-!
# Reading conjunctions

The symbols of a conjunction in the order they are written. Parentheses group conjuncts for the
reader's eye only: the symbols inside stand in the row as if the parentheses were not there. What
is inside a pair of parentheses is read before what comes after it, so its faults are found first.
-/
namespace HornLogic.Conjunction

set_option autoImplicit false

set_option linter.unusedVariables false in
def Scope.symbols (scope : Scope) : Except PlacedFault (List (List Char)) :=
  match opens : scope.opening with
  | .error fault => .error fault
  | .ok .nothing => .ok []
  | .ok (.symbol characters after) =>
    match skips : after.skipSeparator with
    | .error fault => .error fault
    | .ok next => next.symbols.map (characters :: ·)
  | .ok (.group inside after) =>
    match inside.symbols with
    | .error fault => .error fault
    | .ok inner =>
      match skips : after.skipSeparator with
      | .error fault => .error fault
      | .ok next => next.symbols.map (inner ++ ·)
termination_by scope.text.length
decreasing_by
  · exact Nat.lt_of_le_of_lt (length_of_skipSeparator skips) (length_of_opening_symbol opens)
  · exact (length_of_opening_group opens).1
  · exact Nat.lt_of_le_of_lt (length_of_skipSeparator skips) (length_of_opening_group opens).2

/-- The atoms of a conjunction, in the order they are written and with repetitions. -/
def atoms (text : List Char) : Except ParseError (List Atom) :=
  match (⟨0, text⟩ : Scope).symbols with
  | .error ⟨fault, position⟩ => .error (.conjunction fault position (String.ofList text))
  | .ok symbols => symbols.mapM fun characters => Atom.ofSymbol (String.ofList characters)

end HornLogic.Conjunction
