import HornLogic.Solution
import Mathlib.Data.Set.Operations

/-!
# Renaming

A renaming replaces the symbols of named atoms, in clauses and formulas and in the assignments found for them.
The truth constants have no symbol and stay, and an atom that is given the symbol of a constant is none.
-/
namespace HornLogic

set_option autoImplicit false

/-- The symbols of the named atoms that occur. -/
def Formula.symbols (formula : Formula) : Set String :=
  { symbol | .named symbol ∈ formula.atoms }

section

variable (names : String → String)

def Atom.rename : Atom → Atom
  | .verum => .verum
  | .falsum => .falsum
  | .named symbol => .named (names symbol)

def Clause.rename (clause : Clause) : Clause :=
  .ofList (clause.premise.toList.map (Atom.rename names)) (clause.conclusion.rename names)

def Formula.rename (formula : Formula) : Formula :=
  .ofList (formula.clauses.toList.map (Clause.rename names))

def Assignment.rename (assignment : Assignment) : Assignment :=
  .ofList (assignment.toList.map (Prod.map (Atom.rename names) id))

def Solution.rename : Solution → Solution
  | .unsatisfiable => .unsatisfiable
  | .satisfiable model => .satisfiable (model.rename names)

end

end HornLogic
