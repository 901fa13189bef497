import HornLogic.Propagation.Marking
import HornLogic.Solution

/-!
# Satisfiability

A formula is unsatisfiable when falsum is among the atoms that must be true. Otherwise it is true
on the assignment that makes just those atoms true, which is the least one.
-/
namespace HornLogic

set_option autoImplicit false

namespace Marking

/-- The atoms of an index with the values a marking gives them. -/
def assignment (index : Index) (marking : Marking) : Assignment :=
  .ofList (index.atoms.toList.zip marking.marked.toList)

def solution (index : Index) (marking : Marking) : Solution :=
  if marking.falsumMarked index then .unsatisfiable
  else .satisfiable (marking.assignment index)

end Marking

def Formula.solve (formula : Formula) : Solution :=
  let index := Index.ofFormula formula
  (Marking.saturate index).solution index

end HornLogic
