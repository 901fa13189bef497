import HornLogic.Formula

/-!
# Forward chaining

Starting from a set of marked atoms, the conclusion of some clause that is false on the marking is
marked, until all clauses are true. Here the first such clause is taken every time, which searches
the formula anew at each step.
-/
namespace HornLogic.Formula

set_option autoImplicit false

/-- The clauses taken in at most `steps` steps, and the marking after them. -/
def chain (formula : Formula) : Nat → AtomSet → List Clause × AtomSet
  | 0, marked => ([], marked)
  | steps + 1, marked =>
    match formula.unsatisfied? marked.valuation with
    | none => ([], marked)
    | some clause =>
      let (fired, reached) := formula.chain steps (marked.insert clause.conclusion)
      (clause :: fired, reached)

end HornLogic.Formula
