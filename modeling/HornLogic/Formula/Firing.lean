import HornLogic.Formula.Chaining

/-!
# Firing clauses in any order

Forward chaining takes the first clause that is false on the marking. A run may as well take any
such clause at each step, and another one when the same marking comes again (`Firing`). What the
runs from a marking can be compared with is the least marking above it on which every clause is
true (`IsLeastAbove`). The truth constants are atoms like any other here.
-/
namespace HornLogic.Formula

set_option autoImplicit false

/-- A clause that is false on a marking leads to the marking with its conclusion. -/
structure Fires (formula : Formula) (clause : Clause) (marked next : AtomSet) : Prop where
  member : clause ∈ formula
  broken : clause.holds marked.valuation = false
  marks : next = marked.insert clause.conclusion

/-- A run from one marking to another, with the clauses in the order they are fired. -/
inductive Firing (formula : Formula) : AtomSet → List Clause → AtomSet → Prop where
  | nil (marked : AtomSet) : Firing formula marked [] marked
  | cons {marked next reached : AtomSet} {clause : Clause} {later : List Clause}
      (fires : formula.Fires clause marked next) (others : Firing formula next later reached) :
      Firing formula marked (clause :: later) reached

/-- A run that has come here cannot go on. -/
def Exhausted (formula : Formula) (marked : AtomSet) : Prop :=
  ∀ clause next, ¬ formula.Fires clause marked next

/-- The atoms that some clause concludes and that are not marked. -/
def openConclusions (formula : Formula) (marked : AtomSet) : AtomSet :=
  (SortedBy.ofList (formula.clauses.toList.map Clause.conclusion)).filter fun atom =>
    !marked.contains atom

structure IsLeastAbove (formula : Formula) (start result : AtomSet) : Prop where
  above : ∀ atom ∈ start, atom ∈ result
  holds : formula.holds result.valuation = true
  least : ∀ valuation : Valuation, (∀ atom ∈ start, valuation atom = true) →
    formula.holds valuation = true → ∀ atom ∈ result, valuation atom = true

/-- The marking that forward chaining ends with. Every step marks an atom of the formula, so there
are never more steps than atoms. -/
def closure (formula : Formula) (start : AtomSet) : AtomSet :=
  (formula.chain formula.atoms.size start).2

end HornLogic.Formula
