import HornLogic.Formula
import Std.Data.TreeMap

/-!
# Index of a formula

Atoms and clauses of a formula by number: clauses in the order of the formula, atoms in the order
they first occur in it. For every atom the index lists the clauses that have it in their premise,
so that marking an atom touches those clauses and no others.
-/
namespace HornLogic

set_option autoImplicit false

structure Index where
  atoms : Array Atom
  /-- The place of each atom in `atoms`. -/
  numbers : Std.TreeMap Atom Nat
  /-- For each atom, the clauses whose premise has it. -/
  watches : Array (Array Nat)
  /-- For each clause, how many atoms its premise has. -/
  premiseSizes : Array Nat
  /-- For each clause, the number of its conclusion. -/
  conclusions : Array Nat

namespace Index

def empty : Index where
  atoms := #[]
  numbers := .empty
  watches := #[]
  premiseSizes := #[]
  conclusions := #[]

/-- The number of an atom, or the next free one if the atom has none. -/
def number (index : Index) (atom : Atom) : Nat :=
  index.numbers.getD atom index.atoms.size

/-- Gives an atom a number unless it has one. -/
def enter (index : Index) (atom : Atom) : Index :=
  if index.numbers.contains atom then index
  else
    { index with
      atoms := index.atoms.push atom
      numbers := index.numbers.insert atom index.atoms.size
      watches := index.watches.push #[] }

/-- Lists a clause under an atom of its premise. -/
def watch (index : Index) (clause : Nat) (atom : Atom) : Index :=
  let entered := index.enter atom
  { entered with watches := entered.watches.modify (entered.number atom) (·.push clause) }

/-- Gives a clause the next number, and its atoms theirs. -/
def addClause (index : Index) (clause : Clause) : Index :=
  let watched := clause.premise.toList.foldl (watch · index.conclusions.size ·) index
  let entered := watched.enter clause.conclusion
  { entered with
    premiseSizes := entered.premiseSizes.push clause.premise.size
    conclusions := entered.conclusions.push (entered.number clause.conclusion) }

def ofFormula (formula : Formula) : Index :=
  formula.clauses.foldl addClause empty

end Index
end HornLogic
