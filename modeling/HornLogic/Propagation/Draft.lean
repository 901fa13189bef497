import HornLogic.Formula.History
import HornLogic.Propagation.Marking

/-!
# An index and a marking that grow together

Propagation makes the index of a formula first and then a blank marking from it. In a draft the rows of both grow
together: an atom that gets a number gets its place in each row of the atoms at once, and a clause is known by its
place in the formula. Nothing comes of a look-up outside of a row. `Draft.Indexes` says what the rows have to
list.
-/
namespace HornLogic

set_option autoImplicit false

structure Draft where
  atoms : Array Atom
  numbers : Std.TreeMap Atom Nat
  watches : Array (Array Nat)
  missing : Array Nat
  conclusions : Array Nat
  marked : Array Bool
  queue : Array Nat

namespace Draft

def empty : Draft where
  atoms := #[]
  numbers := .empty
  watches := #[]
  missing := #[]
  conclusions := #[]
  marked := #[]
  queue := #[]

/-- Gives an atom a number unless it has one, and tells the number. -/
def enter (draft : Draft) (atom : Atom) : Draft × Nat :=
  match draft.numbers[atom]? with
  | some number => (draft, number)
  | none =>
    let entered := { draft with
      atoms := draft.atoms.push atom
      numbers := draft.numbers.insert atom draft.atoms.size
      watches := draft.watches.push #[]
      marked := draft.marked.push false }
    (entered, draft.atoms.size)

def watch? (clause : Nat) (draft : Draft) (atom : Atom) : Option Draft := do
  let (entered, number) := draft.enter atom
  let watching ← entered.watches[number]?
  return { entered with watches := entered.watches.setIfInBounds number (watching.push clause) }

def addClause? (draft : Draft) (clause : Clause) (number : Nat) : Option Draft := do
  let watched ← clause.premise.toList.foldlM (watch? number) draft
  let counted := { watched with missing := watched.missing.push clause.premise.size }
  let (entered, conclusion) := counted.enter clause.conclusion
  return { entered with conclusions := entered.conclusions.push conclusion }

def ofFormula? (formula : Formula) : Option Draft :=
  formula.clauses.toList.zipIdx.foldlM (fun draft entry => draft.addClause? entry.1 entry.2) empty

/-- The rows of an index and of the blank marking it gives. -/
def ofIndex (index : Index) : Draft where
  atoms := index.atoms
  numbers := index.numbers
  watches := index.watches
  missing := (Marking.blank index).missing
  conclusions := index.conclusions
  marked := (Marking.blank index).marked
  queue := (Marking.blank index).trail

/-- The atoms have the numbers below their count, in the order in which they first occur. Each is listed once
with every clause that needs it, and nothing is marked. -/
structure Indexes (draft : Draft) (formula : Formula) : Prop where
  atoms : ListsFirst (formula.clauses.toList.flatMap Clause.atoms) draft.atoms.toList
  atomsSize : draft.atoms.size = formula.atoms.size
  numbered : ∀ atom, (∃ number, draft.numbers[atom]? = some number) ↔ atom ∈ formula.atoms
  inverse : ∀ (atom : Atom) (number : Nat),
    draft.numbers[atom]? = some number ↔ draft.atoms[number]? = some atom
  marked : draft.marked = .replicate formula.atoms.size false
  queue : draft.queue = #[]
  watchesSize : draft.watches.size = formula.atoms.size
  watches : ∀ (number : Nat) (atom : Atom) (clause : Nat), draft.atoms[number]? = some atom →
    (draft.watches.getD number #[]).count clause =
      if (formula.clauses[clause]?).any fun found => found.premise.contains atom then 1 else 0
  missing : draft.missing.toList = formula.clauses.toList.map fun clause => clause.premise.size
  conclusions : draft.conclusions.toList.map some =
    formula.clauses.toList.map fun clause => draft.numbers[clause.conclusion]?

end Draft
end HornLogic
