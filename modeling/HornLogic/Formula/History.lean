import HornLogic.Formula.Reading
import Mathlib.Data.Finset.Card

/-!
# Histories of a formula

A history is a row of operations on a formula. Each offers the formula some clauses, known before the
operation is performed: a source offers the clauses of its rows up to the first row that gives none, also
when the reading then fails. What a formula has of all it was offered is what it keeps (`Formula.Keeps`).
-/
namespace HornLogic

set_option autoImplicit false

inductive Operation where
  | add (clause : Clause)
  | extend (clauses : List Clause)
  | read (source : Source)

/-- What the caller of an operation learns. -/
inductive Answer where
  | added (new : Bool)
  | extended
  | read (result : Except InputError Tally)

/-- The clauses of the rows before the first that gives none. -/
def Source.leadingClauses (source : Source) : List Clause :=
  ((source.rows.map source.clauseOn).takeWhile Except.isOk).filterMap Except.toOption

def Operation.offers : Operation → List Clause
  | .add clause => [clause]
  | .extend clauses => clauses
  | .read source => source.leadingClauses

namespace Formula

def perform (formula : Formula) : Operation → Formula × Answer
  | .add clause =>
    let (extended, new) := formula.add clause
    (extended, .added new)
  | .extend clauses => (formula.extend clauses, .extended)
  | .read source =>
    let (reached, result) := formula.readInto source
    (reached, .read result)

/-- Performs operations one after the other, whatever they answer. -/
def performAll (formula : Formula) : List Operation → Formula × List Answer
  | [] => (formula, [])
  | operation :: later =>
    let (next, answer) := formula.perform operation
    let (last, answers) := next.performAll later
    (last, answer :: answers)

end Formula

/-- Every item of a row once, in the order in which the row first has them. -/
structure ListsFirst {Item : Type} [DecidableEq Item] (row listed : List Item) : Prop where
  memIff : ∀ item, item ∈ listed ↔ item ∈ row
  once : listed.Nodup
  ordered : listed.Pairwise fun left right => row.idxOf left < row.idxOf right

structure Formula.Keeps (formula : Formula) (offered : List Clause) : Prop where
  clauses : ListsFirst offered formula.clauses.toList
  size : formula.size = offered.toFinset.card
  atoms : ∀ atom, atom ∈ formula.atoms ↔
    ∃ clause ∈ offered, atom ∈ clause.premise ∨ atom = clause.conclusion

end HornLogic
