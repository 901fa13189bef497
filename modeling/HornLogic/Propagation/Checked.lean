import HornLogic.Propagation.Marking

/-!
# Propagation that may fail

The look-ups of propagation always give something: a number without a place counts as not marked, and a
count of zero stays zero when it is counted down. Here each of its steps is taken again so that nothing
comes of it in such a case, nor when more atoms are taken than allowed. Such a run also notes which
clauses are examined, and for which atoms. Beside it stand the markings at which propagation looks whether
an atom waits (`Marking.heads`), and what is to be true of them (`Marking.Exact`).
-/
namespace HornLogic.Marking

set_option autoImplicit false

def mark? (marking : Marking) (atom : Nat) : Option Marking :=
  if atom < marking.marked.size then some (marking.mark atom) else none

def markAtom? (index : Index) (atom : Atom) (marking : Marking) : Option Marking :=
  match index.numbers[atom]? with
  | none => some marking
  | some number => marking.mark? number

def falsumMarked? (index : Index) (marking : Marking) : Option Bool :=
  match index.numbers[Atom.falsum]? with
  | none => some false
  | some number => marking.marked[number]?

def markFact? (index : Index) (marking : Marking) (clause : Nat) : Option Marking := do
  let count ← marking.missing[clause]?
  if count = 0 then
    let conclusion ← index.conclusions[clause]?
    marking.mark? conclusion
  else return marking

def countDown? (index : Index) (marking : Marking) (clause : Nat) : Option Marking := do
  match ← marking.missing[clause]? with
  | 0 => none
  | left + 1 =>
    let counted := { marking with missing := marking.missing.setIfInBounds clause left }
    if left = 0 then
      let conclusion ← index.conclusions[clause]?
      counted.mark? conclusion
    else return counted

/-- The numbers of the marked atoms that have not been taken, the next one first. -/
def queue (marking : Marking) : List Nat :=
  marking.trail.toList.drop marking.taken

/-- A marking, for each atom the clauses that are yet to be examined for it, and the pairs of a clause and
an atom, by their numbers, that were examined. -/
structure Ledger where
  marking : Marking
  watches : Array (Array Nat)
  examined : List (Nat × Nat)

namespace Ledger

def examine? (index : Index) (atom : Nat) (ledger : Ledger) (clause : Nat) : Option Ledger := do
  let counted ← ledger.marking.countDown? index clause
  return { ledger with marking := counted, examined := ledger.examined ++ [(clause, atom)] }

/-- Examines the clauses of an atom, which are not kept for another time. -/
def take? (index : Index) (ledger : Ledger) (atom : Nat) : Option Ledger := do
  let clauses ← ledger.watches[atom]?
  let opened := { ledger with
    marking := { ledger.marking with taken := ledger.marking.taken + 1 }
    watches := ledger.watches.setIfInBounds atom #[] }
  clauses.toList.foldlM (examine? index atom) opened

/-- Takes at most so many atoms from the queue. An atom that is taken when falsum is marked counts too. -/
def propagate? (index : Index) : Nat → Ledger → Option Ledger
  | allowed, ledger =>
    match ledger.marking.queue, allowed with
    | [], _ => some ledger
    | _ :: _, 0 => none
    | atom :: _, allowed + 1 => do
      if ← ledger.marking.falsumMarked? index then return ledger
      let reached ← ledger.take? index atom
      reached.propagate? index allowed

end Ledger

def start? (index : Index) : Option Marking := do
  let given ← (blank index).markAtom? index .verum
  (List.range index.conclusions.size).foldlM (markFact? index) given

def saturate? (index : Index) (allowed : Nat) : Option Ledger := do
  let start ← start? index
  Ledger.propagate? index allowed ⟨start, index.watches, []⟩

/-- The markings between two takes, from the given one to where propagation stops. -/
def heads (index : Index) (marking : Marking) : List Marking :=
  if waiting : marking.taken < marking.trail.size then
    if marking.falsumMarked index then [marking]
    else marking :: (marking.take index waiting).heads index
  else [marking]
termination_by marking.credit - marking.taken
decreasing_by
  have more := marking.taken_lt_credit waiting
  rw [credit_take, taken_take]
  omega

/-- What the counts, the marks and the queue of a marking say of the formula. -/
structure Exact (formula : Formula) (index : Index) (marking : Marking) : Prop where
  queueMarked : ∀ number ∈ marking.queue, marking.isMarked number = true
  queueDistinct : marking.queue.Nodup
  /-- No atom is twice among those that are or were in the queue. -/
  queuedOnce : marking.trail.toList.Nodup
  counts : ∀ (number : Nat) (clause : Clause), formula.clauses[number]? = some clause →
    marking.missing[number]? = some (clause.premise.toList.countP fun atom =>
      decide (index.number atom ∉ marking.trail.toList.take marking.taken))
  concluded : ∀ (number : Nat) (clause : Clause), formula.clauses[number]? = some clause →
    marking.missing[number]? = some 0 → marking.isMarked (index.number clause.conclusion) = true
  /-- A marked atom comes behind the atoms that led to it. -/
  reasons : ∀ number, marking.isMarked number = true →
    ∃ place : Nat, marking.trail[place]? = some number ∧
      (index.atoms[number]? = some .verum ∨
        ∃ clause ∈ formula, index.atoms[number]? = some clause.conclusion ∧
          ∀ atom ∈ clause.premise, index.number atom ∈ marking.trail.toList.take place)

end HornLogic.Marking
