import HornLogic.Propagation.Index

/-!
# Marking by propagation

The atoms that must be true are marked, each with its number put at the end of a trail. The trail
is at once the queue: its first `taken` atoms have been taken, and taking the next one counts down
the clauses it is in the premise of. A clause whose count comes to zero has a marked premise, so
its conclusion is marked. Every atom is put on the trail at most once (`Marking.credit_mark`), so
propagation ends.
-/
namespace HornLogic

set_option autoImplicit false

structure Marking where
  marked : Array Bool
  /-- For each clause, how many atoms of its premise have not been taken. -/
  missing : Array Nat
  /-- The marked atoms in the order they were marked. -/
  trail : Array Nat
  /-- How many atoms of the trail have been taken. -/
  taken : Nat

namespace Marking

def blank (index : Index) : Marking where
  marked := .replicate index.atoms.size false
  missing := index.premiseSizes
  trail := #[]
  taken := 0

def isMarked (marking : Marking) (atom : Nat) : Bool :=
  marking.marked.getD atom false

def mark (marking : Marking) (atom : Nat) : Marking :=
  if unmarked : marking.marked[atom]? = some false then
    { marking with
      marked := marking.marked.set atom true (Array.getElem?_eq_some_iff.mp unmarked).1
      trail := marking.trail.push atom }
  else marking

/-- Marks an atom given by itself, if it occurs. -/
def markAtom (index : Index) (atom : Atom) (marking : Marking) : Marking :=
  match index.numbers[atom]? with
  | none => marking
  | some number => marking.mark number

def falsumMarked (index : Index) (marking : Marking) : Bool :=
  match index.numbers[Atom.falsum]? with
  | none => false
  | some number => marking.isMarked number

def markFacts (index : Index) (marking : Marking) : Marking :=
  (index.premiseSizes.zip index.conclusions).foldl (fun marking (premiseSize, conclusion) =>
    if premiseSize = 0 then marking.mark conclusion else marking) marking

/-- Counts one atom of a clause's premise as taken. -/
def countDown (index : Index) (marking : Marking) (clause : Nat) : Marking :=
  let left := marking.missing.getD clause 0 - 1
  let counted := { marking with missing := marking.missing.setIfInBounds clause left }
  if left = 0 then
    match index.conclusions[clause]? with
    | none => counted
    | some conclusion => counted.mark conclusion
  else counted

def take (index : Index) (marking : Marking) (waiting : marking.taken < marking.trail.size) :
    Marking :=
  let atom := marking.trail[marking.taken]
  (index.watches.getD atom #[]).foldl (countDown index) { marking with taken := marking.taken + 1 }

/-- Atoms still to be marked and atoms on the trail; marking moves an atom from the former to the
latter. -/
def credit (marking : Marking) : Nat :=
  marking.marked.count false + marking.trail.size

theorem taken_mark (marking : Marking) (atom : Nat) :
    (marking.mark atom).taken = marking.taken := by
  unfold mark
  split <;> rfl

theorem credit_mark (marking : Marking) (atom : Nat) :
    (marking.mark atom).credit = marking.credit := by
  unfold mark
  split
  · rename_i unmarked
    obtain ⟨inside, value⟩ := Array.getElem?_eq_some_iff.mp unmarked
    have someUnmarked : 0 < marking.marked.count false :=
      Array.count_pos_iff.mpr (value ▸ Array.getElem_mem inside)
    simp only [credit, Array.count_set, value, Array.size_push]
    simp
    omega
  · rfl

theorem taken_countDown (index : Index) (marking : Marking) (clause : Nat) :
    (marking.countDown index clause).taken = marking.taken := by
  dsimp only [countDown]
  split
  · split
    · rfl
    · exact taken_mark _ _
  · rfl

theorem credit_countDown (index : Index) (marking : Marking) (clause : Nat) :
    (marking.countDown index clause).credit = marking.credit := by
  dsimp only [countDown]
  split
  · split
    · rfl
    · exact credit_mark _ _
  · rfl

theorem taken_take (index : Index) (marking : Marking)
    (waiting : marking.taken < marking.trail.size) :
    (marking.take index waiting).taken = marking.taken + 1 := by
  have start : ({ marking with taken := marking.taken + 1 } : Marking).taken = marking.taken + 1 := rfl
  dsimp only [take]
  apply Array.foldl_induction (fun _ (reached : Marking) => reached.taken = marking.taken + 1) start
  intro place reached ih
  rw [taken_countDown, ih]

theorem credit_take (index : Index) (marking : Marking)
    (waiting : marking.taken < marking.trail.size) :
    (marking.take index waiting).credit = marking.credit := by
  have start : ({ marking with taken := marking.taken + 1 } : Marking).credit = marking.credit := rfl
  dsimp only [take]
  apply Array.foldl_induction (fun _ (reached : Marking) => reached.credit = marking.credit) start
  intro place reached ih
  rw [credit_countDown, ih]

theorem taken_lt_credit (marking : Marking) (waiting : marking.taken < marking.trail.size) :
    marking.taken < marking.credit :=
  Nat.lt_of_lt_of_le waiting (Nat.le_add_left ..)

/-- Takes atoms until none waits. Once falsum is marked nothing more is needed. -/
def propagate (index : Index) (marking : Marking) : Marking :=
  if waiting : marking.taken < marking.trail.size then
    if marking.falsumMarked index then marking
    else (marking.take index waiting).propagate index
  else marking
termination_by marking.credit - marking.taken
decreasing_by
  have more := marking.taken_lt_credit waiting
  rw [credit_take, taken_take]
  omega

/-- The marking that propagation starts from has verum and the facts. -/
def start (index : Index) : Marking :=
  ((blank index).markAtom index .verum).markFacts index

/-- The marking of a whole formula: what it starts from, and then what follows. -/
def saturate (index : Index) : Marking :=
  (start index).propagate index

end Marking
end HornLogic
