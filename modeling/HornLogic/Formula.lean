import HornLogic.Clause

/-!
# Horn formulas

A formula is the conjunction of a set of clauses. The clauses are kept in the order they were
first added, and adding one again has no effect (`Formula.mem_insert`).
-/
namespace HornLogic

set_option autoImplicit false

structure Formula where
  clauses : Array Clause
  distinct : clauses.toList.Nodup

namespace Formula

def empty : Formula where
  clauses := #[]
  distinct := .nil

instance : Inhabited Formula := ⟨empty⟩

instance : EmptyCollection Formula := ⟨empty⟩

instance : Membership Clause Formula where
  mem formula clause := clause ∈ formula.clauses

theorem mem_def {clause : Clause} {formula : Formula} :
    clause ∈ formula ↔ clause ∈ formula.clauses :=
  Iff.rfl

def size (formula : Formula) : Nat :=
  formula.clauses.size

def isEmpty (formula : Formula) : Bool :=
  formula.clauses.isEmpty

def contains (formula : Formula) (clause : Clause) : Bool :=
  formula.clauses.contains clause

theorem contains_eq_true_iff {formula : Formula} {clause : Clause} :
    formula.contains clause = true ↔ clause ∈ formula := by
  rw [contains, mem_def, Array.contains_iff_mem]

/-- The formula with a clause, and whether the clause was not in it before. -/
def add (formula : Formula) (clause : Clause) : Formula × Bool :=
  if known : formula.contains clause = true then (formula, false)
  else
    let extended : Formula := {
      clauses := formula.clauses.push clause
      distinct := by
        rw [Array.toList_push, List.nodup_append]
        refine ⟨formula.distinct, List.pairwise_singleton .., ?_⟩
        intro other member lastClause last same
        rw [same, List.mem_singleton.mp last] at member
        exact known (contains_eq_true_iff.mpr (Array.mem_toList_iff.mp member)) }
    (extended, true)

def insert (formula : Formula) (clause : Clause) : Formula :=
  (formula.add clause).1

def extend (formula : Formula) (clauses : List Clause) : Formula :=
  clauses.foldl insert formula

def ofList (clauses : List Clause) : Formula :=
  empty.extend clauses

def atoms (formula : Formula) : AtomSet :=
  .ofList (formula.clauses.toList.flatMap Clause.atoms)

/-- The first clause that is false on a valuation. -/
def unsatisfied? (formula : Formula) (valuation : Valuation) : Option Clause :=
  formula.clauses.find? fun clause => !clause.holds valuation

def holds (valuation : Valuation) (formula : Formula) : Bool :=
  formula.clauses.all (Clause.holds valuation)

/-- Two formulas are the same when they have the same clauses, in whatever order. -/
instance : BEq Formula where
  beq left right := left.size == right.size && left.clauses.all right.contains

def render (formula : Formula) : String :=
  " ∧ ".intercalate (formula.clauses.toList.map Clause.render)

theorem add_snd (formula : Formula) (clause : Clause) :
    (formula.add clause).2 = !formula.contains clause := by
  unfold add
  split
  · rename_i known
    rw [known]
    rfl
  · rename_i unknown
    simp [unknown]

theorem clauses_insert (formula : Formula) (clause : Clause) :
    (formula.insert clause).clauses =
      if formula.contains clause then formula.clauses else formula.clauses.push clause := by
  unfold insert add
  split <;> simp

theorem mem_insert {formula : Formula} {clause other : Clause} :
    other ∈ formula.insert clause ↔ other = clause ∨ other ∈ formula := by
  rw [mem_def, clauses_insert]
  split
  · rename_i known
    have member := contains_eq_true_iff.mp known
    constructor
    · exact .inr
    · intro found
      rcases found with rfl | found
      · exact member
      · exact found
  · rw [Array.mem_push, mem_def]
    exact or_comm

theorem mem_extend {formula : Formula} {clauses : List Clause} {clause : Clause} :
    clause ∈ formula.extend clauses ↔ clause ∈ formula ∨ clause ∈ clauses := by
  induction clauses generalizing formula with
  | nil => simp [extend]
  | cons first rest ih =>
      rw [extend, List.foldl_cons, ← extend, ih, mem_insert, List.mem_cons]
      grind

theorem mem_ofList {clauses : List Clause} {clause : Clause} :
    clause ∈ ofList clauses ↔ clause ∈ clauses := by
  rw [ofList, mem_extend]
  simp [mem_def, empty]

theorem mem_atoms {formula : Formula} {atom : Atom} :
    atom ∈ formula.atoms ↔ ∃ clause ∈ formula, atom ∈ clause.atoms := by
  rw [atoms, SortedBy.mem_ofList, List.mem_flatMap]
  simp [mem_def]

theorem holds_eq_true_iff {valuation : Valuation} {formula : Formula} :
    formula.holds valuation = true ↔ ∀ clause ∈ formula, clause.holds valuation = true := by
  simp only [holds, Array.all_eq_true_iff_forall_mem, mem_def]

theorem holds_of_larger {valuation : Valuation} {formula larger : Formula}
    (clauses : ∀ clause ∈ formula, clause ∈ larger) (holds : larger.holds valuation = true) :
    formula.holds valuation = true := by
  apply holds_eq_true_iff.mpr
  exact fun clause member => holds_eq_true_iff.mp holds clause (clauses clause member)

theorem unsatisfied?_eq_none_iff {valuation : Valuation} {formula : Formula} :
    formula.unsatisfied? valuation = none ↔ formula.holds valuation = true := by
  rw [unsatisfied?, Array.find?_eq_none, holds_eq_true_iff]
  simp [mem_def]

end Formula
end HornLogic
