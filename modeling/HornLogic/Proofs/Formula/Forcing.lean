import HornLogic.Formula.Model
import Mathlib.Data.List.Induction

/-!
# Forced atoms

From some given atoms a formula forces others one by one, each the conclusion of a clause whose premise
is there already (`Formula.Forces`). Forced atoms are true wherever the formula and the given atoms are
(`Forces.true_on`), and a row that is closed under the clauses is itself a valuation that makes the
formula true (`holds_iff_closed`). The two together make a closed row of forced atoms the least one.
-/
namespace HornLogic.Formula

set_option autoImplicit false

/-- The atoms that are true before any clause is looked at. -/
def given (formula : Formula) : AtomSet :=
  if formula.atoms.contains .verum then .ofList [.verum] else .empty

theorem mem_given {formula : Formula} {atom : Atom} :
    atom ∈ formula.given ↔ atom = .verum ∧ .verum ∈ formula.atoms := by
  unfold given
  split
  · rename_i occurs
    rw [SortedBy.mem_ofList, List.mem_singleton]
    simp [SortedBy.contains_eq_true_iff.mp occurs]
  · rename_i absent
    have missing : Atom.verum ∉ formula.atoms := fun occurs =>
      absent (SortedBy.contains_eq_true_iff.mpr occurs)
    simp [missing, SortedBy.not_mem_empty]

theorem mem_atoms_of_premise {formula : Formula} {clause : Clause} {atom : Atom}
    (member : clause ∈ formula) (needed : atom ∈ clause.premise) : atom ∈ formula.atoms :=
  mem_atoms.mpr ⟨clause, member, List.mem_append_left _ needed⟩

theorem conclusion_mem_atoms {formula : Formula} {clause : Clause} (member : clause ∈ formula) :
    clause.conclusion ∈ formula.atoms :=
  mem_atoms.mpr ⟨clause, member, List.mem_append_right _ (List.mem_singleton_self _)⟩

inductive Forces (formula : Formula) (start : AtomSet) : List Atom → Prop where
  | nil : Forces formula start []
  | given {order : List Atom} {atom : Atom} (forced : Forces formula start order)
      (member : atom ∈ start) : Forces formula start (order ++ [atom])
  | conclusion {order : List Atom} {clause : Clause} (forced : Forces formula start order)
      (member : clause ∈ formula) (premise : ∀ atom ∈ clause.premise, atom ∈ order) :
      Forces formula start (order ++ [clause.conclusion])

/-- No clause has its whole premise in the row and its conclusion outside. -/
def Closed (formula : Formula) (order : List Atom) : Prop :=
  ∀ clause ∈ formula, (∀ atom ∈ clause.premise, atom ∈ order) → clause.conclusion ∈ order

theorem holds_iff_closed {formula : Formula} {order : List Atom} :
    formula.holds (fun atom => decide (atom ∈ order)) = true ↔ formula.Closed order := by
  simp only [holds_eq_true_iff, Clause.holds_eq_true_iff, decide_eq_true_eq, Closed]

namespace Forces

variable {formula : Formula} {start : AtomSet} {order : List Atom}

theorem true_on (forced : formula.Forces start order) {valuation : Valuation}
    (holds : formula.holds valuation = true)
    (startTrue : ∀ atom ∈ start, valuation atom = true) :
    ∀ atom ∈ order, valuation atom = true := by
  induction forced with
  | nil => simp
  | given forced member ih =>
      intro atom listed
      rcases List.mem_append.mp listed with old | new
      · exact ih atom old
      · rw [List.mem_singleton.mp new]
        exact startTrue _ member
  | @conclusion order clause forced member premise ih =>
      intro atom listed
      rcases List.mem_append.mp listed with old | new
      · exact ih atom old
      · rw [List.mem_singleton.mp new]
        have clauseHolds := holds_eq_true_iff.mp holds clause member
        exact Clause.holds_eq_true_iff.mp clauseHolds fun needed listed =>
          ih needed (premise needed listed)

/-- A closed row that has the given atoms has everything forced. -/
theorem subset_of_closed (forced : formula.Forces start order) {other : List Atom}
    (closed : formula.Closed other) (startListed : ∀ atom ∈ start, atom ∈ other) :
    ∀ atom ∈ order, atom ∈ other := by
  have listed := forced.true_on (holds_iff_closed.mpr closed) fun atom member =>
    decide_eq_true (startListed atom member)
  exact fun atom member => of_decide_eq_true (listed atom member)

/-- All that is given comes before what it forces. -/
theorem of_start (formula : Formula) {start : AtomSet} {order : List Atom}
    (members : ∀ atom ∈ order, atom ∈ start) : formula.Forces start order := by
  induction order using List.reverseRecOn with
  | nil => exact .nil
  | append_singleton order atom ih =>
      have earlier := ih fun other listed => members other (List.mem_append_left [atom] listed)
      exact .given earlier (members atom (by simp))

theorem mem_atoms (forced : formula.Forces formula.given order) :
    ∀ atom ∈ order, atom ∈ formula.atoms := by
  have holds : formula.holds formula.atoms.valuation = true := by
    apply holds_eq_true_iff.mpr
    intro clause member
    apply Clause.holds_eq_true_iff.mpr
    intro _
    exact AtomSet.valuation_eq_true_iff.mpr (conclusion_mem_atoms member)
  have givenTrue : ∀ atom ∈ formula.given, formula.atoms.valuation atom = true := by
    intro atom member
    obtain ⟨rfl, occurs⟩ := mem_given.mp member
    exact AtomSet.valuation_eq_true_iff.mpr occurs
  intro atom listed
  exact AtomSet.valuation_eq_true_iff.mp (forced.true_on holds givenTrue atom listed)

theorem true_on_model (forced : formula.Forces formula.given order) {valuation : Valuation}
    (model : formula.IsModel valuation) : ∀ atom ∈ order, valuation atom = true :=
  forced.true_on model.holds fun atom member => by
    rw [(mem_given.mp member).1]
    exact model.standard.1

theorem falsum_not_mem (forced : formula.Forces formula.given order)
    (satisfiable : formula.Satisfiable) : Atom.falsum ∉ order := by
  intro inconsistent
  obtain ⟨valuation, model⟩ := satisfiable
  have falsumTrue := forced.true_on_model model .falsum inconsistent
  rw [model.standard.2] at falsumTrue
  cases falsumTrue

end Forces

/-- Where verum does not occur it can be made true beside a closed row. -/
theorem isModel_of_closed {formula : Formula} {order : List Atom} (closed : formula.Closed order)
    (givenListed : ∀ atom ∈ formula.given, atom ∈ order) (consistent : Atom.falsum ∉ order) :
    formula.IsModel fun atom => decide (atom = .verum ∨ atom ∈ order) := by
  have standard : Valuation.IsStandard fun atom => decide (atom = .verum ∨ atom ∈ order) := by
    constructor
    · simp
    · simp [consistent]
  constructor
  · exact standard
  · rw [holds_eq_true_iff]
    intro clause member
    simp only [Clause.holds_eq_true_iff, decide_eq_true_eq]
    intro premise
    apply Or.inr
    apply closed clause member
    intro atom needed
    rcases premise atom needed with rfl | listed
    · exact givenListed .verum (mem_given.mpr ⟨rfl, mem_atoms_of_premise member needed⟩)
    · exact listed

end HornLogic.Formula
