import HornLogic.Proofs.Formula.LeastModel
import Mathlib.Data.List.Perm.Subperm

/-!
# Solutions of different formulas

A row that is closed under the clauses of a formula is closed under fewer clauses too, so it has all that
these force. More clauses therefore leave an unsatisfiable formula so, and make no atom false on the
solution (`solve_of_larger`). Formulas with the same clauses are compared both ways: nothing is left of
the order in which their clauses were added (`solve_ofList_eq`).
-/
namespace HornLogic

set_option autoImplicit false

variable {formula larger : Formula}

namespace Formula

theorem beq_eq_true_iff {left right : Formula} :
    (left == right) = true ↔ ∀ clause, clause ∈ left ↔ clause ∈ right := by
  change (left.size == right.size && left.clauses.all right.contains) = true ↔ _
  rw [Bool.and_eq_true, beq_iff_eq, Array.all_eq_true_iff_forall_mem]
  simp only [contains_eq_true_iff, mem_def, size, ← Array.length_toList, ← Array.mem_toList_iff]
  constructor
  · intro ⟨sizes, within⟩
    have part := List.subperm_of_subset left.distinct within
    have arranged := part.perm_of_length_le (Nat.le_of_eq sizes.symm)
    exact fun clause => arranged.mem_iff
  · intro same
    have arranged := (List.perm_ext_iff_of_nodup left.distinct right.distinct).mpr same
    exact ⟨arranged.length_eq, fun clause => (same clause).mp⟩

theorem Satisfiable.of_larger (clauses : ∀ clause ∈ formula, clause ∈ larger)
    (satisfiable : larger.Satisfiable) : formula.Satisfiable := by
  obtain ⟨valuation, model⟩ := satisfiable
  exact ⟨valuation, model.standard, holds_of_larger clauses model.holds⟩

theorem Closed.of_larger {order : List Atom} (clauses : ∀ clause ∈ formula, clause ∈ larger)
    (closed : larger.Closed order) : formula.Closed order :=
  fun clause member => closed clause (clauses clause member)

theorem mem_atoms_of_larger (clauses : ∀ clause ∈ formula, clause ∈ larger) {atom : Atom}
    (occurs : atom ∈ formula.atoms) : atom ∈ larger.atoms := by
  obtain ⟨clause, member, listed⟩ := mem_atoms.mp occurs
  exact mem_atoms.mpr ⟨clause, clauses clause member, listed⟩

theorem mem_given_of_larger (clauses : ∀ clause ∈ formula, clause ∈ larger) {atom : Atom}
    (member : atom ∈ formula.given) : atom ∈ larger.given := by
  obtain ⟨verum, occurs⟩ := mem_given.mp member
  exact mem_given.mpr ⟨verum, mem_atoms_of_larger clauses occurs⟩

end Formula

namespace Solution.RestsOn

variable {order wider : List Atom} {solution : Solution} {model : Assignment}

theorem closed (rests : (satisfiable model).RestsOn formula order) : formula.Closed order := by
  cases rests.reports with
  | satisfiable _ consistent closed values => exact closed

theorem mem_model (rests : (satisfiable model).RestsOn formula order) {atom : Atom} {value : Bool} :
    (atom, value) ∈ model ↔ atom ∈ formula.atoms ∧ value = decide (atom ∈ order) := by
  cases rests.reports with
  | satisfiable _ consistent closed values => exact values atom value

/-- What fewer clauses force is among the atoms that are true on a solution of more. -/
theorem listed_of_larger (rests : solution.RestsOn formula order)
    (restsLarger : (satisfiable model).RestsOn larger wider)
    (clauses : ∀ clause ∈ formula, clause ∈ larger) : ∀ atom ∈ order, atom ∈ wider := by
  apply rests.forced.subset_of_closed (restsLarger.closed.of_larger clauses)
  intro atom member
  exact restsLarger.givenListed atom (Formula.mem_given_of_larger clauses member)

/-- Solutions of formulas with the same clauses are the same, whatever rows they rest on. -/
theorem solution_eq {otherOrder : List Atom} {otherSolution : Solution}
    (rests : solution.RestsOn formula order) (otherRests : otherSolution.RestsOn larger otherOrder)
    (same : ∀ clause, clause ∈ formula ↔ clause ∈ larger) : solution = otherSolution := by
  have rightward : ∀ clause ∈ formula, clause ∈ larger := fun clause => (same clause).mp
  have leftward : ∀ clause ∈ larger, clause ∈ formula := fun clause => (same clause).mpr
  cases solution with
  | unsatisfiable =>
      have noModel := rests.eq_unsatisfiable_iff.mp rfl
      exact (otherRests.eq_unsatisfiable_iff.mpr fun model => noModel (model.of_larger rightward)).symm
  | satisfiable model =>
      cases otherSolution with
      | unsatisfiable =>
          have noModel := otherRests.eq_unsatisfiable_iff.mp rfl
          exact rests.eq_unsatisfiable_iff.mpr fun model => noModel (model.of_larger leftward)
      | satisfiable other =>
          have models : model = other := by
            apply SortedBy.ext_of_mem
            intro ⟨atom, value⟩
            have atoms : atom ∈ formula.atoms ↔ atom ∈ larger.atoms :=
              ⟨Formula.mem_atoms_of_larger rightward, Formula.mem_atoms_of_larger leftward⟩
            have listed : atom ∈ order ↔ atom ∈ otherOrder :=
              ⟨rests.listed_of_larger otherRests rightward atom,
                otherRests.listed_of_larger rests leftward atom⟩
            rw [rests.mem_model, otherRests.mem_model, atoms, decide_eq_decide.mpr listed]
          rw [models]

end Solution.RestsOn

namespace Formula

theorem solve_unsatisfiable_of_larger (clauses : ∀ clause ∈ formula, clause ∈ larger)
    (unsatisfiable : formula.solve = .unsatisfiable) : larger.solve = .unsatisfiable := by
  rw [solve_eq_unsatisfiable_iff] at unsatisfiable ⊢
  exact fun satisfiable => unsatisfiable (satisfiable.of_larger clauses)

theorem exists_solve_of_larger {model : Assignment} (clauses : ∀ clause ∈ formula, clause ∈ larger)
    (solved : larger.solve = .satisfiable model) :
    ∃ smaller, formula.solve = .satisfiable smaller ∧
      ∀ atom ∈ smaller.trueAtoms, atom ∈ model.trueAtoms := by
  cases solvedFormula : formula.solve with
  | unsatisfiable =>
      rw [solve_unsatisfiable_of_larger clauses solvedFormula] at solved
      cases solved
  | satisfiable smaller =>
      obtain ⟨order, rests⟩ := formula.restsOn_solve
      obtain ⟨wider, restsLarger⟩ := larger.restsOn_solve
      rw [solvedFormula] at rests
      rw [solved] at restsLarger
      refine ⟨smaller, rfl, ?_⟩
      intro atom trueAtom
      have forced := rests.mem_trueAtoms.mp trueAtom
      exact restsLarger.mem_trueAtoms.mpr (rests.listed_of_larger restsLarger clauses atom forced)

theorem solve_congr {left right : Formula} (same : ∀ clause, clause ∈ left ↔ clause ∈ right) :
    left.solve = right.solve := by
  obtain ⟨order, rests⟩ := left.restsOn_solve
  obtain ⟨otherOrder, otherRests⟩ := right.restsOn_solve
  exact rests.solution_eq otherRests same

/-- More clauses neither make a formula satisfiable nor a true atom of its solution false. -/
theorem solve_of_larger (clauses : ∀ clause ∈ formula, clause ∈ larger) :
    (formula.solve = .unsatisfiable → larger.solve = .unsatisfiable) ∧
      ∀ model, larger.solve = .satisfiable model →
        ∃ smaller, formula.solve = .satisfiable smaller ∧
          ∀ atom ∈ smaller.trueAtoms, atom ∈ model.trueAtoms :=
  ⟨solve_unsatisfiable_of_larger clauses, fun _ => exists_solve_of_larger clauses⟩

/-- One added clause brings verum into the formula, which makes a premise true that was not before. -/
theorem solve_of_larger_verum :
    let formula := ofList [.ofList [.named "a"] (.named "b"), .fact (.named "c")]
    let larger := ofList [
      .ofList [.verum] (.named "a"), .fact (.named "c"), .ofList [.named "a"] (.named "b")]
    let model : Assignment := SortedBy.ofList [
      (.verum, true), (.named "a", true), (.named "b", true), (.named "c", true)]
    (∀ clause ∈ formula, clause ∈ larger) ∧ larger.solve = .satisfiable model ∧
      ∃ smaller, formula.solve = .satisfiable smaller ∧
        ∀ atom ∈ smaller.trueAtoms, atom ∈ model.trueAtoms := by
  intro formula larger model
  have clauses : ∀ clause ∈ formula, clause ∈ larger := by
    simp only [formula, larger, mem_ofList]
    simp
  have solved : larger.solve = .satisfiable model := by decide +kernel
  exact ⟨clauses, solved, (solve_of_larger clauses).2 model solved⟩

theorem solve_ofList_eq {left right : List Clause} (same : ∀ clause, clause ∈ left ↔ clause ∈ right) :
    (ofList left == ofList right) = true ∧ (ofList left).solve = (ofList right).solve := by
  have members : ∀ clause, clause ∈ ofList left ↔ clause ∈ ofList right := by
    intro clause
    rw [mem_ofList, mem_ofList, same clause]
  exact ⟨beq_eq_true_iff.mpr members, solve_congr members⟩

/-- Falsum is met first or last, and one clause is given twice. -/
theorem solve_ofList_eq_reversed :
    let left : List Clause := [.fact .falsum, .fact (.named "a"), .ofList [.named "a"] (.named "b")]
    let right : List Clause := [
      .ofList [.named "a"] (.named "b"), .fact (.named "a"), .fact .falsum, .fact (.named "a")]
    (∀ clause, clause ∈ left ↔ clause ∈ right) ∧ (ofList left).clauses ≠ (ofList right).clauses ∧
      (ofList left == ofList right) = true ∧ (ofList left).solve = (ofList right).solve := by
  intro left right
  have same : ∀ clause, clause ∈ left ↔ clause ∈ right := by
    intro clause
    simp only [left, right, List.mem_cons, List.not_mem_nil]
    grind
  exact ⟨same, by decide +kernel, solve_ofList_eq same⟩

end Formula
end HornLogic
