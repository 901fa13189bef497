import HornLogic.Formula.Solve
import HornLogic.Proofs.Propagation.Bookkeeping

/-!
# The least model

Propagation ends with a row of forced atoms that has falsum or is closed under the clauses. In the first
case no model exists, and in the second the row is the least one. It follows that a formula is found
unsatisfiable exactly when it has no model (`solve_eq_unsatisfiable_iff`), and that the assignment found
otherwise is the least model over the atoms of the formula (`isLeastModel_of_solve`).
-/
namespace HornLogic

set_option autoImplicit false

namespace Marking.AtHead

variable {formula : Formula} {index : Index} {order : List Atom} {marking : Marking}

/-- Exactly the atoms of the formula have values, and the forced ones are true. -/
theorem mem_assignment (head : marking.AtHead formula index order)
    (described : index.Describes formula.clauses.toList) {atom : Atom} {value : Bool} :
    (atom, value) ∈ marking.assignment index ↔
      atom ∈ formula.atoms ∧ value = decide (atom ∈ order) := by
  have apart : (index.atoms.toList.zip marking.marked.toList).Pairwise fun left right =>
      compare left.1 right.1 ≠ .eq := by
    have keys : ((index.atoms.toList.zip marking.marked.toList).map Prod.fst).Nodup := by
      rw [List.map_fst_zip (by simp [head.records.markedSize])]
      exact described.nodup_atoms
    apply (List.pairwise_map.mp keys).imp
    intro left right different same
    exact different (Std.LawfulEqCmp.eq_of_compare same)
  rw [assignment, SortedBy.mem_ofList_of_apart apart, List.mem_iff_getElem?]
  simp only [List.getElem?_zip_eq_some, Array.getElem?_toList]
  constructor
  · intro ⟨number, place, marked⟩
    rw [head.records.marked number atom place] at marked
    exact ⟨described.mem_atoms.mpr ⟨number, place⟩, (Option.some.inj marked).symm⟩
  · intro ⟨occurs, reported⟩
    have place := described.getElem?_number occurs
    rw [reported]
    exact ⟨index.number atom, place, head.records.marked _ atom place⟩

end Marking.AtHead

/-- A solution says of a row of atoms that it has falsum, or that it is closed and which of the atoms of
the formula it has. -/
inductive Solution.Reports (formula : Formula) (order : List Atom) : Solution → Prop where
  | unsatisfiable (inconsistent : Atom.falsum ∈ order) : Reports formula order .unsatisfiable
  | satisfiable (model : Assignment) (consistent : Atom.falsum ∉ order)
      (closed : formula.Closed order)
      (values : ∀ atom value,
        (atom, value) ∈ model ↔ atom ∈ formula.atoms ∧ value = decide (atom ∈ order)) :
      Reports formula order (.satisfiable model)

structure Solution.RestsOn (formula : Formula) (order : List Atom) (solution : Solution) : Prop where
  forced : formula.Forces formula.given order
  givenListed : ∀ atom ∈ formula.given, atom ∈ order
  reports : solution.Reports formula order

namespace Marking

variable {formula : Formula} {index : Index} {order : List Atom} {marking : Marking}

theorem AtHead.restsOn_solution (head : marking.AtHead formula index order)
    (described : index.Describes formula.clauses.toList)
    (ended : marking.falsumMarked index = true ∨ ¬ marking.taken < marking.trail.size) :
    (marking.solution index).RestsOn formula order := by
  have falsumIff := head.falsumMarked_iff described
  constructor
  · exact head.records.forced
  · exact head.givenMarked
  · rw [solution]
    split
    · rename_i marked
      exact .unsatisfiable (falsumIff.mp marked)
    · rename_i unmarked
      have consistent : Atom.falsum ∉ order := fun listed => unmarked (falsumIff.mpr listed)
      have closed := head.closed (ended.resolve_left unmarked)
      exact .satisfiable _ consistent closed fun _ _ => head.mem_assignment described

end Marking

theorem Formula.restsOn_solve (formula : Formula) :
    ∃ order, formula.solve.RestsOn formula order := by
  have described := Index.Describes.ofFormula formula
  let index := Index.ofFormula formula
  obtain ⟨first, firstHead⟩ := Marking.atHead_start described
  have run := Marking.reaches_propagate index (Marking.start index)
  obtain ⟨order, -, head⟩ := firstHead.of_reaches described run
  exact ⟨order, head.restsOn_solution described (Marking.propagate_stops index (Marking.start index))⟩

/-- The least model of a formula, with values for the atoms of the formula alone. -/
structure Assignment.IsLeastModel (formula : Formula) (model : Assignment) : Prop where
  ascending : model.atoms.Pairwise fun left right => compare left right = .lt
  atomsEq : model.atoms = formula.atoms.toList
  satisfies : model.satisfies formula = true
  verumTrue : Atom.verum ∈ formula.atoms → model.value? .verum = some true
  falsumFalse : Atom.falsum ∈ formula.atoms → model.value? .falsum = some false
  least : ∀ valuation, formula.IsModel valuation →
    ∀ atom ∈ model.trueAtoms, valuation atom = true

namespace Solution.RestsOn

variable {formula : Formula} {order : List Atom} {solution : Solution} {model : Assignment}

theorem eq_unsatisfiable_iff (rests : solution.RestsOn formula order) :
    solution = .unsatisfiable ↔ ¬ formula.Satisfiable := by
  cases rests.reports with
  | unsatisfiable inconsistent =>
      apply iff_of_true rfl
      intro satisfiable
      exact rests.forced.falsum_not_mem satisfiable inconsistent
  | satisfiable model consistent closed values =>
      apply iff_of_false
      · intro same
        cases same
      · intro noModel
        exact noModel ⟨_, Formula.isModel_of_closed closed rests.givenListed consistent⟩

theorem mem_trueAtoms (rests : (satisfiable model).RestsOn formula order) {atom : Atom} :
    atom ∈ model.trueAtoms ↔ atom ∈ order := by
  cases rests.reports with
  | satisfiable _ consistent closed values =>
      rw [Assignment.mem_trueAtoms, values]
      have occurs := rests.forced.mem_atoms atom
      simpa [eq_comm] using occurs

theorem valuation_eq (rests : (satisfiable model).RestsOn formula order) :
    model.valuation = fun atom => decide (atom ∈ order) := by
  funext atom
  rw [Bool.eq_iff_iff, Assignment.valuation_eq_true_iff, ← Assignment.mem_trueAtoms,
    rests.mem_trueAtoms, decide_eq_true_eq]

theorem isLeastModel (rests : (satisfiable model).RestsOn formula order) :
    model.IsLeastModel formula := by
  cases rests.reports with
  | satisfiable _ consistent closed values =>
      constructor
      · exact model.ascending_atoms
      · apply SortedBy.eq_toList_of_mem model.ascending_atoms
        intro atom
        rw [Assignment.mem_atoms]
        simp [values]
      · rw [Assignment.satisfies, rests.valuation_eq]
        exact Formula.holds_iff_closed.mpr closed
      · intro occurs
        have listed := rests.givenListed .verum (Formula.mem_given.mpr ⟨rfl, occurs⟩)
        rw [Assignment.value?_eq_some_iff, values]
        simp [occurs, listed]
      · intro occurs
        rw [Assignment.value?_eq_some_iff, values]
        simp [occurs, consistent]
      · intro valuation valuationModel atom trueAtom
        apply rests.forced.true_on_model valuationModel
        exact rests.mem_trueAtoms.mp trueAtom

end Solution.RestsOn

namespace Formula

theorem solve_eq_unsatisfiable_iff (formula : Formula) :
    formula.solve = .unsatisfiable ↔ ¬ formula.Satisfiable := by
  obtain ⟨order, rests⟩ := formula.restsOn_solve
  exact rests.eq_unsatisfiable_iff

theorem isLeastModel_of_solve (formula : Formula) (model : Assignment)
    (solved : formula.solve = .satisfiable model) : model.IsLeastModel formula := by
  obtain ⟨order, rests⟩ := formula.restsOn_solve
  rw [solved] at rests
  exact rests.isLeastModel

/-- The atoms of a loop are false on the least model, though there is a model where they are true. -/
theorem isLeastModel_of_solve_loop :
    let formula := ofList [
      .ofList [.verum] (.named "a"), .ofList [.named "a", .named "b"] .falsum,
      .ofList [.named "b"] (.named "c"), .ofList [.named "c"] (.named "b"),
      .ofList [.falsum] (.named "b")]
    let model : Assignment := SortedBy.ofList [
      (.verum, true), (.falsum, false), (.named "a", true), (.named "b", false),
      (.named "c", false)]
    formula.solve = .satisfiable model ∧ model.IsLeastModel formula := by
  intro formula model
  have solved : formula.solve = .satisfiable model := by decide +kernel
  exact ⟨solved, isLeastModel_of_solve formula model solved⟩

end Formula
end HornLogic
