import HornLogic.Proofs.Formula.Comparison
import HornLogic.Proofs.Formula.Firing

/-!
# One more clause

A clause is added to a formula that has a least model. If the clause is true where the true atoms of the
model and verum are, it forces nothing that was not forced, and the new least model differs from the old one
by atoms that are new. If it is false there, its conclusion was not forced and now is (`solve_insert`).
Verum counts as true even where the formula does not have it, since the added clause may bring it in.
-/
namespace HornLogic

set_option autoImplicit false

/-- The atoms that are true on an assignment, and verum. -/
def Assignment.truths (model : Assignment) : AtomSet :=
  .ofList (.verum :: model.trueAtoms)

variable {formula : Formula} {clause : Clause}

namespace Formula

theorem mem_atoms_insert {atom : Atom} :
    atom ∈ (formula.insert clause).atoms ↔ atom ∈ formula.atoms ∨ atom ∈ clause.atoms := by
  simp only [mem_atoms, mem_insert]
  constructor
  · intro ⟨other, member, listed⟩
    rcases member with rfl | old
    · exact .inr listed
    · exact .inl ⟨other, old, listed⟩
  · intro occurs
    rcases occurs with ⟨other, old, listed⟩ | listed
    · exact ⟨other, .inr old, listed⟩
    · exact ⟨clause, .inl rfl, listed⟩

theorem mem_insert_of_mem : ∀ other ∈ formula, other ∈ formula.insert clause :=
  fun _ old => mem_insert.mpr (.inr old)

theorem holds_insert {valuation : Valuation} :
    (formula.insert clause).holds valuation = true ↔
      clause.holds valuation = true ∧ formula.holds valuation = true := by
  simp only [holds_eq_true_iff, mem_insert, forall_eq_or_imp]

end Formula

namespace Solution.RestsOn

variable {order wider : List Atom} {model grown : Assignment}

theorem mem_truths (rests : (satisfiable model).RestsOn formula order) {atom : Atom} :
    atom ∈ model.truths ↔ atom = .verum ∨ atom ∈ order := by
  rw [Assignment.truths, SortedBy.mem_ofList, List.mem_cons, rests.mem_trueAtoms]

theorem value?_eq (rests : (satisfiable model).RestsOn formula order) {atom : Atom}
    (occurs : atom ∈ formula.atoms) : model.value? atom = some (decide (atom ∈ order)) := by
  rw [Assignment.value?_eq_some_iff, rests.mem_model]
  exact ⟨occurs, rfl⟩

theorem verum_listed {solution : Solution} (rests : solution.RestsOn formula order)
    (occurs : Atom.verum ∈ formula.atoms) : Atom.verum ∈ order :=
  rests.givenListed .verum (Formula.mem_given.mpr ⟨rfl, occurs⟩)

theorem isModel_truths (rests : (satisfiable model).RestsOn formula order) :
    formula.IsModel model.truths.valuation := by
  have valuation : model.truths.valuation = fun atom => decide (atom = .verum ∨ atom ∈ order) := by
    funext atom
    rw [Bool.eq_iff_iff, AtomSet.valuation_eq_true_iff, rests.mem_truths, decide_eq_true_eq]
  cases rests.reports with
  | satisfiable _ consistent closed values =>
      rw [valuation]
      exact Formula.isModel_of_closed closed rests.givenListed consistent

theorem isModel_insert (rests : (satisfiable model).RestsOn formula order)
    (inactive : clause.holds model.truths.valuation = true) :
    (formula.insert clause).IsModel model.truths.valuation where
  standard := rests.isModel_truths.standard
  holds := Formula.holds_insert.mpr ⟨inactive, rests.isModel_truths.holds⟩

/-- A clause that is true already forces nothing but verum. -/
theorem listed_insert_iff (rests : (satisfiable model).RestsOn formula order)
    (restsGrown : (satisfiable grown).RestsOn (formula.insert clause) wider)
    (inactive : clause.holds model.truths.valuation = true) {atom : Atom} :
    atom ∈ wider ↔ atom ∈ order ∨ atom = .verum ∧ .verum ∈ (formula.insert clause).atoms := by
  constructor
  · intro listed
    have trueAtom := restsGrown.forced.true_on_model (rests.isModel_insert inactive) atom listed
    rcases rests.mem_truths.mp (AtomSet.valuation_eq_true_iff.mp trueAtom) with rfl | old
    · exact .inr ⟨rfl, restsGrown.forced.mem_atoms .verum listed⟩
    · exact .inl old
  · intro expected
    rcases expected with old | ⟨rfl, occurs⟩
    · exact rests.listed_of_larger restsGrown Formula.mem_insert_of_mem atom old
    · exact restsGrown.verum_listed occurs

/-- The conclusion of a clause that was false is forced once the clause is there. -/
theorem conclusion_listed (rests : (satisfiable model).RestsOn formula order)
    (restsGrown : (satisfiable grown).RestsOn (formula.insert clause) wider)
    (premise : ∀ atom ∈ clause.premise, atom ∈ model.truths) : clause.conclusion ∈ wider := by
  have member : clause ∈ formula.insert clause := Formula.mem_insert.mpr (.inl rfl)
  apply restsGrown.closed clause member
  intro atom needed
  rcases rests.mem_truths.mp (premise atom needed) with rfl | old
  · exact restsGrown.verum_listed (Formula.mem_atoms_of_premise member needed)
  · exact rests.listed_of_larger restsGrown Formula.mem_insert_of_mem atom old

end Solution.RestsOn

namespace Formula

variable {model : Assignment}

theorem solve_insert_inactive (solved : formula.solve = .satisfiable model)
    (inactive : clause.holds model.truths.valuation = true) :
    ∃ grown, (formula.insert clause).solve = .satisfiable grown ∧
      (∀ atom ∈ formula.atoms, grown.value? atom = model.value? atom) ∧
      ∀ atom ∈ clause.atoms, atom ∉ formula.atoms →
        grown.value? atom = some (decide (atom = .verum)) := by
  obtain ⟨order, rests⟩ := formula.restsOn_solve
  obtain ⟨wider, restsGrown⟩ := (formula.insert clause).restsOn_solve
  rw [solved] at rests
  cases solvedGrown : (formula.insert clause).solve with
  | unsatisfiable =>
      have noModel := restsGrown.eq_unsatisfiable_iff.mp solvedGrown
      exact absurd ⟨_, rests.isModel_insert inactive⟩ noModel
  | satisfiable grown =>
      rw [solvedGrown] at restsGrown
      refine ⟨grown, rfl, ?_, ?_⟩
      · intro atom occurs
        have known : atom = .verum → atom ∈ order := by
          rintro rfl
          exact rests.verum_listed occurs
        have same : atom ∈ wider ↔ atom ∈ order := by
          rw [rests.listed_insert_iff restsGrown inactive]
          exact or_iff_left_of_imp fun verum => known verum.1
        rw [rests.value?_eq occurs, restsGrown.value?_eq (mem_atoms_insert.mpr (.inl occurs)),
          decide_eq_decide.mpr same]
      · intro atom listed absent
        have occurs : atom ∈ (formula.insert clause).atoms := mem_atoms_insert.mpr (.inr listed)
        have unforced : atom ∉ order := fun old => absent (rests.forced.mem_atoms atom old)
        have same : atom ∈ wider ↔ atom = .verum := by
          rw [rests.listed_insert_iff restsGrown inactive, or_iff_right unforced]
          exact and_iff_left_of_imp fun verum => verum ▸ occurs
        rw [restsGrown.value?_eq occurs, decide_eq_decide.mpr same]

theorem solve_insert_active (solved : formula.solve = .satisfiable model)
    (active : clause.holds model.truths.valuation = false) :
    (formula.insert clause).solve = .unsatisfiable ∨
      ∃ grown, (formula.insert clause).solve = .satisfiable grown ∧
        grown.value? clause.conclusion = some true ∧
        model.value? clause.conclusion ≠ some true := by
  obtain ⟨premise, unmarked⟩ := broken_iff.mp active
  obtain ⟨order, rests⟩ := formula.restsOn_solve
  obtain ⟨wider, restsGrown⟩ := (formula.insert clause).restsOn_solve
  rw [solved] at rests
  cases solvedGrown : (formula.insert clause).solve with
  | unsatisfiable => exact .inl rfl
  | satisfiable grown =>
      rw [solvedGrown] at restsGrown
      have concluded := restsGrown.mem_trueAtoms.mpr (rests.conclusion_listed restsGrown premise)
      refine .inr ⟨grown, rfl, ?_, ?_⟩
      · exact Assignment.value?_eq_some_iff.mpr (Assignment.mem_trueAtoms.mp concluded)
      · intro before
        have listed := Assignment.mem_trueAtoms.mpr (Assignment.value?_eq_some_iff.mp before)
        exact unmarked (SortedBy.mem_ofList.mpr (List.mem_cons_of_mem .verum listed))

/-- What one more clause does to a satisfiable formula. -/
theorem solve_insert (formula : Formula) (clause : Clause) (model : Assignment)
    (solved : formula.solve = .satisfiable model) :
    (clause.holds model.truths.valuation = true →
      ∃ grown, (formula.insert clause).solve = .satisfiable grown ∧
        (∀ atom ∈ formula.atoms, grown.value? atom = model.value? atom) ∧
        ∀ atom ∈ clause.atoms, atom ∉ formula.atoms →
          grown.value? atom = some (decide (atom = .verum))) ∧
    (clause.holds model.truths.valuation = false →
      (formula.insert clause).solve = .unsatisfiable ∨
        ∃ grown, (formula.insert clause).solve = .satisfiable grown ∧
          grown.value? clause.conclusion = some true ∧
          model.value? clause.conclusion ≠ some true) :=
  ⟨solve_insert_inactive solved, solve_insert_active solved⟩

/-- A clause without effect brings in verum, falsum and an atom of its own. Two others bring in verum and
have an effect: one makes a chain of atoms true, the other leaves no model. -/
theorem solve_insert_verum :
    let formula := ofList [.ofList [.named "a"] (.named "b"), .ofList [.named "b"] (.named "c")]
    let model : Assignment :=
      SortedBy.ofList [(.named "a", false), (.named "b", false), (.named "c", false)]
    let inactive : Clause := .ofList [.verum, .falsum, .named "d"] (.named "a")
    let active : Clause := .ofList [.verum] (.named "a")
    let refuting : Clause := .ofList [.verum] .falsum
    formula.solve = .satisfiable model ∧
      inactive.holds model.truths.valuation = true ∧
      active.holds model.truths.valuation = false ∧
      refuting.holds model.truths.valuation = false ∧
      (∃ grown, (formula.insert inactive).solve = .satisfiable grown ∧
        (∀ atom ∈ formula.atoms, grown.value? atom = model.value? atom) ∧
        ∀ atom ∈ inactive.atoms, atom ∉ formula.atoms →
          grown.value? atom = some (decide (atom = .verum))) ∧
      (∃ grown, (formula.insert active).solve = .satisfiable grown ∧
        grown.value? (.named "a") = some true ∧ model.value? (.named "a") ≠ some true) ∧
      (formula.insert refuting).solve = .unsatisfiable := by
  intro formula model inactive active refuting
  have solved : formula.solve = .satisfiable model := by decide +kernel
  have noEffect : inactive.holds model.truths.valuation = true := by decide +kernel
  have effect : active.holds model.truths.valuation = false := by decide +kernel
  have contradiction : refuting.holds model.truths.valuation = false := by decide +kernel
  have consistent : (formula.insert active).solve ≠ .unsatisfiable := by decide +kernel
  have inconsistent : (formula.insert refuting).solve.isSatisfiable = false := by decide +kernel
  refine ⟨solved, noEffect, effect, contradiction, ?_, ?_, ?_⟩
  · exact (solve_insert formula inactive model solved).1 noEffect
  · exact ((solve_insert formula active model solved).2 effect).resolve_left consistent
  · rcases (solve_insert formula refuting model solved).2 contradiction with noneLeft | someLeft
    · exact noneLeft
    · obtain ⟨grown, solvedGrown, _, _⟩ := someLeft
      rw [solvedGrown] at inconsistent
      cases inconsistent

end Formula
end HornLogic
