import HornLogic.Proofs.Formula.Firing
import HornLogic.Proofs.Formula.LeastModel

/-!
# Propagation and forward chaining

Forward chaining searches for an unsatisfied clause anew at every step, while propagation counts. Both
mark forced atoms only, and forward chaining stops at a closed marking after no more steps than there
are atoms, so they end with the same atoms, unless propagation stops early at falsum
(`solve_agrees_with_chain`). Stopping early has no effect on the answer, which is stated against propagation
that goes on to the end (`Marking.exhaust`).
-/
namespace HornLogic

set_option autoImplicit false

namespace Formula

/-- How many atoms of the formula are not marked. -/
def unmarked (formula : Formula) (marked : AtomSet) : Nat :=
  formula.atoms.toList.countP fun atom => !marked.contains atom

theorem unmarked_insert {formula : Formula} {marked : AtomSet} {atom : Atom}
    (occurs : atom ∈ formula.atoms) (fresh : atom ∉ marked) :
    formula.unmarked (marked.insert atom) + 1 = formula.unmarked marked := by
  have missing : (!marked.contains atom) = true := by
    rw [Bool.not_eq_true', ← Bool.not_eq_true, SortedBy.contains_eq_true_iff]
    exact fresh
  have step := SortedBy.countP_ne_add_one (fun other => !marked.contains other) occurs missing
  rw [unmarked, unmarked, ← step]
  apply congrArg (· + 1)
  apply List.countP_congr
  intro other _
  simp only [Bool.not_eq_true', Bool.and_eq_true, decide_eq_true_eq, ← Bool.not_eq_true,
    SortedBy.contains_eq_true_iff, SortedBy.mem_insert_self_key, not_or]
  exact and_comm

theorem unsatisfied?_chain_eq_none {formula : Formula} {steps : Nat} {marked : AtomSet}
    (enough : formula.unmarked marked ≤ steps) :
    formula.unsatisfied? (formula.chain steps marked).2.valuation = none := by
  induction steps generalizing marked with
  | zero =>
      cases found : formula.unsatisfied? marked.valuation with
      | none => exact found
      | some clause =>
          have fires := fires_of_unsatisfied? found
          have fewer := unmarked_insert (conclusion_mem_atoms fires.member) fires.fresh
          omega
  | succ steps ih =>
      rw [chain]
      cases found : formula.unsatisfied? marked.valuation with
      | none => exact found
      | some clause =>
          have fires := fires_of_unsatisfied? found
          have fewer := unmarked_insert (conclusion_mem_atoms fires.member) fires.fresh
          apply ih
          omega

/-- Given enough steps, forward chaining ends with the least closed row that has its start. -/
theorem chain_ends {formula : Formula} {start : AtomSet} {steps : Nat}
    (enough : formula.unmarked start ≤ steps) :
    ∃ row, formula.Forces start row ∧ formula.Closed row ∧ (∀ atom ∈ start, atom ∈ row) ∧
      ∀ atom, atom ∈ (formula.chain steps start).2 ↔ atom ∈ row := by
  have given : formula.Forces start start.toList :=
    Forces.of_start formula fun atom listed => SortedBy.mem_def.mpr listed
  have run := formula.firing_chain steps start
  obtain ⟨row, forced, same⟩ := run.forces given fun atom => SortedBy.mem_def
  have valuations : (formula.chain steps start).2.valuation = fun atom => decide (atom ∈ row) := by
    funext atom
    rw [Bool.eq_iff_iff, AtomSet.valuation_eq_true_iff, same, decide_eq_true_eq]
  have holds := unsatisfied?_eq_none_iff.mp (unsatisfied?_chain_eq_none enough)
  rw [valuations] at holds
  exact ⟨row, forced, holds_iff_closed.mp holds,
    fun atom member => (same atom).mp (run.mem_reached.mpr (.inl member)), same⟩

end Formula

namespace Marking

/-- Takes atoms until none waits, also when falsum is marked. -/
def exhaust (index : Index) (marking : Marking) : Marking :=
  if waiting : marking.taken < marking.trail.size then
    (marking.take index waiting).exhaust index
  else marking
termination_by marking.credit - marking.taken
decreasing_by
  have more := marking.taken_lt_credit waiting
  rw [credit_take, taken_take]
  omega

theorem reaches_exhaust (index : Index) (marking : Marking) :
    Reaches index marking (marking.exhaust index) := by
  fun_induction exhaust index marking with
  | case1 marking waiting ih => exact .take waiting ih
  | case2 marking exhausted => exact .refl marking

theorem exhaust_exhausted (index : Index) (marking : Marking) :
    ¬ (marking.exhaust index).taken < (marking.exhaust index).trail.size := by
  fun_induction exhaust index marking with
  | case1 marking waiting ih => exact ih
  | case2 marking exhausted => exact exhausted

end Marking

namespace Solution.RestsOn

variable {formula : Formula}

/-- Solutions that rest on forced atoms are the same, whichever these are. -/
theorem unique {left right : Solution} {leftOrder rightOrder : List Atom}
    (leftRests : left.RestsOn formula leftOrder)
    (rightRests : right.RestsOn formula rightOrder) : left = right := by
  cases leftRests.reports with
  | unsatisfiable leftInconsistent =>
      cases rightRests.reports with
      | unsatisfiable rightInconsistent => rfl
      | satisfiable model consistent closed values =>
          have forced := leftRests.forced.subset_of_closed closed rightRests.givenListed
          exact absurd (forced .falsum leftInconsistent) consistent
  | satisfiable leftModel leftConsistent leftClosed leftValues =>
      have rightForced :=
        rightRests.forced.subset_of_closed leftClosed leftRests.givenListed
      cases rightRests.reports with
      | unsatisfiable rightInconsistent =>
          exact absurd (rightForced .falsum rightInconsistent) leftConsistent
      | satisfiable rightModel rightConsistent rightClosed rightValues =>
          have leftForced :=
            leftRests.forced.subset_of_closed rightClosed rightRests.givenListed
          apply congrArg satisfiable
          apply SortedBy.ext_of_mem
          intro pair
          have same : decide (pair.1 ∈ leftOrder) = decide (pair.1 ∈ rightOrder) :=
            decide_eq_decide.mpr ⟨leftForced pair.1, rightForced pair.1⟩
          rw [leftValues, rightValues, same]

end Solution.RestsOn

namespace Formula

/-- Going on after falsum is marked leads to the same answer. -/
theorem solution_exhaust (formula : Formula) :
    let index := Index.ofFormula formula
    ((Marking.start index).exhaust index).solution index = formula.solve := by
  intro index
  have described := Index.Describes.ofFormula formula
  obtain ⟨first, firstHead⟩ := Marking.atHead_start described
  have run := Marking.reaches_exhaust index (Marking.start index)
  obtain ⟨order, -, head⟩ := firstHead.of_reaches described run
  have exhausted := Marking.exhaust_exhausted index (Marking.start index)
  obtain ⟨solveOrder, solveRests⟩ := formula.restsOn_solve
  exact (head.restsOn_solution described (.inr exhausted)).unique solveRests

/-- Forward chaining ends, with falsum if there is no model and else with what is true on the least one. -/
theorem solve_agrees_with_chain (formula : Formula) (extra : Nat) :
    let index := Index.ofFormula formula
    let reached := (formula.chain (formula.atoms.size + extra) formula.given).2
    formula.unsatisfied? reached.valuation = none ∧
      (formula.solve = .unsatisfiable ↔ Atom.falsum ∈ reached) ∧
      (Atom.falsum ∉ reached →
        ∃ model, formula.solve = .satisfiable model ∧ model.trueAtoms = reached.toList) ∧
      ((Marking.start index).exhaust index).solution index = formula.solve := by
  intro index reached
  have enough : formula.unmarked formula.given ≤ formula.atoms.size + extra :=
    Nat.le_trans List.countP_le_length (Nat.le_add_right ..)
  obtain ⟨row, rowForced, rowClosed, rowGiven, same⟩ := chain_ends enough
  obtain ⟨order, rests⟩ := formula.restsOn_solve
  have orderListed := rests.forced.subset_of_closed rowClosed rowGiven
  have unsatisfiableIff : formula.solve = .unsatisfiable ↔ Atom.falsum ∈ reached := by
    rw [same]
    constructor
    · intro unsatisfiable
      rw [unsatisfiable] at rests
      cases rests.reports with
      | unsatisfiable inconsistent => exact orderListed .falsum inconsistent
    · intro falsumForced
      apply rests.eq_unsatisfiable_iff.mpr
      intro satisfiable
      exact rowForced.falsum_not_mem satisfiable falsumForced
  have atomsTrue : Atom.falsum ∉ reached →
      ∃ model, formula.solve = .satisfiable model ∧ model.trueAtoms = reached.toList := by
    intro consistent
    cases solved : formula.solve with
    | unsatisfiable => exact absurd (unsatisfiableIff.mp solved) consistent
    | satisfiable model =>
        rw [solved] at rests
        have rowListed : ∀ atom ∈ row, atom ∈ order := by
          cases rests.reports with
          | satisfiable _ _ closed _ =>
              exact rowForced.subset_of_closed closed rests.givenListed
        have atoms : model.trueAtoms = reached.toList := by
          apply SortedBy.eq_toList_of_mem model.ascending_trueAtoms
          intro atom
          rw [rests.mem_trueAtoms, same]
          exact ⟨orderListed atom, rowListed atom⟩
        exact ⟨model, rfl, atoms⟩
  exact ⟨unsatisfied?_chain_eq_none enough, unsatisfiableIff, atomsTrue, formula.solution_exhaust⟩

/-- Propagation stops at falsum while atoms wait, and forward chaining goes on. -/
theorem solve_agrees_with_chain_early :
    let formula := ofList [
      .fact (.named "a"), .fact .falsum, .ofList [.named "a"] (.named "b"),
      .ofList [.named "b"] (.named "c")]
    let index := Index.ofFormula formula
    let reached := (formula.chain (formula.atoms.size + 0) formula.given).2
    (Marking.saturate index).taken < (Marking.saturate index).trail.size ∧
      formula.unsatisfied? reached.valuation = none ∧
      (formula.solve = .unsatisfiable ↔ Atom.falsum ∈ reached) ∧
      (Atom.falsum ∉ reached →
        ∃ model, formula.solve = .satisfiable model ∧ model.trueAtoms = reached.toList) ∧
      ((Marking.start index).exhaust index).solution index = formula.solve := by
  intro formula index reached
  have early : (Marking.saturate index).taken < (Marking.saturate index).trail.size := by
    decide +kernel
  exact ⟨early, solve_agrees_with_chain formula 0⟩

end Formula
end HornLogic
