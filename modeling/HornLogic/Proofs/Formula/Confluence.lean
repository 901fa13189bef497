import HornLogic.Proofs.Formula.Chaining

/-!
# All runs end alike

A run that cannot go on has marked the least set above its start on which every clause is true. This
set is the same for all runs, it can be reached from wherever a run has come, and it grows with the start
and with the formula (`firing_confluent`).
-/
namespace HornLogic.Formula

set_option autoImplicit false

variable {formula : Formula} {start reached : AtomSet} {fired : List Clause}

namespace IsLeastAbove

variable {result : AtomSet}

theorem mono {larger : Formula} {above wider : AtomSet}
    (least : formula.IsLeastAbove start result) (leastLarger : larger.IsLeastAbove above wider)
    (clauses : ∀ clause ∈ formula, clause ∈ larger) (atoms : ∀ atom ∈ start, atom ∈ above) :
    ∀ atom ∈ result, atom ∈ wider := by
  have startTrue : ∀ atom ∈ start, wider.valuation atom = true := fun atom member =>
    AtomSet.valuation_eq_true_iff.mpr (leastLarger.above atom (atoms atom member))
  have holds : formula.holds wider.valuation = true := holds_of_larger clauses leastLarger.holds
  intro atom member
  exact AtomSet.valuation_eq_true_iff.mp (least.least _ startTrue holds atom member)

theorem unique {other : AtomSet} (least : formula.IsLeastAbove start result)
    (otherLeast : formula.IsLeastAbove start other) : result = other := by
  apply SortedBy.ext_of_mem
  intro atom
  constructor
  · exact least.mono otherLeast (fun _ => id) (fun _ => id) atom
  · exact otherLeast.mono least (fun _ => id) (fun _ => id) atom

end IsLeastAbove

theorem firing_closure (formula : Formula) (start : AtomSet) :
    ∃ fired, formula.Firing start fired (formula.closure start) :=
  ⟨_, formula.firing_chain formula.atoms.size start⟩

theorem exhausted_closure (formula : Formula) (start : AtomSet) :
    formula.Exhausted (formula.closure start) := by
  have enough : formula.unmarked start ≤ formula.atoms.size := List.countP_le_length
  exact exhausted_iff_holds.mpr (unsatisfied?_eq_none_iff.mp (unsatisfied?_chain_eq_none enough))

theorem isLeastAbove_closure (formula : Formula) (start : AtomSet) :
    formula.IsLeastAbove start (formula.closure start) := by
  obtain ⟨fired, run⟩ := formula.firing_closure start
  exact run.isLeastAbove (formula.exhausted_closure start)

namespace Firing

/-- Nothing that could be marked in the end is lost by a step. -/
theorem closure_eq (run : formula.Firing start fired reached) :
    formula.closure reached = formula.closure start := by
  have leastReached := formula.isLeastAbove_closure reached
  have leastStart : formula.IsLeastAbove start (formula.closure reached) := {
    above := fun atom member => leastReached.above atom (run.mem_reached.mpr (.inl member))
    holds := leastReached.holds
    least := fun valuation startTrue holds =>
      leastReached.least valuation (run.true_on startTrue holds) holds }
  exact leastStart.unique (formula.isLeastAbove_closure start)

theorem exhausted_iff (run : formula.Firing start fired reached) :
    formula.Exhausted reached ↔ reached = formula.closure start := by
  constructor
  · intro ended
    exact (run.isLeastAbove ended).unique (formula.isLeastAbove_closure start)
  · intro same
    rw [same]
    exact formula.exhausted_closure start

theorem continues (run : formula.Firing start fired reached) :
    ∃ later, formula.Firing reached later (formula.closure start) := by
  rw [← run.closure_eq]
  exact formula.firing_closure reached

end Firing

/-- What a step does, how long a run is, where every run ends and what that end is. -/
theorem firing_confluent (formula : Formula) (start : AtomSet) :
    (∀ clause marked next, formula.Fires clause marked next →
      clause.conclusion ∉ marked ∧
        ∀ atom, atom ∈ next ↔ atom = clause.conclusion ∨ atom ∈ marked) ∧
    (∀ fired reached, formula.Firing start fired reached →
      fired.length ≤ (formula.openConclusions start).size ∧
        (∃ later, formula.Firing reached later (formula.closure start)) ∧
        (formula.Exhausted reached ↔ reached = formula.closure start)) ∧
    (∀ steps, formula.Firing start (formula.chain steps start).1 (formula.chain steps start).2) ∧
    formula.IsLeastAbove start (formula.closure start) ∧
    ∀ (larger : Formula) (above : AtomSet), (∀ clause ∈ formula, clause ∈ larger) →
      (∀ atom ∈ start, atom ∈ above) →
      ∀ atom ∈ formula.closure start, atom ∈ larger.closure above := by
  refine ⟨?_, ?_, fun steps => formula.firing_chain steps start, formula.isLeastAbove_closure start, ?_⟩
  · intro clause marked next fires
    exact ⟨fires.fresh, fun atom => fires.mem_next⟩
  · intro fired reached run
    exact ⟨run.length_le, run.continues, run.exhausted_iff⟩
  · intro larger above clauses atoms
    have leastLarger := larger.isLeastAbove_closure above
    exact (formula.isLeastAbove_closure start).mono leastLarger clauses atoms

/-- A run that fires the last clause first, from a marking with falsum, ends where forward chaining
does. -/
theorem firing_confluent_backward :
    let formula := ofList [
      .fact (.named "a"), .ofList [.named "a"] (.named "b"), .ofList [.falsum] (.named "b"),
      .ofList [.verum] (.named "c")]
    let start : AtomSet := .ofList [.falsum]
    let fired : List Clause := [.ofList [.falsum] (.named "b"), .fact (.named "a")]
    let reached : AtomSet := .ofList [.falsum, .named "b", .named "a"]
    formula.Firing start fired reached ∧ formula.Exhausted reached ∧
      fired ≠ (formula.chain 2 start).1 ∧ fired.length ≤ (formula.openConclusions start).size ∧
      reached = formula.closure start := by
  intro formula start fired reached
  have first : formula.Fires (.ofList [.falsum] (.named "b")) start (.ofList [.falsum, .named "b"]) :=
    ⟨contains_eq_true_iff.mp (by decide +kernel), by decide +kernel, by decide +kernel⟩
  have second : formula.Fires (.fact (.named "a")) (.ofList [.falsum, .named "b"]) reached :=
    ⟨contains_eq_true_iff.mp (by decide +kernel), by decide +kernel, by decide +kernel⟩
  have run : formula.Firing start fired reached := .cons first (.cons second (.nil reached))
  have ended : formula.Exhausted reached := exhausted_iff_holds.mpr (by decide +kernel)
  have otherOrder : fired ≠ (formula.chain 2 start).1 := by decide +kernel
  obtain ⟨bound, _, endIff⟩ := (firing_confluent formula start).2.1 fired reached run
  exact ⟨run, ended, otherOrder, bound, endIff.mp ended⟩

end HornLogic.Formula
