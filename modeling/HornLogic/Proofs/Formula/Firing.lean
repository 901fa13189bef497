import HornLogic.Formula.Firing
import HornLogic.Proofs.Formula.Forcing
import Mathlib.Data.List.Perm.Subperm

/-!
# Runs of firing

Whatever order a run fires its clauses in, each of them marks an atom of its own that was not marked
before, so a run is no longer than the row of conclusions still open at its start
(`Firing.length_le`). What a run marks is forced by its start (`Firing.forces`). Forward chaining is the
run that always fires the first clause (`firing_chain`).
-/
namespace HornLogic.Formula

set_option autoImplicit false

variable {formula : Formula} {marked next reached : AtomSet} {clause : Clause} {fired : List Clause}
  {atom : Atom}

theorem broken_iff : clause.holds marked.valuation = false ↔
    (∀ atom ∈ clause.premise, atom ∈ marked) ∧ clause.conclusion ∉ marked := by
  rw [← Bool.not_eq_true, Clause.holds_eq_true_iff]
  simp only [AtomSet.valuation_eq_true_iff, Classical.not_imp]

theorem mem_openConclusions : atom ∈ formula.openConclusions marked ↔
    (∃ clause ∈ formula, clause.conclusion = atom) ∧ atom ∉ marked := by
  rw [openConclusions, SortedBy.mem_filter, SortedBy.mem_ofList, Bool.not_eq_true', ← Bool.not_eq_true,
    SortedBy.contains_eq_true_iff, List.mem_map]
  simp only [Array.mem_toList_iff, mem_def]

theorem fires_of_unsatisfied? (found : formula.unsatisfied? marked.valuation = some clause) :
    formula.Fires clause marked (marked.insert clause.conclusion) where
  member := Array.mem_of_find?_eq_some found
  broken := by simpa using Array.find?_some found
  marks := rfl

theorem exhausted_iff_holds :
    formula.Exhausted marked ↔ formula.holds marked.valuation = true := by
  rw [holds_eq_true_iff]
  constructor
  · intro exhausted clause member
    rw [← Bool.not_eq_false]
    intro broken
    exact exhausted clause _ ⟨member, broken, rfl⟩
  · intro holds clause next fires
    have broken := fires.broken
    rw [holds clause fires.member] at broken
    cases broken

namespace Fires

theorem premise (fires : formula.Fires clause marked next) :
    ∀ atom ∈ clause.premise, atom ∈ marked :=
  (broken_iff.mp fires.broken).1

theorem fresh (fires : formula.Fires clause marked next) : clause.conclusion ∉ marked :=
  (broken_iff.mp fires.broken).2

theorem mem_next (fires : formula.Fires clause marked next) :
    atom ∈ next ↔ atom = clause.conclusion ∨ atom ∈ marked := by
  rw [fires.marks]
  exact SortedBy.mem_insert_self_key

end Fires

namespace Firing

theorem mem_reached (run : formula.Firing marked fired reached) :
    atom ∈ reached ↔ atom ∈ marked ∨ atom ∈ fired.map Clause.conclusion := by
  induction run with
  | nil marked => simp
  | cons fires others ih =>
      rw [ih, fires.mem_next, List.map_cons, List.mem_cons, or_assoc, or_left_comm]

/-- Every clause of a run marks an atom that nothing before it has marked. -/
theorem conclusions_apart (run : formula.Firing marked fired reached) :
    (fired.map Clause.conclusion).Nodup ∧ ∀ atom ∈ fired.map Clause.conclusion, atom ∉ marked := by
  induction run with
  | nil marked => simp
  | @cons marked next reached clause later fires others ih =>
      have unmarked : ∀ atom ∈ later.map Clause.conclusion, atom ≠ clause.conclusion ∧ atom ∉ marked := by
        intro atom listed
        have outside := ih.2 atom listed
        rw [fires.mem_next, not_or] at outside
        exact outside
      rw [List.map_cons, List.nodup_cons]
      refine ⟨⟨fun again => (unmarked _ again).1 rfl, ih.1⟩, ?_⟩
      intro atom listed
      rcases List.mem_cons.mp listed with rfl | laterListed
      · exact fires.fresh
      · exact (unmarked atom laterListed).2

theorem members (run : formula.Firing marked fired reached) : ∀ clause ∈ fired, clause ∈ formula := by
  induction run with
  | nil marked => simp
  | cons fires others ih => exact List.forall_mem_cons.mpr ⟨fires.member, ih⟩

theorem length_le (run : formula.Firing marked fired reached) :
    fired.length ≤ (formula.openConclusions marked).size := by
  have within : fired.map Clause.conclusion ⊆ (formula.openConclusions marked).toList := by
    intro atom listed
    have unmarked := run.conclusions_apart.2 atom listed
    obtain ⟨clause, taken, rfl⟩ := List.mem_map.mp listed
    exact mem_openConclusions.mpr ⟨⟨clause, run.members clause taken, rfl⟩, unmarked⟩
  have shorter := (List.subperm_of_subset run.conclusions_apart.1 within).length_le
  rwa [List.length_map] at shorter

theorem forces {start : AtomSet} {order : List Atom} (run : formula.Firing marked fired reached)
    (forced : formula.Forces start order) (same : ∀ atom, atom ∈ marked ↔ atom ∈ order) :
    ∃ grown, formula.Forces start grown ∧ ∀ atom, atom ∈ reached ↔ atom ∈ grown := by
  -- The row grows with the marking, so it is general in the induction along the run.
  induction run generalizing order with
  | nil marked => exact ⟨order, forced, same⟩
  | cons fires others ih =>
      have concluded := Forces.conclusion forced fires.member fun atom needed =>
        (same atom).mp (fires.premise atom needed)
      apply ih concluded
      intro atom
      rw [fires.mem_next, same, List.mem_append, List.mem_singleton]
      exact or_comm

theorem true_on (run : formula.Firing marked fired reached) {valuation : Valuation}
    (startTrue : ∀ atom ∈ marked, valuation atom = true)
    (holds : formula.holds valuation = true) : ∀ atom ∈ reached, valuation atom = true := by
  have given : formula.Forces marked marked.toList :=
    Forces.of_start formula fun atom listed => SortedBy.mem_def.mpr listed
  obtain ⟨row, forced, same⟩ := run.forces given fun atom => SortedBy.mem_def
  intro atom member
  exact forced.true_on holds startTrue atom ((same atom).mp member)

theorem isLeastAbove (run : formula.Firing marked fired reached) (ended : formula.Exhausted reached) :
    formula.IsLeastAbove marked reached where
  above := fun _ member => run.mem_reached.mpr (.inl member)
  holds := exhausted_iff_holds.mp ended
  least := fun _ startTrue holds => run.true_on startTrue holds

end Firing

theorem firing_chain (formula : Formula) (steps : Nat) (marked : AtomSet) :
    formula.Firing marked (formula.chain steps marked).1 (formula.chain steps marked).2 := by
  induction steps generalizing marked with
  | zero => exact .nil marked
  | succ steps ih =>
      rw [chain]
      cases found : formula.unsatisfied? marked.valuation with
      | none => exact .nil marked
      | some clause => exact .cons (fires_of_unsatisfied? found) (ih _)

end HornLogic.Formula
