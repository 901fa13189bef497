import HornLogic.Formula.Renaming
import HornLogic.Proofs.Formula.Comparison
import Mathlib.Data.Set.Function
import Mathlib.Logic.Equiv.Basic

/-!
# Solutions of renamed formulas

A renaming takes what a formula forces to what the renamed formula forces. Where no two symbols of the formula
are given the same name, it also takes closed rows to closed rows, so what a solution rests on can be renamed
(`Solution.RestsOn.rename`). Though the renamed formula numbers and takes its atoms in an order of its own, the
solution found for it is the renamed one.
-/
namespace HornLogic

set_option autoImplicit false

variable {names : String → String} {formula : Formula} {order : List Atom}

namespace Atom

theorem rename_eq_verum_iff {atom : Atom} : atom.rename names = .verum ↔ atom = .verum := by
  cases atom <;> simp [rename]

theorem rename_eq_falsum_iff {atom : Atom} : atom.rename names = .falsum ↔ atom = .falsum := by
  cases atom <;> simp [rename]

theorem falsum_mem_map_rename_iff : .falsum ∈ order.map (rename names) ↔ .falsum ∈ order := by
  simp [List.mem_map, rename_eq_falsum_iff]

end Atom

theorem Clause.mem_premise_rename {clause : Clause} {atom : Atom} :
    atom ∈ (clause.rename names).premise ↔ ∃ original ∈ clause.premise, original.rename names = atom := by
  rw [rename, ofList, SortedBy.mem_ofList, List.mem_map]
  rfl

namespace Formula

theorem mem_rename {clause : Clause} :
    clause ∈ formula.rename names ↔ ∃ original ∈ formula, original.rename names = clause := by
  rw [rename, mem_ofList, List.mem_map]
  simp only [mem_def, Array.mem_toList_iff]

theorem mem_atoms_rename {atom : Atom} :
    atom ∈ (formula.rename names).atoms ↔ ∃ original ∈ formula.atoms, original.rename names = atom := by
  simp only [mem_atoms, Clause.atoms, List.mem_append, List.mem_singleton, ← SortedBy.mem_def]
  constructor
  · rintro ⟨clause, member, listed⟩
    obtain ⟨original, originalMember, rfl⟩ := mem_rename.mp member
    rcases listed with needed | rfl
    · obtain ⟨before, beforeNeeded, rfl⟩ := Clause.mem_premise_rename.mp needed
      exact ⟨before, ⟨original, originalMember, .inl beforeNeeded⟩, rfl⟩
    · exact ⟨original.conclusion, ⟨original, originalMember, .inr rfl⟩, rfl⟩
  · rintro ⟨before, ⟨original, originalMember, listed⟩, renamed⟩
    refine ⟨original.rename names, mem_rename.mpr ⟨original, originalMember, rfl⟩, ?_⟩
    rcases listed with needed | rfl
    · exact .inl (Clause.mem_premise_rename.mpr ⟨before, needed, renamed⟩)
    · exact .inr renamed.symm

theorem mem_given_rename {atom : Atom} :
    atom ∈ (formula.rename names).given ↔ atom ∈ formula.given := by
  rw [mem_given, mem_given, mem_atoms_rename]
  simp only [Atom.rename_eq_verum_iff, exists_eq_right]

/-- Atoms that occur stay apart when their symbols do. -/
theorem rename_injOn (apart : Set.InjOn names formula.symbols) {left right : Atom}
    (leftOccurs : left ∈ formula.atoms) (rightOccurs : right ∈ formula.atoms)
    (same : left.rename names = right.rename names) : left = right := by
  cases left with
  | verum => exact (Atom.rename_eq_verum_iff.mp same.symm).symm
  | falsum => exact (Atom.rename_eq_falsum_iff.mp same.symm).symm
  | named symbol =>
      cases right with
      | verum => cases same
      | falsum => cases same
      | named other => exact congrArg Atom.named (apart leftOccurs rightOccurs (Atom.named.inj same))

theorem rename_mem_map_iff (apart : Set.InjOn names formula.symbols)
    (orderOccurs : ∀ atom ∈ order, atom ∈ formula.atoms) {atom : Atom} (occurs : atom ∈ formula.atoms) :
    atom.rename names ∈ order.map (Atom.rename names) ↔ atom ∈ order := by
  constructor
  · intro renamed
    obtain ⟨other, listed, same⟩ := List.mem_map.mp renamed
    exact rename_injOn apart (orderOccurs other listed) occurs same ▸ listed
  · exact List.mem_map_of_mem

theorem Forces.rename (forced : formula.Forces formula.given order) :
    (formula.rename names).Forces (formula.rename names).given (order.map (Atom.rename names)) := by
  induction forced with
  | nil => exact .nil
  | @given order atom forced member ih =>
      have verum := (mem_given.mp member).1
      subst verum
      rw [List.map_append]
      exact .given ih (mem_given_rename.mpr member)
  | @conclusion order clause forced member premise ih =>
      have renamed : clause.rename names ∈ formula.rename names := mem_rename.mpr ⟨clause, member, rfl⟩
      rw [List.map_append]
      refine .conclusion ih renamed ?_
      intro atom needed
      obtain ⟨original, originalNeeded, rfl⟩ := Clause.mem_premise_rename.mp needed
      exact List.mem_map_of_mem (premise original originalNeeded)

theorem Closed.rename (closed : formula.Closed order) (apart : Set.InjOn names formula.symbols)
    (orderOccurs : ∀ atom ∈ order, atom ∈ formula.atoms) :
    (formula.rename names).Closed (order.map (Atom.rename names)) := by
  intro clause member premise
  obtain ⟨original, originalMember, rfl⟩ := mem_rename.mp member
  apply List.mem_map_of_mem
  apply closed original originalMember
  intro atom needed
  have renamed := premise _ (Clause.mem_premise_rename.mpr ⟨atom, needed, rfl⟩)
  exact (rename_mem_map_iff apart orderOccurs (mem_atoms_of_premise originalMember needed)).mp renamed

end Formula

namespace Assignment

variable {assignment : Assignment} {atom : Atom}

/-- No two atoms that have values become one, so none of the values is lost. -/
theorem mem_rename (apart : Set.InjOn names formula.symbols)
    (occurs : ∀ atom ∈ assignment.atoms, atom ∈ formula.atoms) {value : Bool} :
    (atom, value) ∈ assignment.rename names ↔
      ∃ original, original.rename names = atom ∧ (original, value) ∈ assignment := by
  have keysApart : (assignment.toList.map (Prod.map (Atom.rename names) id)).Pairwise
      fun left right => compare left.1 right.1 ≠ .eq := by
    apply List.pairwise_map.mpr
    apply assignment.ascending.imp_of_mem
    intro left right leftListed rightListed before same
    have leftOccurs := occurs left.1 (List.mem_map_of_mem leftListed)
    have rightOccurs := occurs right.1 (List.mem_map_of_mem rightListed)
    have one := Formula.rename_injOn apart leftOccurs rightOccurs (Std.LawfulEqCmp.eq_of_compare same)
    have itself : compare right.1 right.1 = .eq := Std.ReflCmp.compare_self
    rw [one, itself] at before
    cases before
  rw [rename, SortedBy.mem_ofList_of_apart keysApart, List.mem_map]
  simp only [Prod.exists, Prod.map_apply, id_eq, Prod.mk.injEq, SortedBy.mem_def]
  constructor
  · rintro ⟨original, _, listed, renamed, same⟩
    exact ⟨original, renamed, same ▸ listed⟩
  · rintro ⟨original, renamed, listed⟩
    exact ⟨original, value, listed, renamed, rfl⟩

theorem mem_atoms_rename (apart : Set.InjOn names formula.symbols)
    (occurs : ∀ atom ∈ assignment.atoms, atom ∈ formula.atoms) :
    atom ∈ (assignment.rename names).atoms ↔
      ∃ original ∈ assignment.atoms, original.rename names = atom := by
  simp only [mem_atoms, mem_rename apart occurs]
  constructor
  · rintro ⟨value, original, renamed, listed⟩
    exact ⟨original, ⟨value, listed⟩, renamed⟩
  · rintro ⟨original, ⟨value, listed⟩, renamed⟩
    exact ⟨value, original, renamed, listed⟩

theorem value?_rename (apart : Set.InjOn names formula.symbols)
    (occurs : ∀ atom ∈ assignment.atoms, atom ∈ formula.atoms) (listed : atom ∈ assignment.atoms) :
    (assignment.rename names).value? (atom.rename names) = assignment.value? atom := by
  apply Option.ext
  intro value
  rw [value?_eq_some_iff, value?_eq_some_iff, mem_rename apart occurs]
  constructor
  · rintro ⟨original, same, member⟩
    have originalOccurs := occurs original (mem_atoms.mpr ⟨value, member⟩)
    rw [← Formula.rename_injOn apart originalOccurs (occurs atom listed) same]
    exact member
  · exact fun member => ⟨atom, rfl, member⟩

end Assignment

theorem Solution.RestsOn.atoms_occur {model : Assignment}
    (rests : (satisfiable model).RestsOn formula order) : ∀ atom ∈ model.atoms, atom ∈ formula.atoms := by
  intro atom listed
  obtain ⟨value, member⟩ := Assignment.mem_atoms.mp listed
  exact (rests.mem_model.mp member).1

/-- What a solution rests on can be renamed. -/
theorem Solution.RestsOn.rename {solution : Solution} (rests : solution.RestsOn formula order)
    (apart : Set.InjOn names formula.symbols) :
    (solution.rename names).RestsOn (formula.rename names) (order.map (Atom.rename names)) := by
  have orderOccurs := rests.forced.mem_atoms
  constructor
  · exact rests.forced.rename
  · intro atom member
    have listed := rests.givenListed atom (Formula.mem_given_rename.mp member)
    obtain ⟨rfl, -⟩ := Formula.mem_given.mp member
    exact List.mem_map_of_mem listed
  · cases rests.reports with
    | unsatisfiable inconsistent => exact .unsatisfiable (Atom.falsum_mem_map_rename_iff.mpr inconsistent)
    | satisfiable model consistent closed values =>
        refine .satisfiable _ (fun listed => consistent (Atom.falsum_mem_map_rename_iff.mp listed))
          (closed.rename apart orderOccurs) ?_
        intro atom value
        simp only [Assignment.mem_rename apart rests.atoms_occur, values, Formula.mem_atoms_rename]
        constructor
        · rintro ⟨original, renamed, occurs, known⟩
          subst renamed
          refine ⟨⟨original, occurs, rfl⟩, ?_⟩
          rw [known, decide_eq_decide, Formula.rename_mem_map_iff apart orderOccurs occurs]
        · rintro ⟨⟨original, occurs, renamed⟩, known⟩
          subst renamed
          refine ⟨original, rfl, occurs, ?_⟩
          rw [known, decide_eq_decide, Formula.rename_mem_map_iff apart orderOccurs occurs]

namespace Formula

theorem solve_eq_rename (apart : Set.InjOn names formula.symbols) :
    (formula.rename names).solve = formula.solve.rename names := by
  obtain ⟨order, rests⟩ := formula.restsOn_solve
  obtain ⟨otherOrder, otherRests⟩ := (formula.rename names).restsOn_solve
  exact otherRests.solution_eq (rests.rename apart) fun _ => Iff.rfl

/-- Names have no logical significance. They only have to stay apart, and can be those of the constants. -/
theorem solve_rename (formula : Formula) (names : String → String)
    (apart : Set.InjOn names formula.symbols) :
    ((formula.rename names).solve = .unsatisfiable ↔ formula.solve = .unsatisfiable) ∧
      ∀ model, formula.solve = .satisfiable model →
        (formula.rename names).solve = .satisfiable (model.rename names) ∧
          (∀ atom, atom ∈ (model.rename names).atoms ↔
            ∃ original ∈ model.atoms, original.rename names = atom) ∧
          ∀ original ∈ model.atoms,
            (model.rename names).value? (original.rename names) = model.value? original := by
  rw [solve_eq_rename apart]
  constructor
  · cases formula.solve with
    | unsatisfiable => exact Iff.rfl
    | satisfiable model => exact iff_of_false nofun nofun
  · intro model solved
    obtain ⟨order, rests⟩ := formula.restsOn_solve
    rw [solved] at rests
    have occurs := rests.atoms_occur
    refine ⟨by rw [solved]; rfl, fun atom => Assignment.mem_atoms_rename apart occurs, ?_⟩
    exact fun original => Assignment.value?_rename apart occurs

/-- Two names are exchanged, so the atoms come in another order, and one is given the symbol that is read as
falsum. -/
theorem solve_rename_exchanged :
    let formula := ofList [
      .ofList [.verum] (.named "a"), .ofList [.named "a", .named "b"] (.named "c"),
      .ofList [.named "c"] .falsum]
    let names := Equiv.swap "a" "c" ∘ Equiv.swap "b" "0"
    let model : Assignment := SortedBy.ofList [
      (.verum, true), (.falsum, false), (.named "a", true), (.named "b", false), (.named "c", false)]
    let renamed : Assignment := SortedBy.ofList [
      (.verum, true), (.falsum, false), (.named "c", true), (.named "0", false), (.named "a", false)]
    Set.InjOn names formula.symbols ∧ formula.solve = .satisfiable model ∧
      (formula.rename names).solve = .satisfiable renamed := by
  intro formula names model renamed
  have apart : Set.InjOn names formula.symbols :=
    ((Equiv.swap "a" "c").injective.comp (Equiv.swap "b" "0").injective).injOn
  have solved : formula.solve = .satisfiable model := by decide +kernel
  have same : model.rename names = renamed := by decide +kernel
  refine ⟨apart, solved, ?_⟩
  rw [← same]
  exact ((solve_rename formula names apart).2 model solved).1

end Formula
end HornLogic
