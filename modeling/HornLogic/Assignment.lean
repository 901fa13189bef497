import HornLogic.Formula

/-!
# Assignments

An assignment gives truth values to finitely many atoms. An atom that is absent counts as false
where a valuation is asked for, yet differs from one that is assigned false.
-/
namespace HornLogic

set_option autoImplicit false

/-- Pairs of an atom and its value, in the order of atoms. -/
abbrev Assignment := SortedBy (Prod.fst : Atom × Bool → Atom)

namespace Assignment

def value? (assignment : Assignment) (atom : Atom) : Option Bool :=
  (assignment.find? atom).map Prod.snd

def assign (assignment : Assignment) (atom : Atom) (value : Bool) : Assignment :=
  assignment.insert (atom, value)

def atoms (assignment : Assignment) : List Atom :=
  assignment.toList.map Prod.fst

def trueAtoms (assignment : Assignment) : List Atom :=
  (assignment.toList.filter Prod.snd).map Prod.fst

def valuation (assignment : Assignment) : Valuation :=
  fun atom => (assignment.value? atom).getD false

def satisfies (assignment : Assignment) (formula : Formula) : Bool :=
  formula.holds assignment.valuation

def render (assignment : Assignment) : String :=
  ", ".intercalate (assignment.toList.map fun (atom, value) => s!"{atom.render}: {value}")

theorem value?_eq_some_iff {assignment : Assignment} {atom : Atom} {value : Bool} :
    assignment.value? atom = some value ↔ (atom, value) ∈ assignment := by
  simp only [value?, Option.map_eq_some_iff, SortedBy.find?_eq_some_iff,
    Std.LawfulEqCmp.compare_eq_iff_eq]
  constructor
  · intro found
    rcases found with ⟨⟨_, _⟩, ⟨member, rfl⟩, rfl⟩
    exact member
  · intro member
    exact ⟨(atom, value), ⟨member, rfl⟩, rfl⟩

theorem value?_assign (assignment : Assignment) (atom other : Atom) (value : Bool) :
    (assignment.assign atom value).value? other =
      if other = atom then some value else assignment.value? other := by
  apply Option.ext
  intro found
  rw [value?_eq_some_iff, assign, SortedBy.mem_insert]
  simp only [Prod.mk.injEq]
  split
  · rename_i same
    simp [same, eq_comm]
  · rename_i different
    simp [different, value?_eq_some_iff]

theorem mem_atoms {assignment : Assignment} {atom : Atom} :
    atom ∈ assignment.atoms ↔ ∃ value, (atom, value) ∈ assignment := by
  simp [atoms, SortedBy.mem_def]

theorem mem_trueAtoms {assignment : Assignment} {atom : Atom} :
    atom ∈ assignment.trueAtoms ↔ (atom, true) ∈ assignment := by
  simp [trueAtoms, SortedBy.mem_def]

theorem ascending_atoms (assignment : Assignment) :
    assignment.atoms.Pairwise fun left right => compare left right = .lt :=
  List.pairwise_map.mpr assignment.ascending

theorem ascending_trueAtoms (assignment : Assignment) :
    assignment.trueAtoms.Pairwise fun left right => compare left right = .lt :=
  List.pairwise_map.mpr (assignment.ascending.filter Prod.snd)

theorem valuation_eq_true_iff {assignment : Assignment} {atom : Atom} :
    assignment.valuation atom = true ↔ (atom, true) ∈ assignment := by
  rw [valuation, ← value?_eq_some_iff]
  cases assignment.value? atom with
  | none => simp
  | some value => simp

end Assignment
end HornLogic
