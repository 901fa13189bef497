import HornLogic.Proofs.Propagation.Bookkeeping
import HornLogic.Propagation.Checked

/-!
# Exact bookkeeping

Between two takes the bookkeeping is known atom by atom (`Marking.AtHead`). Said in numbers, this is that the
queue, the marks and the counts are exact (`AtHead.exact`), and it is so at every marking at which
propagation looks whether an atom waits (`exact_of_mem_heads`).
-/
namespace HornLogic

set_option autoImplicit false

theorem place_in_concat {Item : Type} {row : List Item} {last item : Item} {place : Nat}
    (listed : (row ++ [last])[place]? = some item) :
    row[place]? = some item ∧ (row ++ [last]).take place = row.take place ∨
      item = last ∧ (row ++ [last]).take place = row := by
  rcases Nat.lt_or_ge place row.length with inside | beyond
  · rw [List.getElem?_append_left inside] at listed
    exact .inl ⟨listed, List.take_append_of_le_length (Nat.le_of_lt inside)⟩
  · rw [List.getElem?_append_right beyond, List.getElem?_singleton] at listed
    split at listed
    · rename_i atEnd
      have placeEq : place = row.length := by omega
      subst placeEq
      exact .inr ⟨(Option.some.inj listed).symm, List.take_left⟩
    · cases listed

/-- An atom of a row is given, or a clause has it forced by what stands before it. -/
theorem Formula.Forces.reason {formula : Formula} {start : AtomSet} {order : List Atom}
    (forced : formula.Forces start order) {place : Nat} {atom : Atom}
    (listed : order[place]? = some atom) :
    atom ∈ start ∨ ∃ clause ∈ formula, clause.conclusion = atom ∧
      ∀ needed ∈ clause.premise, needed ∈ order.take place := by
  -- Only the last atom of a row has its reason in the last step; the others kept what stands before them.
  induction forced with
  | nil => simp at listed
  | given forced member ih =>
      rcases place_in_concat listed with ⟨earlier, same⟩ | ⟨rfl, _⟩
      · rw [same]
        exact ih earlier
      · exact .inl member
  | @conclusion order clause forced member premise ih =>
      rcases place_in_concat listed with ⟨earlier, same⟩ | ⟨rfl, same⟩
      · rw [same]
        exact ih earlier
      · rw [same]
        exact .inr ⟨clause, member, rfl, premise⟩

namespace Index.Describes

variable {index : Index} {formula : Formula}

theorem number_injective (described : index.Describes formula.clauses.toList) {left right : Atom}
    (leftOccurs : left ∈ formula.atoms) (rightOccurs : right ∈ formula.atoms)
    (same : index.number left = index.number right) : left = right := by
  have leftPlace := described.getElem?_number leftOccurs
  rw [same, described.getElem?_number rightOccurs] at leftPlace
  exact (Option.some.inj leftPlace).symm

theorem number_mem_map (described : index.Describes formula.clauses.toList) {row : List Atom}
    (rowOccurs : ∀ atom ∈ row, atom ∈ formula.atoms) {atom : Atom} (occurs : atom ∈ formula.atoms) :
    index.number atom ∈ row.map index.number ↔ atom ∈ row := by
  rw [List.mem_map]
  constructor
  · intro ⟨other, listed, same⟩
    rw [← described.number_injective (rowOccurs other listed) occurs same]
    exact listed
  · exact fun listed => ⟨atom, listed, rfl⟩

end Index.Describes

namespace Marking

variable {formula : Formula} {index : Index} {counted : Nat → List Atom} {order : List Atom}
  {marking : Marking}

theorem Records.isMarked_number (records : marking.Records formula index counted order)
    (described : index.Describes formula.clauses.toList) {atom : Atom} (listed : atom ∈ order) :
    marking.isMarked (index.number atom) = true := by
  have value := records.marked _ _
    (described.getElem?_number (records.forced.mem_atoms atom listed))
  simp [isMarked, value, listed]

/-- What is marked has a place on the trail. -/
theorem Records.place_of_isMarked (records : marking.Records formula index counted order)
    (described : index.Describes formula.clauses.toList) {number : Nat}
    (markedThere : marking.isMarked number = true) :
    ∃ (place : Nat) (atom : Atom), order[place]? = some atom ∧ index.number atom = number ∧
      marking.trail[place]? = some number := by
  have inside : number < index.atoms.size := by
    rw [← records.markedSize]
    by_contra outside
    simp [isMarked, outside] at markedThere
  have atomPlace : index.atoms[number]? = some index.atoms[number] := Array.getElem?_eq_getElem inside
  have listed : index.atoms[number] ∈ order := by
    simpa [isMarked, records.marked _ _ atomPlace] using markedThere
  obtain ⟨place, orderPlace⟩ := List.mem_iff_getElem?.mp listed
  have numbered := described.number_eq atomPlace
  have trailPlace : marking.trail[place]? = some number := by
    rw [← Array.getElem?_toList, records.trail, List.getElem?_map, orderPlace, Option.map_some,
      numbered]
  exact ⟨place, index.atoms[number], orderPlace, numbered, trailPlace⟩

theorem AtHead.exact (head : marking.AtHead formula index order)
    (described : index.Describes formula.clauses.toList) : marking.Exact formula index := by
  have occurs := head.records.forced.mem_atoms
  have takenOccurs : ∀ atom ∈ order.take marking.taken, atom ∈ formula.atoms :=
    fun atom listed => occurs atom (List.mem_of_mem_take listed)
  have distinct : marking.trail.toList.Nodup := by
    rw [head.records.trail]
    exact head.records.nodup.map_on fun left leftListed right rightListed same =>
      described.number_injective (occurs left leftListed) (occurs right rightListed) same
  constructor
  case queueMarked =>
    intro number waiting
    have listed := List.mem_of_mem_drop waiting
    rw [head.records.trail] at listed
    obtain ⟨atom, atomListed, rfl⟩ := List.mem_map.mp listed
    exact head.records.isMarked_number described atomListed
  case queueDistinct =>
    exact distinct.sublist (List.drop_sublist marking.taken marking.trail.toList)
  case queuedOnce =>
    exact distinct
  case counts =>
    intro number clause place
    have member : clause ∈ formula := Array.mem_of_getElem? place
    rw [head.records.missing number clause place, head.records.trail, ← List.map_take]
    apply congrArg some
    apply List.countP_congr
    intro atom needed
    have atomOccurs := Formula.mem_atoms_of_premise member (SortedBy.mem_def.mpr needed)
    simp only [decide_eq_true_eq, described.number_mem_map takenOccurs atomOccurs]
  case concluded =>
    intro number clause place noneMissing
    have member : clause ∈ formula := Array.mem_of_getElem? place
    rw [head.records.missing number clause place] at noneMissing
    have premiseTaken := uncounted_eq_zero_iff.mp (Option.some.inj noneMissing)
    exact head.records.isMarked_number described (head.fired clause member premiseTaken)
  case reasons =>
    intro number markedThere
    obtain ⟨place, atom, listed, rfl, trailPlace⟩ :=
      head.records.place_of_isMarked described markedThere
    have atomPlace := described.getElem?_number (occurs atom (List.mem_of_getElem? listed))
    refine ⟨place, trailPlace, ?_⟩
    rcases head.records.forced.reason listed with given | ⟨clause, member, concluded, premise⟩
    · left
      rw [atomPlace, (Formula.mem_given.mp given).1]
    · right
      refine ⟨clause, member, concluded ▸ atomPlace, ?_⟩
      intro needed neededPremise
      rw [head.records.trail, ← List.map_take]
      exact List.mem_map_of_mem (premise needed neededPremise)

theorem reaches_of_mem_heads {reached : Marking} (member : reached ∈ marking.heads index) :
    Reaches index marking reached := by
  fun_induction heads index marking with
  | case1 marking waiting marked =>
      rw [List.mem_singleton.mp member]
      exact .refl marking
  | case2 marking waiting unmarked ih =>
      rcases List.mem_cons.mp member with rfl | later
      · exact .refl reached
      · exact .take waiting (ih later)
  | case3 marking exhausted =>
      rw [List.mem_singleton.mp member]
      exact .refl marking

/-- The last of the markings is where propagation stops. -/
theorem getLast?_heads (index : Index) (marking : Marking) :
    (marking.heads index).getLast? = some (marking.propagate index) := by
  fun_induction heads index marking with
  | case1 marking waiting marked =>
      rw [propagate, dif_pos waiting, if_pos marked]
      rfl
  | case2 marking waiting unmarked ih =>
      rw [propagate, dif_pos waiting, if_neg unmarked, List.getLast?_cons, ih]
      rfl
  | case3 marking exhausted =>
      rw [propagate, dif_neg exhausted]
      rfl

theorem exact_of_mem_heads (described : index.Describes formula.clauses.toList) {reached : Marking}
    (member : reached ∈ (start index).heads index) : reached.Exact formula index := by
  obtain ⟨first, startHead⟩ := atHead_start described
  obtain ⟨order, -, head⟩ := startHead.of_reaches described (reaches_of_mem_heads member)
  exact head.exact described

end Marking
end HornLogic
