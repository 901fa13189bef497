import HornLogic.Propagation.Index
import Mathlib.Data.List.Induction
import Mathlib.Data.List.Nodup

/-!
# What an index lists

An index is built atom by atom, so what it lists is stated for any row of atoms that were entered and
any row of pairs of a clause and an atom that were watched (`Index.Lists`). The rows of a formula are
then read off its clauses (`Index.Describes`): atoms are numbered in the order they first occur, and
each clause is listed once under every atom of its premise.
-/
namespace HornLogic.Index

set_option autoImplicit false

structure Lists (index : Index) (entered : List Atom) (watched : List (Nat × Atom)) : Prop where
  atoms : index.atoms.toList = entered.eraseDups
  numbers : ∀ (atom : Atom) (number : Nat),
    index.numbers[atom]? = some number ↔ index.atoms[number]? = some atom
  watchesSize : index.watches.size = index.atoms.size
  watches : ∀ (atom : Atom) (number : Nat), index.atoms[number]? = some atom →
    (index.watches.getD number #[]).toList =
      (watched.filter fun pair => pair.2 == atom).map Prod.fst
  watchedEntered : ∀ pair ∈ watched, pair.2 ∈ entered

namespace Lists

variable {index : Index} {entered : List Atom} {watched : List (Nat × Atom)}

theorem mem_entered (lists : index.Lists entered watched) {atom : Atom} :
    atom ∈ entered ↔ ∃ number : Nat, index.atoms[number]? = some atom := by
  rw [← List.mem_eraseDups, ← lists.atoms, Array.mem_toList_iff, Array.mem_iff_getElem?]

theorem contains_iff (lists : index.Lists entered watched) {atom : Atom} :
    index.numbers.contains atom = true ↔ atom ∈ entered := by
  rw [Std.TreeMap.contains_eq_isSome_getElem?, Option.isSome_iff_exists, lists.mem_entered]
  exact exists_congr (lists.numbers atom)

theorem getElem?_number (lists : index.Lists entered watched) {atom : Atom}
    (member : atom ∈ entered) : index.atoms[index.number atom]? = some atom := by
  obtain ⟨number, place⟩ := lists.mem_entered.mp member
  have found := (lists.numbers atom number).mpr place
  rw [Index.number, Std.TreeMap.getD_eq_getD_getElem?, found]
  exact place

theorem number_unique (lists : index.Lists entered watched) {atom : Atom} {left right : Nat}
    (leftPlace : index.atoms[left]? = some atom) (rightPlace : index.atoms[right]? = some atom) :
    left = right := by
  have leftFound := (lists.numbers atom left).mpr leftPlace
  have rightFound := (lists.numbers atom right).mpr rightPlace
  rw [leftFound] at rightFound
  exact Option.some.inj rightFound

/-- What is entered later changes no number. -/
theorem number_of_extends (lists : index.Lists entered watched) {grown : Index} {more : List Atom}
    {grownWatched : List (Nat × Atom)} (later : grown.Lists (entered ++ more) grownWatched)
    {atom : Atom} (member : atom ∈ entered) : grown.number atom = index.number atom := by
  have place := lists.getElem?_number member
  have inside := (Array.getElem?_eq_some_iff.mp place).1
  have kept : grown.atoms[index.number atom]? = some atom := by
    rw [← Array.getElem?_toList, later.atoms, List.eraseDups_append, ← lists.atoms,
      List.getElem?_append_left inside, Array.getElem?_toList]
    exact place
  exact later.number_unique (later.getElem?_number (List.mem_append_left more member)) kept

theorem empty : Index.empty.Lists [] [] where
  atoms := rfl
  numbers atom number := by simp [Index.empty]
  watchesSize := rfl
  watches atom number place := by simp [Index.empty] at place
  watchedEntered pair member := by cases member

private theorem enter_fresh (lists : index.Lists entered watched) {atom : Atom}
    (fresh : atom ∉ entered) :
    Lists
      { index with
        atoms := index.atoms.push atom
        numbers := index.numbers.insert atom index.atoms.size
        watches := index.watches.push #[] }
      (entered ++ [atom]) watched := by
  have places : ∀ (other : Atom) (number : Nat),
      (index.atoms.push atom)[number]? = some other ↔
        number = index.atoms.size ∧ atom = other ∨ index.atoms[number]? = some other := by
    intro other number
    rw [Array.getElem?_push]
    by_cases last : number = index.atoms.size
    · simp [last]
    · simp [last]
  constructor
  · rw [Array.toList_push, lists.atoms, List.eraseDups_append]
    simp [List.removeAll, fresh, List.eraseDups_cons]
  · intro other number
    rw [Std.TreeMap.getElem?_insert, places, ← lists.numbers]
    simp only [Std.LawfulEqCmp.compare_eq_iff_eq]
    split
    · rename_i same
      subst same
      have unlisted : index.numbers[atom]? ≠ some number := fun found =>
        fresh (lists.mem_entered.mpr ⟨number, (lists.numbers atom number).mp found⟩)
      simp [unlisted, eq_comm]
    · rename_i different
      simp [different]
  · simp [lists.watchesSize]
  · intro other number place
    rw [Array.getD_eq_getD_getElem?, Array.getElem?_push, lists.watchesSize]
    rcases (places other number).mp place with ⟨last, same⟩ | old
    · subst same
      have unwatched : ∀ pair ∈ watched, ¬ (pair.2 == atom) = true := by
        intro pair member same
        rw [beq_iff_eq] at same
        exact fresh (same ▸ lists.watchedEntered pair member)
      simp [last, List.filter_eq_nil_iff.mpr unwatched]
    · have inside := (Array.getElem?_eq_some_iff.mp old).1
      rw [if_neg (Nat.ne_of_lt inside), ← Array.getD_eq_getD_getElem?]
      exact lists.watches other number old
  · intro pair member
    exact List.mem_append_left [atom] (lists.watchedEntered pair member)

theorem enter (lists : index.Lists entered watched) (atom : Atom) :
    (index.enter atom).Lists (entered ++ [atom]) watched := by
  unfold Index.enter
  split
  · rename_i known
    have member := lists.contains_iff.mp known
    constructor
    · rw [lists.atoms, List.eraseDups_append]
      simp [List.removeAll, member]
    · exact lists.numbers
    · exact lists.watchesSize
    · exact lists.watches
    · intro pair member
      exact List.mem_append_left [atom] (lists.watchedEntered pair member)
  · rename_i unknown
    exact lists.enter_fresh fun member => unknown (lists.contains_iff.mpr member)

theorem watch (lists : index.Lists entered watched) (clause : Nat) (atom : Atom) :
    (index.watch clause atom).Lists (entered ++ [atom]) (watched ++ [(clause, atom)]) := by
  have entry := lists.enter atom
  have own : (index.enter atom).atoms[(index.enter atom).number atom]? = some atom :=
    entry.getElem?_number (List.mem_append_right entered (List.mem_singleton_self atom))
  have ownInside : (index.enter atom).number atom < (index.enter atom).watches.size := by
    rw [entry.watchesSize]
    exact (Array.getElem?_eq_some_iff.mp own).1
  unfold Index.watch
  constructor
  · exact entry.atoms
  · exact entry.numbers
  · rw [Array.size_modify]
    exact entry.watchesSize
  · intro other number place
    have before := entry.watches other number place
    rw [Array.getD_eq_getD_getElem?] at before ⊢
    rw [Array.getElem?_modify, List.filter_append, List.map_append, ← before]
    by_cases same : atom = other
    · subst same
      have numberSame := entry.number_unique own place
      subst numberSame
      simp [Array.getElem?_eq_getElem ownInside]
    · have different : (index.enter atom).number atom ≠ number := by
        intro numberSame
        subst numberSame
        rw [own] at place
        exact same (Option.some.inj place)
      simp [different, same]
  · intro pair member
    rcases List.mem_append.mp member with old | new
    · exact entry.watchedEntered pair old
    · rw [List.mem_singleton.mp new]
      simp

theorem watchAll (lists : index.Lists entered watched) (clause : Nat) (atoms : List Atom) :
    (atoms.foldl (Index.watch · clause ·) index).Lists (entered ++ atoms)
      (watched ++ atoms.map fun atom => (clause, atom)) := by
  induction atoms generalizing index entered watched with
  | nil => simpa using lists
  | cons atom rest ih =>
      have watchedRest := ih (lists.watch clause atom)
      simpa using watchedRest

end Lists

/-! ## Clauses -/

/-- Entering and watching atoms leaves the rows of the clauses as they are. -/
theorem rows_enter (index : Index) (atom : Atom) :
    (index.enter atom).conclusions = index.conclusions ∧
      (index.enter atom).premiseSizes = index.premiseSizes := by
  unfold enter
  split <;> exact ⟨rfl, rfl⟩

theorem rows_watchAll (index : Index) (clause : Nat) (atoms : List Atom) :
    (atoms.foldl (watch · clause ·) index).conclusions = index.conclusions ∧
      (atoms.foldl (watch · clause ·) index).premiseSizes = index.premiseSizes := by
  induction atoms generalizing index with
  | nil => exact ⟨rfl, rfl⟩
  | cons atom rest ih =>
      have restRows := ih (index.watch clause atom)
      have firstRows := index.rows_enter atom
      exact ⟨restRows.1.trans firstRows.1, restRows.2.trans firstRows.2⟩

/-- The pairs of a clause's number and an atom of its premise. -/
def occurrences (clauses : List Clause) : List (Nat × Atom) :=
  clauses.zipIdx.flatMap fun (clause, number) =>
    clause.premise.toList.map fun atom => (number, atom)

theorem occurrences_concat (clauses : List Clause) (clause : Clause) :
    occurrences (clauses ++ [clause]) =
      occurrences clauses ++ clause.premise.toList.map fun atom => (clauses.length, atom) := by
  simp [occurrences, List.zipIdx_append]

theorem mem_occurrences {clauses : List Clause} {number : Nat} {atom : Atom} :
    (number, atom) ∈ occurrences clauses ↔
      ∃ clause, clauses[number]? = some clause ∧ atom ∈ clause.premise := by
  simp only [occurrences, List.mem_flatMap, List.mem_map, Prod.mk.injEq, SortedBy.mem_def]
  constructor
  · intro ⟨⟨clause, place⟩, listed, other, member, sameNumber, sameAtom⟩
    subst sameNumber sameAtom
    exact ⟨clause, List.mem_zipIdx_iff_getElem?.mp listed, member⟩
  · intro ⟨clause, place, member⟩
    exact ⟨(clause, number), List.mem_zipIdx_iff_getElem?.mpr place, atom, member, rfl, rfl⟩

theorem nodup_occurrences (clauses : List Clause) : (occurrences clauses).Nodup := by
  induction clauses using List.reverseRecOn with
  | nil => exact List.nodup_nil
  | append_singleton clauses clause ih =>
      have own : (clause.premise.toList.map fun atom => (clauses.length, atom)).Nodup :=
        clause.premise.nodup.map fun left right same => (Prod.mk.inj same).2
      have apart : ∀ old ∈ occurrences clauses,
          ∀ new ∈ clause.premise.toList.map fun atom => (clauses.length, atom), old ≠ new := by
        intro old oldMember new newMember same
        obtain ⟨atom, _, built⟩ := List.mem_map.mp newMember
        rw [same, ← built] at oldMember
        obtain ⟨other, place, _⟩ := mem_occurrences.mp oldMember
        exact Nat.lt_irrefl _ (List.getElem?_eq_some_iff.mp place).1
      rw [occurrences_concat]
      exact List.nodup_append.mpr ⟨ih, own, apart⟩

theorem conclusion_entered {clauses : List Clause} {clause : Clause} (member : clause ∈ clauses) :
    clause.conclusion ∈ clauses.flatMap Clause.atoms :=
  List.mem_flatMap.mpr ⟨clause, member, List.mem_append_right _ (List.mem_singleton_self _)⟩

structure Describes (index : Index) (clauses : List Clause) : Prop where
  lists : index.Lists (clauses.flatMap Clause.atoms) (occurrences clauses)
  premiseSizes : index.premiseSizes.toList = clauses.map fun clause => clause.premise.size
  conclusions : index.conclusions.toList = clauses.map fun clause => index.number clause.conclusion

namespace Describes

variable {index : Index} {clauses : List Clause}

theorem empty : Index.empty.Describes [] where
  lists := Lists.empty
  premiseSizes := rfl
  conclusions := rfl

theorem addClause (described : index.Describes clauses) (clause : Clause) :
    (index.addClause clause).Describes (clauses ++ [clause]) := by
  have conclusionsSize : index.conclusions.size = clauses.length := by
    rw [← Array.length_toList, described.conclusions, List.length_map]
  have watched := described.lists.watchAll index.conclusions.size clause.premise.toList
  have entry := watched.enter clause.conclusion
  have lists : (index.addClause clause).Lists ((clauses ++ [clause]).flatMap Clause.atoms)
      (occurrences (clauses ++ [clause])) := by
    rw [occurrences_concat, ← conclusionsSize, List.flatMap_append]
    have atoms : [clause].flatMap Clause.atoms = clause.premise.toList ++ [clause.conclusion] := by
      simp [Clause.atoms]
    rw [atoms, ← List.append_assoc]
    exact { entry with }
  constructor
  · exact lists
  · rw [List.map_append, ← described.premiseSizes]
    simp [Index.addClause, rows_enter, rows_watchAll]
  · have kept : index.conclusions.toList =
        clauses.map fun other => (index.addClause clause).number other.conclusion := by
      rw [described.conclusions]
      apply List.map_congr_left
      intro other member
      rw [List.flatMap_append] at lists
      exact (described.lists.number_of_extends lists (conclusion_entered member)).symm
    rw [List.map_append, ← kept]
    simp [Index.addClause, rows_enter, rows_watchAll, Index.number]

/-- The index of a formula describes its clauses in their order. -/
theorem ofFormula (formula : Formula) :
    (Index.ofFormula formula).Describes formula.clauses.toList := by
  have all : ∀ (later before : List Clause) (index : Index), index.Describes before →
      (later.foldl Index.addClause index).Describes (before ++ later) := by
    intro later
    induction later with
    | nil =>
        intro before index described
        simpa using described
    | cons clause rest ih =>
        intro before index described
        simpa using ih (before ++ [clause]) (index.addClause clause) (described.addClause clause)
  rw [Index.ofFormula, ← Array.foldl_toList]
  exact all formula.clauses.toList [] Index.empty empty

variable {formula : Formula}

theorem mem_atoms (described : index.Describes formula.clauses.toList) {atom : Atom} :
    atom ∈ formula.atoms ↔ ∃ number : Nat, index.atoms[number]? = some atom := by
  rw [Formula.atoms, SortedBy.mem_ofList, described.lists.mem_entered]

theorem getElem?_number (described : index.Describes formula.clauses.toList) {atom : Atom}
    (occurs : atom ∈ formula.atoms) : index.atoms[index.number atom]? = some atom :=
  described.lists.getElem?_number (described.lists.mem_entered.mpr (described.mem_atoms.mp occurs))

theorem number_eq (described : index.Describes formula.clauses.toList) {atom : Atom} {number : Nat}
    (place : index.atoms[number]? = some atom) : index.number atom = number :=
  described.lists.number_unique
    (described.getElem?_number (described.mem_atoms.mpr ⟨number, place⟩)) place

theorem numbers_of_occurs (described : index.Describes formula.clauses.toList) {atom : Atom}
    (occurs : atom ∈ formula.atoms) : index.numbers[atom]? = some (index.number atom) :=
  (described.lists.numbers atom _).mpr (described.getElem?_number occurs)

theorem numbers_of_absent (described : index.Describes formula.clauses.toList) {atom : Atom}
    (absent : atom ∉ formula.atoms) : index.numbers[atom]? = none := by
  rw [Option.eq_none_iff_forall_ne_some]
  intro number found
  exact absent (described.mem_atoms.mpr ⟨number, (described.lists.numbers atom number).mp found⟩)

theorem nodup_atoms (described : index.Describes clauses) : index.atoms.toList.Nodup := by
  rw [List.nodup_iff_getElem?_ne_getElem?]
  intro left right before inside same
  simp only [Array.getElem?_toList] at same
  have place : index.atoms[right]? = some index.atoms[right] := Array.getElem?_eq_getElem inside
  have together := described.lists.number_unique (same.trans place) place
  exact Nat.ne_of_lt before together

theorem mem_watches (described : index.Describes formula.clauses.toList) {atom : Atom}
    {number clause : Nat} (place : index.atoms[number]? = some atom) :
    clause ∈ (index.watches.getD number #[]).toList ↔
      ∃ found, formula.clauses[clause]? = some found ∧ atom ∈ found.premise := by
  rw [described.lists.watches atom number place, List.mem_map]
  simp only [← Array.getElem?_toList, ← mem_occurrences, List.mem_filter, beq_iff_eq]
  constructor
  · intro ⟨pair, ⟨member, own⟩, same⟩
    rw [← same, ← own]
    exact member
  · exact fun member => ⟨(clause, atom), ⟨member, rfl⟩, rfl⟩

theorem nodup_watches (described : index.Describes clauses) {atom : Atom} {number : Nat}
    (place : index.atoms[number]? = some atom) :
    (index.watches.getD number #[]).toList.Nodup := by
  rw [described.lists.watches atom number place]
  apply List.Nodup.map_on
  · intro left leftListed right rightListed same
    simp only [List.mem_filter, beq_iff_eq] at leftListed rightListed
    exact Prod.ext same (leftListed.2.trans rightListed.2.symm)
  · exact (nodup_occurrences clauses).filter _

theorem getElem?_premiseSizes (described : index.Describes formula.clauses.toList) {number : Nat}
    {clause : Clause} (place : formula.clauses[number]? = some clause) :
    index.premiseSizes[number]? = some clause.premise.size := by
  rw [← Array.getElem?_toList, described.premiseSizes, List.getElem?_map, Array.getElem?_toList,
    place]
  rfl

theorem getElem?_conclusions (described : index.Describes formula.clauses.toList) {number : Nat}
    {clause : Clause} (place : formula.clauses[number]? = some clause) :
    index.conclusions[number]? = some (index.number clause.conclusion) := by
  rw [← Array.getElem?_toList, described.conclusions, List.getElem?_map, Array.getElem?_toList,
    place]
  rfl

end Describes

end HornLogic.Index
