import HornLogic.Propagation.Draft
import HornLogic.Proofs.Formula.History
import HornLogic.Proofs.Propagation.Numbering

/-!
# Drafts are exact

A draft takes the same steps as the index does (`Draft.enter_ofIndex`, `Draft.watch?_ofIndex`), and none of its
look-ups is outside of a row as long as the index lists what was entered. So the draft of a formula is that of
its index, and what the index lists the rows of the draft do too (`Index.Describes.indexes`).
-/
namespace HornLogic

set_option autoImplicit false

/-- Removing repetitions keeps the first of equal items. -/
theorem ListsFirst.eraseDups {Item : Type} [DecidableEq Item] (row : List Item) :
    ListsFirst row row.eraseDups := by
  induction row using List.reverseRecOn with
  | nil => exact ListsFirst.empty
  | append_singleton row item ih =>
      rw [List.eraseDups_append]
      by_cases known : item ∈ row
      · simpa [List.removeAll, known] using ih.again known
      · simpa [List.removeAll, known, List.eraseDups_cons] using ih.new known

namespace Draft

variable {index : Index} {entered : List Atom} {watched : List (Nat × Atom)} {clauses : List Clause}

theorem enter_ofIndex (index : Index) (atom : Atom) :
    (ofIndex index).enter atom = (ofIndex (index.enter atom), (index.enter atom).number atom) := by
  have knownIff : index.numbers.contains atom = index.numbers[atom]?.isSome :=
    Std.TreeMap.contains_eq_isSome_getElem?
  have same : (ofIndex index).numbers[atom]? = index.numbers[atom]? := rfl
  rw [enter, Index.enter, same, knownIff]
  cases place : index.numbers[atom]? with
  | some number => simp [Index.number, Std.TreeMap.getD_eq_getD_getElem?, place]
  | none => simp [Index.number, ofIndex, Marking.blank, Array.replicate_succ]

theorem setIfInBounds_eq_modify {Item : Type} {row : Array Item} {place : Nat} {item : Item}
    (listed : row[place]? = some item) (change : Item → Item) :
    row.setIfInBounds place (change item) = row.modify place change := by
  have inside := (Array.getElem?_eq_some_iff.mp listed).1
  apply Array.ext_getElem?
  intro other
  rw [Array.getElem?_modify, Array.getElem?_setIfInBounds]
  split
  · rename_i same
    rw [← same, listed]
    rfl
  · rfl

theorem watch?_ofIndex (lists : index.Lists entered watched) (clause : Nat) (atom : Atom) :
    (ofIndex index).watch? clause atom = some (ofIndex (index.watch clause atom)) := by
  have entry := lists.enter atom
  have own := entry.getElem?_number (List.mem_append_right entered (List.mem_singleton_self atom))
  have inside : (index.enter atom).number atom < (index.enter atom).watches.size := by
    rw [entry.watchesSize]
    exact (Array.getElem?_eq_some_iff.mp own).1
  have watching : (ofIndex (index.enter atom)).watches[(index.enter atom).number atom]? =
      some (index.enter atom).watches[(index.enter atom).number atom] :=
    Array.getElem?_eq_getElem inside
  have listed := setIfInBounds_eq_modify watching (·.push clause)
  rw [watch?, enter_ofIndex]
  simp only [watching, listed, Option.bind_eq_bind, Option.bind_some]
  rfl

theorem watchAll?_ofIndex (lists : index.Lists entered watched) (clause : Nat) (atoms : List Atom) :
    atoms.foldlM (watch? clause) (ofIndex index) =
      some (ofIndex (atoms.foldl (Index.watch · clause ·) index)) := by
  induction atoms generalizing index entered watched with
  | nil => rfl
  | cons atom rest ih =>
      rw [List.foldlM_cons, watch?_ofIndex lists, Option.bind_eq_bind, Option.bind_some]
      exact ih (lists.watch clause atom)

/-- The counts of the clauses have no part in what is entered. -/
theorem enter_counted (draft : Draft) (missing : Array Nat) (atom : Atom) :
    { draft with missing }.enter atom = ({ (draft.enter atom).1 with missing }, (draft.enter atom).2) := by
  unfold enter
  dsimp only
  split <;> rfl

/-- The place of a clause is the next number. -/
theorem addClause?_ofIndex (described : index.Describes clauses) (clause : Clause) :
    (ofIndex index).addClause? clause clauses.length = some (ofIndex (index.addClause clause)) := by
  have number : clauses.length = index.conclusions.size := by
    rw [← Array.length_toList, described.conclusions, List.length_map]
  let watched := clause.premise.toList.foldl (Index.watch · index.conclusions.size ·) index
  have premise : clause.premise.toList.foldlM (watch? clauses.length) (ofIndex index) =
      some (ofIndex watched) := by
    rw [number]
    exact watchAll?_ofIndex described.lists index.conclusions.size clause.premise.toList
  have counts : (ofIndex (watched.enter clause.conclusion)).missing = (ofIndex watched).missing :=
    (Index.rows_enter watched clause.conclusion).2
  rw [addClause?, premise, Option.bind_eq_bind, Option.bind_some]
  dsimp only
  rw [enter_counted, enter_ofIndex, ← counts]
  rfl

theorem ofFormula?_eq (formula : Formula) :
    ofFormula? formula = some (ofIndex (Index.ofFormula formula)) := by
  have all : ∀ (later before : List Clause) (index : Index), index.Describes before →
      (later.zipIdx before.length).foldlM (fun draft entry => draft.addClause? entry.1 entry.2)
        (ofIndex index) = some (ofIndex (later.foldl Index.addClause index)) := by
    intro later
    induction later with
    | nil => exact fun before index described => rfl
    | cons clause rest ih =>
        intro before index described
        have added := ih (before ++ [clause]) (index.addClause clause) (described.addClause clause)
        rw [List.length_append, List.length_singleton] at added
        rw [List.zipIdx_cons, List.foldlM_cons]
        dsimp only
        rw [addClause?_ofIndex described, Option.bind_eq_bind, Option.bind_some]
        exact added
  rw [ofFormula?, Index.ofFormula, ← Array.foldl_toList]
  exact all formula.clauses.toList [] Index.empty Index.Describes.empty

/-- The rows of `b -> a` and `a & b -> falsum`. -/
example :
    (ofFormula? (.ofList [.ofList [.named "b"] (.named "a"), .ofList [.named "a", .named "b"] .falsum])).map
        (fun draft => (draft.atoms, draft.watches, draft.missing, draft.conclusions)) =
      some (#[.named "b", .named "a", .falsum], #[#[0, 1], #[1], #[]], #[1, 2], #[1, 2]) := by
  decide +kernel

end Draft

namespace Index.Describes

variable {index : Index} {formula : Formula}

theorem atoms_size (described : index.Describes formula.clauses.toList) :
    index.atoms.size = formula.atoms.size := by
  have same : ∀ atom, atom ∈ index.atoms.toList ↔ atom ∈ formula.atoms.toList := by
    intro atom
    rw [Array.mem_toList_iff, Array.mem_iff_getElem?, ← described.mem_atoms]
    rfl
  have arranged := (List.perm_ext_iff_of_nodup described.nodup_atoms formula.atoms.nodup).mpr same
  exact arranged.length_eq

theorem count_watches (described : index.Describes formula.clauses.toList) {number : Nat} {atom : Atom}
    (place : index.atoms[number]? = some atom) (clause : Nat) :
    (index.watches.getD number #[]).count clause =
      if (formula.clauses[clause]?).any fun found => found.premise.contains atom then 1 else 0 := by
  have needs : (formula.clauses[clause]?).any (fun found => found.premise.contains atom) = true ↔
      clause ∈ (index.watches.getD number #[]).toList := by
    rw [described.mem_watches place, Option.any_eq_true]
    simp only [SortedBy.contains_eq_true_iff]
  rw [← Array.count_toList]
  split
  · rename_i needed
    exact List.count_eq_one_of_mem (described.nodup_watches place) (needs.mp needed)
  · rename_i unneeded
    exact List.count_eq_zero.mpr fun listed => unneeded (needs.mpr listed)

theorem indexes (described : index.Describes formula.clauses.toList) :
    (Draft.ofIndex index).Indexes formula where
  atoms := described.lists.atoms ▸ ListsFirst.eraseDups _
  atomsSize := described.atoms_size
  numbered atom := by
    rw [described.mem_atoms]
    exact exists_congr (described.lists.numbers atom)
  inverse := described.lists.numbers
  marked := by
    rw [← described.atoms_size]
    rfl
  queue := rfl
  watchesSize := described.lists.watchesSize.trans described.atoms_size
  watches number atom clause place := described.count_watches place clause
  missing := described.premiseSizes
  conclusions := by
    change index.conclusions.toList.map some = _
    rw [described.conclusions, List.map_map]
    apply List.map_congr_left
    intro clause member
    have occurs := Formula.conclusion_mem_atoms (Array.mem_toList_iff.mp member)
    exact (described.numbers_of_occurs occurs).symm

end Index.Describes

/-- The rows of every formula can be made together, with no look-up outside of one. They are those that
propagation starts with, and they list the formula exactly. -/
theorem Draft.ofFormula?_indexes (formula : Formula) :
    ofFormula? formula = some (ofIndex (Index.ofFormula formula)) ∧
      (ofIndex (Index.ofFormula formula)).Indexes formula :=
  ⟨ofFormula?_eq formula, (Index.Describes.ofFormula formula).indexes⟩

end HornLogic
