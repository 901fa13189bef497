import HornLogic.Proofs.Formula.Forcing
import HornLogic.Proofs.Propagation.Numbering
import HornLogic.Propagation.Marking
import Mathlib.Logic.Function.Basic

/-!
# The bookkeeping of propagation

A marking is read as the row of atoms it has marked and, for each clause, the atoms of its premise that
were counted down (`Marking.Records`). While an atom is taken the counts of its clauses are updated one
by one, so the counted atoms differ from clause to clause; between two takes they are the atoms taken
(`Marking.AtHead`). Marks are made only for forced atoms, and never taken back.
-/
namespace HornLogic

set_option autoImplicit false

namespace Marking

structure Records (formula : Formula) (index : Index) (counted : Nat → List Atom)
    (order : List Atom) (marking : Marking) : Prop where
  trail : marking.trail.toList = order.map index.number
  nodup : order.Nodup
  forced : formula.Forces formula.given order
  markedSize : marking.marked.size = index.atoms.size
  marked : ∀ (number : Nat) (atom : Atom), index.atoms[number]? = some atom →
    marking.marked[number]? = some (decide (atom ∈ order))
  missing : ∀ (number : Nat) (clause : Clause), formula.clauses[number]? = some clause →
    marking.missing[number]? =
      some (clause.premise.toList.countP fun atom => decide (atom ∉ counted number))

/-- The state of the bookkeeping between two takes. -/
structure AtHead (formula : Formula) (index : Index) (order : List Atom) (marking : Marking) :
    Prop where
  records : marking.Records formula index (fun _ => order.take marking.taken) order
  takenLe : marking.taken ≤ order.length
  givenMarked : ∀ atom ∈ formula.given, atom ∈ order
  fired : ∀ clause ∈ formula, (∀ atom ∈ clause.premise, atom ∈ order.take marking.taken) →
    clause.conclusion ∈ order

variable {formula : Formula} {index : Index} {counted : Nat → List Atom} {order : List Atom}
  {marking : Marking}

theorem records_blank (described : index.Describes formula.clauses.toList) :
    (blank index).Records formula index (fun _ => []) [] where
  trail := rfl
  nodup := List.nodup_nil
  forced := .nil
  markedSize := Array.size_replicate
  marked number atom place := by
    have inside := (Array.getElem?_eq_some_iff.mp place).1
    simp [blank, inside]
  missing number clause place := by
    rw [blank, described.getElem?_premiseSizes place, SortedBy.size]
    simp

theorem uncounted_cons {premise : AtomSet} {current : Atom} {counted : List Atom}
    (needed : current ∈ premise) (fresh : current ∉ counted) :
    (premise.toList.countP fun atom => decide (atom ∉ current :: counted)) + 1 =
      premise.toList.countP fun atom => decide (atom ∉ counted) := by
  rw [← SortedBy.countP_ne_add_one (fun atom => decide (atom ∉ counted)) needed
    (decide_eq_true fresh)]
  apply congrArg (· + 1)
  apply List.countP_congr
  intro atom _
  simp [and_comm]

theorem uncounted_eq_zero_iff {premise : AtomSet} {counted : List Atom} :
    (premise.toList.countP fun atom => decide (atom ∉ counted)) = 0 ↔
      ∀ atom ∈ premise, atom ∈ counted := by
  simp only [List.countP_eq_zero, decide_eq_true_eq, not_not, SortedBy.mem_def]

namespace Records

/-- Only atoms of a clause's own premise matter to its count. -/
theorem congr_counted (records : marking.Records formula index counted order)
    {other : Nat → List Atom}
    (same : ∀ (number : Nat) (clause : Clause), formula.clauses[number]? = some clause →
      ∀ atom ∈ clause.premise, (atom ∈ counted number ↔ atom ∈ other number)) :
    marking.Records formula index other order where
  trail := records.trail
  nodup := records.nodup
  forced := records.forced
  markedSize := records.markedSize
  marked := records.marked
  missing number clause place := by
    rw [records.missing number clause place]
    apply congrArg some
    apply List.countP_congr
    intro atom member
    simp [same number clause place atom member]

private theorem mark_fresh (records : marking.Records formula index counted order)
    (described : index.Describes formula.clauses.toList) {atom : Atom}
    (occurs : atom ∈ formula.atoms) (fresh : atom ∉ order)
    (forced : formula.Forces formula.given (order ++ [atom]))
    (inside : index.number atom < marking.marked.size) :
    Records formula index counted (order ++ [atom])
      { marking with
        marked := marking.marked.set (index.number atom) true inside
        trail := marking.trail.push (index.number atom) } := by
  have place := described.getElem?_number occurs
  constructor
  · simp [records.trail]
  · apply List.nodup_append.mpr
    constructor
    · exact records.nodup
    · constructor
      · exact List.nodup_singleton atom
      · intro other listed last new same
        rw [same, List.mem_singleton.mp new] at listed
        exact fresh listed
  · exact forced
  · simp [records.markedSize]
  · intro number other otherPlace
    rw [Array.getElem?_set]
    split
    · rename_i same
      rw [← same, place] at otherPlace
      simp [Option.some.inj otherPlace]
    · rename_i different
      have distinct : other ≠ atom := by
        intro same
        subst same
        exact different (described.number_eq otherPlace)
      rw [records.marked number other otherPlace]
      simp [distinct]
  · exact records.missing

theorem mark (records : marking.Records formula index counted order)
    (described : index.Describes formula.clauses.toList) {atom : Atom}
    (occurs : atom ∈ formula.atoms)
    (forced : formula.Forces formula.given (order ++ [atom])) :
    ∃ grown, order <+: grown ∧ atom ∈ grown ∧
      (marking.mark (index.number atom)).Records formula index counted grown := by
  have value := records.marked (index.number atom) atom (described.getElem?_number occurs)
  unfold Marking.mark
  split
  · rename_i unmarked
    have fresh : atom ∉ order := by
      rw [unmarked] at value
      simpa using value
    exact ⟨order ++ [atom], List.prefix_append .., by simp,
      records.mark_fresh described occurs fresh forced _⟩
  · rename_i known
    have listed : atom ∈ order := by
      rw [value] at known
      simpa using known
    exact ⟨order, List.prefix_rfl, listed, records⟩

/-- The count of one clause is set to what is left of its premise when some atoms are counted. -/
theorem set_missing (records : marking.Records formula index counted order) {number : Nat}
    {clause : Clause} (place : formula.clauses[number]? = some clause) (seen : List Atom) :
    Records formula index (Function.update counted number seen) order
      { marking with
        missing := marking.missing.setIfInBounds number
          (clause.premise.toList.countP fun atom => decide (atom ∉ seen)) } := by
  constructor
  · exact records.trail
  · exact records.nodup
  · exact records.forced
  · exact records.markedSize
  · exact records.marked
  · intro other found foundPlace
    rw [Array.getElem?_setIfInBounds]
    split
    · rename_i same
      subst same
      rw [place] at foundPlace
      cases foundPlace
      have inside := (Array.getElem?_eq_some_iff.mp (records.missing number clause place)).1
      simpa using inside
    · rename_i different
      rw [records.missing other found foundPlace, Function.update_of_ne (Ne.symm different)]

/-- Counting an atom of a clause marks the clause's conclusion if no other is missing. -/
theorem countDown (records : marking.Records formula index counted order)
    (described : index.Describes formula.clauses.toList) {number : Nat} {clause : Clause}
    (place : formula.clauses[number]? = some clause) {current : Atom}
    (needed : current ∈ clause.premise) (fresh : current ∉ counted number)
    (countedMarked : ∀ atom ∈ current :: counted number, atom ∈ order) :
    ∃ grown, order <+: grown ∧
      ((∀ atom ∈ clause.premise, atom ∈ current :: counted number) →
        clause.conclusion ∈ grown) ∧
      (marking.countDown index number).Records formula index
        (Function.update counted number (current :: counted number)) grown := by
  have member : clause ∈ formula := Array.mem_of_getElem? place
  have oneLess : marking.missing.getD number 0 - 1 =
      clause.premise.toList.countP fun atom => decide (atom ∉ current :: counted number) := by
    rw [Array.getD_eq_getD_getElem?, records.missing number clause place, Option.getD_some,
      ← uncounted_cons needed fresh]
    rfl
  have updated := records.set_missing place (current :: counted number)
  unfold Marking.countDown
  simp only [oneLess, described.getElem?_conclusions place, uncounted_eq_zero_iff]
  split
  · rename_i premise
    obtain ⟨grown, begins, concluded, grownRecords⟩ :=
      updated.mark described (Formula.conclusion_mem_atoms member)
        (.conclusion records.forced member fun atom needed =>
          countedMarked atom (premise atom needed))
    exact ⟨grown, begins, fun _ => concluded, grownRecords⟩
  · rename_i incomplete
    exact ⟨order, List.prefix_rfl, fun premise => absurd premise incomplete, updated⟩

/-- Counts the current atom for all clauses of a list, which must need it. -/
theorem countDownAll (records : marking.Records formula index counted order)
    (described : index.Describes formula.clauses.toList) {current : Atom}
    (currentMarked : current ∈ order) {clauses : List Nat} (distinct : clauses.Nodup)
    (waiting : ∀ number ∈ clauses, current ∉ counted number ∧
      (∀ atom ∈ counted number, atom ∈ order) ∧
      ∃ clause, formula.clauses[number]? = some clause ∧ current ∈ clause.premise) :
    ∃ grown, order <+: grown ∧
      (∀ number ∈ clauses, ∀ clause, formula.clauses[number]? = some clause →
        (∀ atom ∈ clause.premise, atom ∈ current :: counted number) →
          clause.conclusion ∈ grown) ∧
      (clauses.foldl (Marking.countDown index) marking).Records formula index
        (fun number => if number ∈ clauses then current :: counted number else counted number)
        grown := by
  induction clauses generalizing marking counted order with
  | nil => exact ⟨order, List.prefix_rfl, by simp, by simpa using records⟩
  | cons first rest ih =>
      rw [List.nodup_cons] at distinct
      obtain ⟨fresh, countedMarked, clause, place, needed⟩ := waiting first List.mem_cons_self
      have allMarked : ∀ atom ∈ current :: counted first, atom ∈ order :=
        List.forall_mem_cons.mpr ⟨currentMarked, countedMarked⟩
      obtain ⟨middle, begins, fired, middleRecords⟩ :=
        records.countDown described place needed fresh allMarked
      have unchanged : ∀ number ∈ rest,
          Function.update counted first (current :: counted first) number = counted number := by
        intro number listed
        apply Function.update_of_ne
        intro same
        exact distinct.1 (same ▸ listed)
      obtain ⟨grown, grownBegins, grownFired, grownRecords⟩ :=
        ih middleRecords (begins.subset currentMarked) distinct.2 (by
          intro number listed
          obtain ⟨numberFresh, numberMarked, found⟩ :=
            waiting number (List.mem_cons_of_mem first listed)
          rw [unchanged number listed]
          exact ⟨numberFresh, fun atom member => begins.subset (numberMarked atom member), found⟩)
      have firedAll : ∀ number ∈ first :: rest, ∀ found, formula.clauses[number]? = some found →
          (∀ atom ∈ found.premise, atom ∈ current :: counted number) →
            found.conclusion ∈ grown := by
        intro number listed found foundPlace premise
        rcases List.mem_cons.mp listed with rfl | later
        · rw [place] at foundPlace
          cases foundPlace
          exact grownBegins.subset (fired premise)
        · apply grownFired number later found foundPlace
          rw [unchanged number later]
          exact premise
      have allRecords : ((first :: rest).foldl (Marking.countDown index) marking).Records formula
          index (fun number => if number ∈ first :: rest then current :: counted number
            else counted number) grown := by
        rw [List.foldl_cons]
        apply grownRecords.congr_counted
        intro number found _ atom _
        by_cases later : number ∈ rest
        · simp [later, unchanged number later]
        · by_cases same : number = first
          · subst same
            simp [later]
          · simp [later, same]
      exact ⟨grown, begins.trans grownBegins, firedAll, allRecords⟩

end Records

/-! ## Between takes -/

namespace AtHead

theorem size_trail (head : marking.AtHead formula index order) :
    marking.trail.size = order.length := by
  rw [← Array.length_toList, head.records.trail, List.length_map]

/-- The atom that is taken next. -/
theorem next (head : marking.AtHead formula index order)
    (waiting : marking.taken < marking.trail.size) :
    ∃ current ∈ order, marking.trail[marking.taken] = index.number current ∧
      order.take (marking.taken + 1) = order.take marking.taken ++ [current] ∧
      current ∉ order.take marking.taken := by
  have inside : marking.taken < order.length := head.size_trail ▸ waiting
  have split := List.take_append_getElem inside
  have number : marking.trail[marking.taken] = index.number order[marking.taken] := by
    have places := congrArg (·[marking.taken]?) head.records.trail
    simpa [waiting, inside] using places
  have fresh : order[marking.taken] ∉ order.take marking.taken := by
    have distinct := head.records.nodup.sublist (List.take_sublist (marking.taken + 1) order)
    rw [← split] at distinct
    intro listed
    exact (List.nodup_append.mp distinct).2.2 _ listed _ (List.mem_singleton_self _) rfl
  exact ⟨order[marking.taken], List.getElem_mem inside, number, split.symm, fresh⟩

theorem take (head : marking.AtHead formula index order)
    (described : index.Describes formula.clauses.toList)
    (waiting : marking.taken < marking.trail.size) :
    ∃ grown, order <+: grown ∧ (marking.take index waiting).AtHead formula index grown := by
  obtain ⟨current, currentMarked, number, split, fresh⟩ := head.next waiting
  have inside : marking.taken + 1 ≤ order.length := head.size_trail ▸ waiting
  have place : index.atoms[index.number current]? = some current :=
    described.getElem?_number (head.records.forced.mem_atoms current currentMarked)
  have taking : Records formula index (fun _ => order.take marking.taken) order
      { marking with taken := marking.taken + 1 } := { head.records with }
  have needing : ∀ (clause : Nat) (found : Clause), formula.clauses[clause]? = some found →
      current ∈ found.premise → clause ∈ (index.watches.getD (index.number current) #[]).toList :=
    fun clause found foundPlace needed =>
      (described.mem_watches place).mpr ⟨found, foundPlace, needed⟩
  obtain ⟨grown, begins, fired, records⟩ :=
    taking.countDownAll described currentMarked (described.nodup_watches place) (by
      intro clause listed
      have found := (described.mem_watches place).mp listed
      exact ⟨fresh, fun atom member => List.mem_of_mem_take member, found⟩)
  have grownTake : grown.take (marking.taken + 1) = order.take marking.taken ++ [current] := by
    obtain ⟨more, rfl⟩ := begins
    rw [List.take_append_of_le_length inside, split]
  have run : marking.take index waiting =
      (index.watches.getD (index.number current) #[]).toList.foldl (countDown index)
        { marking with taken := marking.taken + 1 } := by
    rw [Marking.take, number, Array.foldl_toList]
  have headGrown : (marking.take index waiting).AtHead formula index grown := by
    constructor
    · rw [taken_take, grownTake, run]
      apply records.congr_counted
      intro clause found foundPlace atom needed
      split
      · simp [or_comm]
      · rename_i unlisted
        have different : atom ≠ current := by
          intro same
          exact unlisted (needing clause found foundPlace (same ▸ needed))
        simp [different]
    · rw [taken_take]
      exact Nat.le_trans inside begins.length_le
    · exact fun atom member => begins.subset (head.givenMarked atom member)
    · intro found member premise
      rw [taken_take, grownTake] at premise
      obtain ⟨clause, foundPlace⟩ := Array.mem_iff_getElem?.mp member
      by_cases needed : current ∈ found.premise
      · apply fired clause (needing clause found foundPlace needed) found foundPlace
        intro atom atomNeeded
        simpa [or_comm] using premise atom atomNeeded
      · apply begins.subset
        apply head.fired found member
        intro atom atomNeeded
        have different : atom ≠ current := by
          intro same
          exact needed (same ▸ atomNeeded)
        simpa [different] using premise atom atomNeeded
  exact ⟨grown, begins, headGrown⟩

theorem falsumMarked_iff (head : marking.AtHead formula index order)
    (described : index.Describes formula.clauses.toList) :
    marking.falsumMarked index = true ↔ Atom.falsum ∈ order := by
  by_cases occurs : Atom.falsum ∈ formula.atoms
  · have value := head.records.marked _ _ (described.getElem?_number occurs)
    rw [falsumMarked, described.numbers_of_occurs occurs]
    simp [isMarked, value]
  · have unforced : Atom.falsum ∉ order := fun listed =>
      occurs (head.records.forced.mem_atoms .falsum listed)
    simp [falsumMarked, described.numbers_of_absent occurs, unforced]

/-- Where no atom waits, no clause does either. -/
theorem closed (head : marking.AtHead formula index order)
    (exhausted : ¬ marking.taken < marking.trail.size) : formula.Closed order := by
  have allTaken : order.take marking.taken = order := by
    apply List.take_of_length_le
    rw [← head.size_trail]
    exact Nat.le_of_not_lt exhausted
  intro clause member premise
  apply head.fired clause member
  rw [allTaken]
  exact premise

end AtHead

/-! ## Before the first take -/

/-- The two rows that are looked through for facts are those of the clauses. -/
theorem markFacts_eq (described : index.Describes formula.clauses.toList) (marking : Marking) :
    marking.markFacts index = formula.clauses.toList.foldl (fun marking clause =>
      if clause.premise.size = 0 then marking.mark (index.number clause.conclusion)
      else marking) marking := by
  have pairs : (index.premiseSizes.zip index.conclusions).toList = formula.clauses.toList.map
      fun clause => (clause.premise.size, index.number clause.conclusion) := by
    rw [Array.toList_zip, described.premiseSizes, described.conclusions, List.zip_map']
  rw [markFacts, ← Array.foldl_toList, pairs, List.foldl_map]

theorem taken_markFacts (index : Index) (marking : Marking) :
    (marking.markFacts index).taken = marking.taken := by
  unfold markFacts
  apply Array.foldl_induction (fun _ (reached : Marking) => reached.taken = marking.taken) rfl
  intro place reached ih
  dsimp only
  split
  · rw [taken_mark, ih]
  · exact ih

theorem taken_markAtom (index : Index) (atom : Atom) (marking : Marking) :
    (marking.markAtom index atom).taken = marking.taken := by
  unfold markAtom
  split
  · rfl
  · exact taken_mark _ _

namespace Records

theorem markFact (records : marking.Records formula index counted order)
    (described : index.Describes formula.clauses.toList) {clause : Clause}
    (member : clause ∈ formula) :
    ∃ grown, order <+: grown ∧ (clause.premise.size = 0 → clause.conclusion ∈ grown) ∧
      (if clause.premise.size = 0 then marking.mark (index.number clause.conclusion)
        else marking).Records formula index counted grown := by
  by_cases fact : clause.premise.size = 0
  · have empty : clause.premise.toList = [] := List.eq_nil_of_length_eq_zero fact
    have forced : formula.Forces formula.given (order ++ [clause.conclusion]) := by
      apply Formula.Forces.conclusion records.forced member
      intro atom needed
      rw [SortedBy.mem_def, empty] at needed
      cases needed
    obtain ⟨grown, begins, concluded, grownRecords⟩ :=
      records.mark described (Formula.conclusion_mem_atoms member) forced
    rw [if_pos fact]
    exact ⟨grown, begins, fun _ => concluded, grownRecords⟩
  · rw [if_neg fact]
    exact ⟨order, List.prefix_rfl, fun factual => absurd factual fact, records⟩

theorem markFactsOf (described : index.Describes formula.clauses.toList)
    (clauses : List Clause) (members : ∀ clause ∈ clauses, clause ∈ formula)
    (records : marking.Records formula index counted order) :
    ∃ grown, order <+: grown ∧
      (∀ clause ∈ clauses, clause.premise.size = 0 → clause.conclusion ∈ grown) ∧
      (clauses.foldl (fun marking clause =>
        if clause.premise.size = 0 then marking.mark (index.number clause.conclusion)
        else marking) marking).Records formula index counted grown := by
  induction clauses generalizing marking order with
  | nil => exact ⟨order, List.prefix_rfl, by simp, records⟩
  | cons first rest ih =>
      obtain ⟨middle, begins, concluded, middleRecords⟩ :=
        records.markFact described (members first List.mem_cons_self)
      obtain ⟨grown, grownBegins, fired, grownRecords⟩ :=
        ih (fun clause listed => members clause (List.mem_cons_of_mem first listed)) middleRecords
      have firedAll : ∀ clause ∈ first :: rest, clause.premise.size = 0 →
          clause.conclusion ∈ grown := by
        intro clause listed fact
        rcases List.mem_cons.mp listed with rfl | later
        · exact grownBegins.subset (concluded fact)
        · exact fired clause later fact
      rw [List.foldl_cons]
      exact ⟨grown, begins.trans grownBegins, firedAll, grownRecords⟩

theorem markFacts (records : marking.Records formula index counted order)
    (described : index.Describes formula.clauses.toList) :
    ∃ grown, order <+: grown ∧
      (∀ clause ∈ formula, clause.premise.size = 0 → clause.conclusion ∈ grown) ∧
      (marking.markFacts index).Records formula index counted grown := by
  rw [markFacts_eq described]
  have all := markFactsOf described formula.clauses.toList
    (fun clause listed => Array.mem_toList_iff.mp listed) records
  simpa only [Array.mem_toList_iff, ← Formula.mem_def] using all

/-- Verum is marked where it occurs. -/
theorem markVerum (records : marking.Records formula index counted order)
    (described : index.Describes formula.clauses.toList) :
    ∃ grown, order <+: grown ∧ (∀ atom ∈ formula.given, atom ∈ grown) ∧
      (marking.markAtom index .verum).Records formula index counted grown := by
  by_cases occurs : Atom.verum ∈ formula.atoms
  · have given : Atom.verum ∈ formula.given := Formula.mem_given.mpr ⟨rfl, occurs⟩
    obtain ⟨grown, begins, marked, grownRecords⟩ :=
      records.mark described occurs (.given records.forced given)
    have givenMarked : ∀ atom ∈ formula.given, atom ∈ grown := by
      intro atom member
      rw [(Formula.mem_given.mp member).1]
      exact marked
    rw [markAtom, described.numbers_of_occurs occurs]
    exact ⟨grown, begins, givenMarked, grownRecords⟩
  · have nothingGiven : ∀ atom ∈ formula.given, atom ∈ order := by
      intro atom member
      exact absurd (Formula.mem_given.mp member).2 occurs
    rw [markAtom, described.numbers_of_absent occurs]
    exact ⟨order, List.prefix_rfl, nothingGiven, records⟩

end Records

theorem atHead_start (described : index.Describes formula.clauses.toList) :
    ∃ order, (start index).AtHead formula index order := by
  obtain ⟨first, -, givenMarked, firstRecords⟩ := (records_blank described).markVerum described
  obtain ⟨order, begins, fired, records⟩ := firstRecords.markFacts described
  have taken : (start index).taken = 0 := by
    rw [start, taken_markFacts, taken_markAtom]
    rfl
  have head : (start index).AtHead formula index order := by
    constructor
    · rw [taken]
      exact records
    · rw [taken]
      exact Nat.zero_le _
    · exact fun atom member => begins.subset (givenMarked atom member)
    · intro clause member premise
      rw [taken] at premise
      have empty : clause.premise.toList = [] :=
        List.eq_nil_iff_forall_not_mem.mpr fun atom needed => List.not_mem_nil (premise atom needed)
      exact fired clause member (by rw [SortedBy.size, empty, List.length_nil])
  exact ⟨order, head⟩

/-! ## Runs -/

/-- Some atoms are taken one after the other. -/
inductive Reaches (index : Index) : Marking → Marking → Prop where
  | refl (marking : Marking) : Reaches index marking marking
  | take {marking reached : Marking} (waiting : marking.taken < marking.trail.size)
      (later : Reaches index (marking.take index waiting) reached) :
      Reaches index marking reached

theorem AtHead.of_reaches {reached : Marking} (head : marking.AtHead formula index order)
    (described : index.Describes formula.clauses.toList) (run : Reaches index marking reached) :
    ∃ grown, order <+: grown ∧ reached.AtHead formula index grown := by
  induction run generalizing order with
  | refl => exact ⟨order, List.prefix_rfl, head⟩
  | take waiting later ih =>
      obtain ⟨middle, begins, middleHead⟩ := head.take described waiting
      obtain ⟨grown, grownBegins, grownHead⟩ := ih middleHead
      exact ⟨grown, begins.trans grownBegins, grownHead⟩

theorem reaches_propagate (index : Index) (marking : Marking) :
    Reaches index marking (marking.propagate index) := by
  fun_induction propagate index marking with
  | case1 marking waiting marked => exact .refl marking
  | case2 marking waiting unmarked ih => exact .take waiting ih
  | case3 marking exhausted => exact .refl marking

/-- Propagation stops where falsum is marked or no atom waits. -/
theorem propagate_stops (index : Index) (marking : Marking) :
    (marking.propagate index).falsumMarked index = true ∨
      ¬ (marking.propagate index).taken < (marking.propagate index).trail.size := by
  fun_induction propagate index marking with
  | case1 marking waiting marked => exact .inl marked
  | case2 marking waiting unmarked ih => exact ih
  | case3 marking exhausted => exact .inr exhausted

end Marking
end HornLogic
