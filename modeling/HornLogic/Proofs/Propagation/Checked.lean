import HornLogic.Proofs.Propagation.Exactness
import Mathlib.Data.List.Perm.Subperm

/-!
# Propagation never fails

Each step that may fail is the step of propagation itself wherever the bookkeeping is right
(`Records.mark?_eq`, `Records.countDown?_eq`), and the bookkeeping is right all along. A ledger keeps beside
it that only the clauses of taken atoms were examined (`Ledger.Accounts`), so no pair of a clause and an
atom comes twice. There are no more atoms on the trail than in the formula, which bounds how many are taken.
-/
namespace HornLogic.Marking

set_option autoImplicit false

variable {formula : Formula} {index : Index} {counted : Nat → List Atom} {order : List Atom}
  {marking : Marking}

namespace Records

theorem mark?_eq (records : marking.Records formula index counted order)
    (described : index.Describes formula.clauses.toList) {atom : Atom}
    (occurs : atom ∈ formula.atoms) :
    marking.mark? (index.number atom) = some (marking.mark (index.number atom)) := by
  have place := described.getElem?_number occurs
  have inside : index.number atom < marking.marked.size := by
    rw [records.markedSize]
    exact (Array.getElem?_eq_some_iff.mp place).1
  rw [mark?, if_pos inside]

theorem markAtom?_eq (records : marking.Records formula index counted order)
    (described : index.Describes formula.clauses.toList) (atom : Atom) :
    marking.markAtom? index atom = some (marking.markAtom index atom) := by
  by_cases occurs : atom ∈ formula.atoms
  · simp only [markAtom?, markAtom, described.numbers_of_occurs occurs]
    exact records.mark?_eq described occurs
  · simp only [markAtom?, markAtom, described.numbers_of_absent occurs]

theorem falsumMarked?_eq (records : marking.Records formula index counted order)
    (described : index.Describes formula.clauses.toList) :
    marking.falsumMarked? index = some (marking.falsumMarked index) := by
  by_cases occurs : Atom.falsum ∈ formula.atoms
  · have value := records.marked _ _ (described.getElem?_number occurs)
    simp [falsumMarked?, falsumMarked, described.numbers_of_occurs occurs, isMarked, value]
  · simp only [falsumMarked?, falsumMarked, described.numbers_of_absent occurs]

/-- A count that is still to be counted down is not zero. -/
theorem countDown?_eq (records : marking.Records formula index counted order)
    (described : index.Describes formula.clauses.toList) {number : Nat} {clause : Clause}
    (place : formula.clauses[number]? = some clause) {current : Atom}
    (needed : current ∈ clause.premise) (fresh : current ∉ counted number) :
    marking.countDown? index number = some (marking.countDown index number) := by
  have count : marking.missing[number]? = some ((clause.premise.toList.countP fun atom =>
      decide (atom ∉ current :: counted number)) + 1) := by
    rw [records.missing number clause place, uncounted_cons needed fresh]
  have updated := records.set_missing place (current :: counted number)
  have marks := updated.mark?_eq described
    (Formula.conclusion_mem_atoms (Array.mem_of_getElem? place))
  simp only [countDown?, Marking.countDown, count, Array.getD_eq_getD_getElem?, Option.getD_some,
    Nat.add_sub_cancel, described.getElem?_conclusions place, Option.bind_eq_bind, Option.bind_some]
  split
  · exact marks
  · rfl

/-- Wherever the count of a clause is reached among those that are waiting, it is not zero. -/
theorem countDown?_of_waiting (records : marking.Records formula index counted order)
    (described : index.Describes formula.clauses.toList) {current : Atom}
    (currentMarked : current ∈ order) {clauses : List Nat} (distinct : clauses.Nodup)
    (waiting : ∀ number ∈ clauses, current ∉ counted number ∧
      (∀ atom ∈ counted number, atom ∈ order) ∧
      ∃ clause, formula.clauses[number]? = some clause ∧ current ∈ clause.premise)
    {before after : List Nat} {number : Nat} (parts : clauses = before ++ number :: after) :
    (before.foldl (Marking.countDown index) marking).countDown? index number =
      some ((before.foldl (Marking.countDown index) marking).countDown index number) := by
  subst parts
  have ⟨beforeDistinct, _, apart⟩ := List.nodup_append.mp distinct
  have unlisted : number ∉ before := fun listed =>
    apart number listed number List.mem_cons_self rfl
  obtain ⟨fresh, -, clause, place, needed⟩ := waiting number (by simp)
  obtain ⟨grown, -, -, beforeRecords⟩ :=
    records.countDownAll described currentMarked beforeDistinct fun other listed =>
      waiting other (List.mem_append_left _ listed)
  exact beforeRecords.countDown?_eq described place needed (by simpa [unlisted] using fresh)

/-- Before anything is counted down, a count is the size of the clause's premise. -/
theorem markFact?_eq (records : marking.Records formula index (fun _ => []) order)
    (described : index.Describes formula.clauses.toList) {number : Nat} {clause : Clause}
    (place : formula.clauses[number]? = some clause) :
    marking.markFact? index number = some (if clause.premise.size = 0
      then marking.mark (index.number clause.conclusion) else marking) := by
  have count : marking.missing[number]? = some clause.premise.size := by
    rw [records.missing number clause place, SortedBy.size]
    simp
  have marks := records.mark?_eq described
    (Formula.conclusion_mem_atoms (Array.mem_of_getElem? place))
  simp only [markFact?, count, described.getElem?_conclusions place, Option.bind_eq_bind,
    Option.bind_some, marks]
  split <;> rfl

theorem markFacts?_eq (records : marking.Records formula index (fun _ => []) order)
    (described : index.Describes formula.clauses.toList) {size : Nat}
    (inside : size ≤ formula.clauses.size) :
    (List.range size).foldlM (markFact? index) marking =
      some ((formula.clauses.toList.take size).foldl (fun marking clause =>
        if clause.premise.size = 0 then marking.mark (index.number clause.conclusion)
        else marking) marking) := by
  induction size with
  | zero => rfl
  | succ size ih =>
      have earlier := ih (by omega)
      have taken : formula.clauses.toList.take (size + 1) =
          formula.clauses.toList.take size ++ [formula.clauses[size]] :=
        (List.take_append_getElem inside).symm
      obtain ⟨grown, -, -, reached⟩ :=
        records.markFactsOf described (formula.clauses.toList.take size)
          fun clause listed => Array.mem_toList_iff.mp (List.mem_of_mem_take listed)
      have last := reached.markFact?_eq described (Array.getElem?_eq_getElem inside)
      rw [List.range_succ, List.foldlM_append, earlier, taken, List.foldl_append,
        Option.bind_eq_bind, Option.bind_some, List.foldlM_cons, last]
      rfl

end Records

theorem start?_eq (described : index.Describes formula.clauses.toList) :
    start? index = some (start index) := by
  have blankRecords := records_blank described
  obtain ⟨given, -, -, records⟩ := blankRecords.markVerum described
  have conclusionsSize : index.conclusions.size = formula.clauses.size := by
    rw [← Array.length_toList, described.conclusions, List.length_map, Array.length_toList]
  have facts := records.markFacts?_eq described (Nat.le_refl formula.clauses.size)
  rw [← Array.length_toList, List.take_length, ← markFacts_eq described] at facts
  rw [start?, blankRecords.markAtom?_eq described, conclusionsSize]
  exact facts

namespace AtHead

theorem length_le (head : marking.AtHead formula index order) :
    order.length ≤ formula.atoms.size := by
  have listed : order ⊆ formula.atoms.toList := fun atom member =>
    SortedBy.mem_def.mp (head.records.forced.mem_atoms atom member)
  exact (List.subperm_of_subset head.records.nodup listed).length_le

theorem next_untaken (head : marking.AtHead formula index order)
    (described : index.Describes formula.clauses.toList)
    (waiting : marking.taken < marking.trail.size) :
    marking.trail[marking.taken] ∉ marking.trail.toList.take marking.taken := by
  obtain ⟨current, marked, number, -, fresh⟩ := head.next waiting
  have occurs := head.records.forced.mem_atoms
  rw [number, head.records.trail, ← List.map_take, described.number_mem_map
    (fun atom listed => occurs atom (List.mem_of_mem_take listed)) (occurs current marked)]
  exact fresh

/-- Whatever is marked while an atom is taken comes behind it. -/
theorem trail_take (head : marking.AtHead formula index order)
    (described : index.Describes formula.clauses.toList)
    (waiting : marking.taken < marking.trail.size) :
    (marking.take index waiting).trail.toList.take (marking.taken + 1) =
      marking.trail.toList.take marking.taken ++ [marking.trail[marking.taken]] := by
  obtain ⟨grown, begins, grownHead⟩ := head.take described waiting
  obtain ⟨more, rfl⟩ := begins
  have inside : marking.taken + 1 ≤ marking.trail.toList.length := waiting
  rw [grownHead.records.trail, List.map_append, ← head.records.trail,
    List.take_append_of_le_length inside]
  exact (List.take_append_getElem waiting).symm

end AtHead

namespace Ledger

/-- The ledger after the next atom is taken. -/
def take (index : Index) (ledger : Ledger)
    (waiting : ledger.marking.taken < ledger.marking.trail.size) : Ledger :=
  let atom := ledger.marking.trail[ledger.marking.taken]
  { marking := ledger.marking.take index waiting
    watches := ledger.watches.setIfInBounds atom #[]
    examined := ledger.examined ++
      (index.watches.getD atom #[]).toList.map fun clause => (clause, atom) }

/-- What was examined is what the taken atoms are needed for. -/
structure Accounts (formula : Formula) (index : Index) (ledger : Ledger) : Prop where
  untaken : ∀ number ∉ ledger.marking.trail.toList.take ledger.marking.taken,
    ledger.watches[number]? = index.watches[number]?
  distinct : ledger.examined.Nodup
  taken : ∀ pair ∈ ledger.examined,
    pair.2 ∈ ledger.marking.trail.toList.take ledger.marking.taken
  needed : ∀ (clause number : Nat), (clause, number) ∈ ledger.examined →
    ∃ found atom, formula.clauses[clause]? = some found ∧ index.atoms[number]? = some atom ∧
      atom ∈ found.premise

theorem examineAll (atom : Nat) {clauses : List Nat} (ledger : Ledger)
    (counts : ∀ (before : List Nat) (clause : Nat) (after : List Nat),
      clauses = before ++ clause :: after →
        (before.foldl (countDown index) ledger.marking).countDown? index clause =
          some ((before.foldl (countDown index) ledger.marking).countDown index clause)) :
    clauses.foldlM (examine? index atom) ledger =
      some { ledger with
        marking := clauses.foldl (countDown index) ledger.marking
        examined := ledger.examined ++ clauses.map fun clause => (clause, atom) } := by
  induction clauses generalizing ledger with
  | nil => simp
  | cons first rest ih =>
      have firstCounted : ledger.marking.countDown? index first =
          some (ledger.marking.countDown index first) := counts [] first rest rfl
      have restExamined := ih
        { ledger with
          marking := ledger.marking.countDown index first
          examined := ledger.examined ++ [(first, atom)] }
        fun before clause after parts =>
          counts (first :: before) clause after (congrArg (first :: ·) parts)
      rw [List.foldlM_cons, examine?, firstCounted]
      simpa using restExamined

variable {ledger : Ledger}

/-- The clauses of an atom that was not taken are there to be examined, and their counts are not zero. -/
theorem Accounts.take?_eq (accounts : ledger.Accounts formula index)
    (head : ledger.marking.AtHead formula index order)
    (described : index.Describes formula.clauses.toList)
    (waiting : ledger.marking.taken < ledger.marking.trail.size) :
    ledger.take? index ledger.marking.trail[ledger.marking.taken] =
      some (ledger.take index waiting) := by
  have untaken := head.next_untaken described waiting
  obtain ⟨current, marked, number, -, fresh⟩ := head.next waiting
  rw [number] at untaken
  have place := described.getElem?_number (head.records.forced.mem_atoms current marked)
  have inside : index.number current < index.watches.size := by
    rw [described.lists.watchesSize]
    exact (Array.getElem?_eq_some_iff.mp place).1
  have watched : ledger.watches[index.number current]? =
      some (index.watches.getD (index.number current) #[]) := by
    rw [accounts.untaken _ untaken]
    simp [inside]
  have opened : Records formula index (fun _ => order.take ledger.marking.taken) order
      { ledger.marking with taken := ledger.marking.taken + 1 } := { head.records with }
  -- None of the clauses was counted down for this atom, so each count is positive when its turn comes.
  have examined := examineAll (index.number current)
    { ledger with
      marking := { ledger.marking with taken := ledger.marking.taken + 1 }
      watches := ledger.watches.setIfInBounds (index.number current) #[] }
    fun before clause after parts =>
      opened.countDown?_of_waiting described marked (described.nodup_watches place) (by
        intro clause listed
        exact ⟨fresh, fun atom member => List.mem_of_mem_take member,
          (described.mem_watches place).mp listed⟩) parts
  simp only [Ledger.take, Marking.take, number, ← Array.foldl_toList, Ledger.take?, watched]
  exact examined

theorem Accounts.take (accounts : ledger.Accounts formula index)
    (head : ledger.marking.AtHead formula index order)
    (described : index.Describes formula.clauses.toList)
    (waiting : ledger.marking.taken < ledger.marking.trail.size) :
    (ledger.take index waiting).Accounts formula index := by
  have untaken := head.next_untaken described waiting
  have trail := head.trail_take described waiting
  obtain ⟨current, marked, number, -⟩ := head.next waiting
  rw [number] at untaken trail
  unfold Ledger.take
  simp only [number]
  have place := described.getElem?_number (head.records.forced.mem_atoms current marked)
  constructor
  case untaken =>
    intro other absent
    rw [taken_take, trail, List.mem_append, List.mem_singleton, not_or] at absent
    rw [Array.getElem?_setIfInBounds_ne (Ne.symm absent.2)]
    exact accounts.untaken other absent.1
  case distinct =>
    apply List.nodup_append.mpr
    refine ⟨accounts.distinct, ?_, ?_⟩
    · exact (described.nodup_watches place).map fun left right same => (Prod.mk.inj same).1
    · intro old listed new added same
      obtain ⟨clause, -, rfl⟩ := List.mem_map.mp added
      apply untaken
      rw [same] at listed
      exact accounts.taken _ listed
  case taken =>
    intro pair listed
    rw [taken_take, trail, List.mem_append, List.mem_singleton]
    rcases List.mem_append.mp listed with old | new
    · exact .inl (accounts.taken pair old)
    · obtain ⟨clause, -, rfl⟩ := List.mem_map.mp new
      exact .inr rfl
  case needed =>
    intro clause other listed
    rcases List.mem_append.mp listed with old | new
    · exact accounts.needed clause other old
    · obtain ⟨watching, watched, same⟩ := List.mem_map.mp new
      cases same
      obtain ⟨found, foundPlace, needed⟩ := (described.mem_watches place).mp watched
      exact ⟨found, current, foundPlace, place, needed⟩

theorem propagate?_of_exhausted (exhausted : ¬ ledger.marking.taken < ledger.marking.trail.size)
    (allowed : Nat) : ledger.propagate? index allowed = some ledger := by
  have empty : ledger.marking.queue = [] := List.drop_eq_nil_of_le (Nat.le_of_not_lt exhausted)
  unfold Ledger.propagate?
  rw [empty]

theorem propagate?_of_waiting (waiting : ledger.marking.taken < ledger.marking.trail.size)
    {falsumThere : Bool} (settled : ledger.marking.falsumMarked? index = some falsumThere)
    (allowed : Nat) :
    ledger.propagate? index (allowed + 1) =
      if falsumThere then some ledger
      else ledger.take? index ledger.marking.trail[ledger.marking.taken] >>= fun reached =>
        reached.propagate? index allowed := by
  have queue : ledger.marking.queue = ledger.marking.trail[ledger.marking.taken] ::
      ledger.marking.trail.toList.drop (ledger.marking.taken + 1) :=
    List.drop_eq_getElem_cons waiting
  conv_lhs => unfold Ledger.propagate?
  rw [queue]
  simp only [settled, Option.bind_eq_bind, Option.bind_some]
  rfl

/-- Each take uses up one atom, and no more are allowed than there are. -/
theorem Accounts.propagate (accounts : ledger.Accounts formula index)
    (head : ledger.marking.AtHead formula index order)
    (described : index.Describes formula.clauses.toList) {allowed : Nat}
    (enough : formula.atoms.size ≤ ledger.marking.taken + allowed) :
    ∃ reached : Ledger, ledger.propagate? index allowed = some reached ∧
      reached.marking = ledger.marking.propagate index ∧ reached.Accounts formula index := by
  induction allowed generalizing ledger order with
  | zero =>
      -- As many atoms were taken as the formula has, and the trail has no more than those.
      have exhausted : ¬ ledger.marking.taken < ledger.marking.trail.size := by
        have bound := head.length_le
        rw [← head.size_trail] at bound
        omega
      refine ⟨ledger, propagate?_of_exhausted exhausted 0, ?_, accounts⟩
      rw [Marking.propagate, dif_neg exhausted]
  | succ allowed ih =>
      by_cases waiting : ledger.marking.taken < ledger.marking.trail.size
      · rw [propagate?_of_waiting waiting (head.records.falsumMarked?_eq described),
          Marking.propagate, dif_pos waiting]
        split
        · exact ⟨ledger, rfl, rfl, accounts⟩
        · obtain ⟨grown, -, grownHead⟩ := head.take described waiting
          rw [accounts.take?_eq head described waiting]
          apply ih (accounts.take head described waiting) grownHead
          simp only [Ledger.take, taken_take]
          omega
      · refine ⟨ledger, propagate?_of_exhausted waiting (allowed + 1), ?_, accounts⟩
        rw [Marking.propagate, dif_neg waiting]

end Ledger

/-- The bookkeeping of propagation is exact at each marking where it looks whether an atom waits. Therefore
no step of it fails, it takes at most as many atoms as there are, and a clause is examined for an atom at
most once. -/
theorem saturate_exact (formula : Formula) :
    ((start (Index.ofFormula formula)).heads (Index.ofFormula formula)).getLast? =
        some (saturate (Index.ofFormula formula)) ∧
      (∀ marking ∈ (start (Index.ofFormula formula)).heads (Index.ofFormula formula),
        marking.Exact formula (Index.ofFormula formula)) ∧
      ∃ ledger, saturate? (Index.ofFormula formula) formula.atoms.size = some ledger ∧
        ledger.marking = saturate (Index.ofFormula formula) ∧
        ledger.examined.Nodup ∧
        ∀ (clause number : Nat), (clause, number) ∈ ledger.examined →
          ∃ found atom, formula.clauses[clause]? = some found ∧
            (Index.ofFormula formula).atoms[number]? = some atom ∧ atom ∈ found.premise := by
  have described := Index.Describes.ofFormula formula
  obtain ⟨order, head⟩ := atHead_start described
  have accounts : Ledger.Accounts formula (Index.ofFormula formula)
      ⟨start (Index.ofFormula formula), (Index.ofFormula formula).watches, []⟩ := by
    constructor
    case untaken => exact fun _ _ => rfl
    case distinct => exact List.nodup_nil
    case taken => simp
    case needed => simp
  obtain ⟨ledger, run, ends, kept⟩ :=
    accounts.propagate head described (Nat.le_add_left formula.atoms.size _)
  refine ⟨getLast?_heads _ _, fun marking member => exact_of_mem_heads described member,
    ledger, ?_, ends, kept.distinct, kept.needed⟩
  rw [saturate?, start?_eq described]
  exact run

/-- A chain of two atoms has both taken, so one take is too few. -/
example :
    let formula := Formula.ofList [.fact (.named "p"), .ofList [.named "p"] (.named "q")]
    let index := Index.ofFormula formula
    (saturate? index 2).map Ledger.examined = some [(1, 0)] ∧
      (saturate? index 1).isNone = true := by
  decide +kernel

end HornLogic.Marking
