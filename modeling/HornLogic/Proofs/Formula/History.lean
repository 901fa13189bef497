import HornLogic.Formula.History
import HornLogic.Proofs.Formula.Comparison
import HornLogic.Proofs.Formula.Reading

/-!
# What a formula keeps

Whatever operations a history has, and wherever its readings stop, the formula is extended by what was offered
and by nothing else (`performAll_fst`). A clause that is offered again changes nothing, and a new one
goes to the end, so the clauses stand in the order in which they were first offered (`keeps_ofList`).
-/
namespace HornLogic

set_option autoImplicit false

namespace ListsFirst

variable {Item : Type} [DecidableEq Item] {row listed : List Item}

theorem empty : ListsFirst ([] : List Item) [] where
  memIff _ := Iff.rfl
  once := List.nodup_nil
  ordered := .nil

/-- What comes later does not move what the row has already. -/
theorem ordered_append (lists : ListsFirst row listed) (later : List Item) :
    listed.Pairwise fun left right => (row ++ later).idxOf left < (row ++ later).idxOf right := by
  apply lists.ordered.imp_of_mem
  intro left right leftListed rightListed before
  rw [List.idxOf_append_of_mem ((lists.memIff left).mp leftListed),
    List.idxOf_append_of_mem ((lists.memIff right).mp rightListed)]
  exact before

theorem again (lists : ListsFirst row listed) {item : Item} (known : item ∈ row) :
    ListsFirst (row ++ [item]) listed where
  memIff other := by
    rw [lists.memIff, List.mem_append, List.mem_singleton]
    exact (or_iff_left_of_imp fun same => same ▸ known).symm
  once := lists.once
  ordered := lists.ordered_append [item]

theorem new (lists : ListsFirst row listed) {item : Item} (fresh : item ∉ row) :
    ListsFirst (row ++ [item]) (listed ++ [item]) where
  memIff other := by
    rw [List.mem_append, List.mem_append, lists.memIff]
  once := by
    have unlisted : item ∉ listed := fun member => fresh ((lists.memIff item).mp member)
    exact List.nodup_append.mpr ⟨lists.once, List.nodup_singleton item, by
      intro other listedOther last lastItem same
      rw [same, List.mem_singleton.mp lastItem] at listedOther
      exact unlisted listedOther⟩
  ordered := by
    apply List.pairwise_append.mpr
    refine ⟨lists.ordered_append [item], List.pairwise_singleton .., ?_⟩
    intro other listedOther last lastItem
    have earlier := (lists.memIff other).mp listedOther
    rw [List.mem_singleton.mp lastItem, List.idxOf_append_of_mem earlier,
      List.idxOf_append_of_notMem fresh]
    exact Nat.lt_of_lt_of_le (List.idxOf_lt_length_of_mem earlier) (Nat.le_add_right ..)

end ListsFirst

namespace Source

variable {source : Source} {clauses : List Clause}

theorem leadingClauses_of_read (read : source.rows.mapM source.clauseOn = .ok clauses) :
    source.leadingClauses = clauses := by
  rw [Source.leadingClauses, map_of_mapM_eq_ok read, ← List.append_nil (clauses.map _)]
  exact results_before rfl

theorem leadingClauses_of_stopped {before after : List (List UInt8)} {row : List UInt8}
    {fault : LineFault} (rows : source.rows = before ++ row :: after)
    (read : before.mapM source.clauseOn = .ok clauses)
    (stops : source.clauseOn row = .error fault) : source.leadingClauses = clauses := by
  rw [Source.leadingClauses, rows, List.map_append, map_of_mapM_eq_ok read, List.map_cons, stops]
  exact results_before rfl

end Source

namespace Formula

variable {formula : Formula} {offered : List Clause}

theorem listsFirst_insert (lists : ListsFirst offered formula.clauses.toList) (clause : Clause) :
    ListsFirst (offered ++ [clause]) (formula.insert clause).clauses.toList := by
  have knownIff : formula.contains clause = true ↔ clause ∈ offered := by
    rw [contains_eq_true_iff, mem_def, ← Array.mem_toList_iff, lists.memIff]
  rw [clauses_insert]
  split
  · rename_i known
    exact lists.again (knownIff.mp known)
  · rename_i unknown
    rw [Array.toList_push]
    exact lists.new fun member => unknown (knownIff.mpr member)

theorem extend_append (formula : Formula) (front back : List Clause) :
    formula.extend (front ++ back) = (formula.extend front).extend back :=
  List.foldl_append

theorem listsFirst_ofList (offered : List Clause) :
    ListsFirst offered (ofList offered).clauses.toList := by
  induction offered using List.reverseRecOn with
  | nil => exact ListsFirst.empty
  | append_singleton earlier clause ih =>
      have step : ofList (earlier ++ [clause]) = (ofList earlier).insert clause :=
        extend_append empty earlier [clause]
      rw [step]
      exact listsFirst_insert ih clause

theorem keeps_ofList (offered : List Clause) : (ofList offered).Keeps offered where
  clauses := listsFirst_ofList offered
  size := by
    have same : (ofList offered).clauses.toList.toFinset = offered.toFinset := by
      ext clause
      rw [List.mem_toFinset, List.mem_toFinset, (listsFirst_ofList offered).memIff]
    rw [size, ← Array.length_toList, ← List.toFinset_card_of_nodup (ofList offered).distinct, same]
  atoms atom := by
    rw [mem_atoms]
    simp only [mem_ofList, Clause.atoms, List.mem_append, List.mem_singleton, SortedBy.mem_def]

theorem add_ofList_snd (offered : List Clause) (clause : Clause) :
    ((ofList offered).add clause).2 = decide (clause ∉ offered) := by
  have knownIff : (ofList offered).contains clause = true ↔ clause ∈ offered :=
    contains_eq_true_iff.trans mem_ofList
  rw [add_snd, decide_not, Bool.eq_iff_iff.mpr (knownIff.trans decide_eq_true_iff.symm)]

/-! ## Runs of operations -/

theorem readInto_fst (formula : Formula) (source : Source) :
    (formula.readInto source).1 = formula.extend source.leadingClauses := by
  obtain ⟨result, reads⟩ := formula.readsTo_total source
  rw [readInto_of_readsTo reads]
  cases reads with
  | stopped rows read stops => rw [Source.leadingClauses_of_stopped rows read stops]
  | failed read fails => rw [Source.leadingClauses_of_read read]
  | ended read ends lines growth balance => rw [Source.leadingClauses_of_read read]

/-- An operation changes a formula by what it offers. -/
theorem perform_fst (formula : Formula) (operation : Operation) :
    (formula.perform operation).1 = formula.extend operation.offers := by
  cases operation with
  | add clause => rfl
  | extend clauses => rfl
  | read source => exact formula.readInto_fst source

theorem performAll_fst (formula : Formula) (history : List Operation) :
    (formula.performAll history).1 = formula.extend (history.flatMap Operation.offers) := by
  induction history generalizing formula with
  | nil => rfl
  | cons operation later ih =>
      rw [List.flatMap_cons, extend_append, ← perform_fst, ← ih]
      rfl

/-- Every operation answers as it does on what the operations before it have left. -/
theorem getElem?_performAll_snd (formula : Formula) (before later : List Operation)
    (operation : Operation) :
    (formula.performAll (before ++ operation :: later)).2[before.length]? =
      some ((formula.performAll before).1.perform operation).2 := by
  induction before generalizing formula with
  | nil => rfl
  | cons first others ih => exact ih (formula.perform first).1

/-- What a formula is after any history, and what its operations answered on the way. Adding tells new
clauses from old ones also where it is a step of an extension or of a reading, with some clauses of the same
operation added before. -/
theorem performAll_keeps (history : List Operation) :
    (empty.performAll history).1.Keeps (history.flatMap Operation.offers) ∧
    (∀ clause later,
      (empty.performAll (history ++ .add clause :: later)).2[history.length]? =
        some (.added (decide (clause ∉ history.flatMap Operation.offers)))) ∧
    (∀ front clause, (((empty.performAll history).1.extend front).add clause).2 =
      decide (clause ∉ history.flatMap Operation.offers ++ front)) ∧
    ∀ other, ((empty.performAll history).1 == (empty.performAll other).1) = true ↔
      ∀ clause, clause ∈ (empty.performAll history).1 ↔ clause ∈ (empty.performAll other).1 := by
  have kept := empty.performAll_fst history
  change (empty.performAll history).1 = ofList (history.flatMap Operation.offers) at kept
  refine ⟨?_, ?_, ?_, fun other => beq_eq_true_iff⟩
  · rw [kept]
    exact keeps_ofList _
  · intro clause later
    have answer : ((ofList (history.flatMap Operation.offers)).perform (.add clause)).2 =
        .added ((ofList (history.flatMap Operation.offers)).add clause).2 := rfl
    rw [getElem?_performAll_snd, kept, answer, add_ofList_snd]
  · intro front clause
    rw [kept, ofList, ← extend_append, ← ofList, add_ofList_snd]

/-- A reading that stops at its third line has added what it found before. -/
example :
    let source := Source.ofBytes (Text.Utf8.encode "-> q\n-> p\np\n-> r\n")
    let last := (empty.performAll [.add (.fact (.named "p")), .read source]).1
    last.clauses = #[.fact (.named "p"), .fact (.named "q")] := by
  decide +kernel

end Formula
end HornLogic
