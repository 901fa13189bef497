import HornLogic.Atom

/-!
# Horn clauses

A clause says that its conclusion is true when every atom of its premise is. The premise is a set,
so neither the order nor the repetition of its atoms matters (`Clause.ofList_congr`).
-/
namespace HornLogic

set_option autoImplicit false

structure Clause where
  premise : AtomSet
  conclusion : Atom
  deriving DecidableEq

instance : Inhabited Clause := ⟨⟨.empty, .verum⟩⟩

namespace Clause

def ofList (premise : List Atom) (conclusion : Atom) : Clause :=
  ⟨.ofList premise, conclusion⟩

/-- The clause that asserts its conclusion. -/
def fact (conclusion : Atom) : Clause :=
  ⟨.empty, conclusion⟩

def isFact (clause : Clause) : Bool :=
  clause.premise.isEmpty

/-- The atoms of the premise in order and then the conclusion, which may be among them. -/
def atoms (clause : Clause) : List Atom :=
  clause.premise.toList ++ [clause.conclusion]

/-- Whether the clause is true on a valuation. The constants are taken as the valuation has them. -/
def holds (valuation : Valuation) (clause : Clause) : Bool :=
  (clause.premise.toList.any fun atom => !valuation atom) || valuation clause.conclusion

def render (clause : Clause) : String :=
  let premise := " ∧ ".intercalate (clause.premise.toList.map Atom.render)
  s!"({premise} -> {clause.conclusion.render})"

/-- Premises are compared first, as ascending sequences of atoms. -/
instance : Ord Clause where
  compare := compareLex (compareOn fun clause => clause.premise.toList) (compareOn conclusion)

instance : Std.TransOrd Clause :=
  inferInstanceAs <| Std.TransCmp <|
    compareLex (compareOn fun clause : Clause => clause.premise.toList) (compareOn conclusion)

theorem eq_of_compare_eq {left right : Clause} (same : compare left right = .eq) : left = right := by
  have parts : compareLex (compareOn fun clause : Clause => clause.premise.toList)
      (compareOn conclusion) left right = .eq := same
  simp only [compareLex_eq_eq, compareOn, Std.LawfulEqCmp.compare_eq_iff_eq] at parts
  obtain ⟨⟨leftPremise, _⟩, leftConclusion⟩ := left
  obtain ⟨⟨rightPremise, _⟩, rightConclusion⟩ := right
  simp_all

instance : Std.LawfulEqOrd Clause where
  eq_of_compare := eq_of_compare_eq

theorem ofList_congr {left right : List Atom} (conclusion : Atom)
    (same : ∀ atom, atom ∈ left ↔ atom ∈ right) : ofList left conclusion = ofList right conclusion := by
  have premises : (SortedBy.ofList left : AtomSet) = SortedBy.ofList right := by
    apply SortedBy.ext_of_mem
    simpa only [SortedBy.mem_ofList] using same
  rw [ofList, ofList, premises]

theorem holds_eq_true_iff {valuation : Valuation} {clause : Clause} :
    clause.holds valuation = true ↔
      ((∀ atom ∈ clause.premise, valuation atom = true) → valuation clause.conclusion = true) := by
  simp only [holds, Bool.or_eq_true, List.any_eq_true, SortedBy.mem_def, Bool.not_eq_true']
  constructor
  · intro trueClause premise
    rcases trueClause with ⟨atom, member, unmarked⟩ | concluded
    · rw [premise atom member] at unmarked
      cases unmarked
    · exact concluded
  · intro implies
    by_cases premise : ∀ atom ∈ clause.premise.toList, valuation atom = true
    · exact .inr (implies premise)
    · simp only [Classical.not_forall] at premise
      obtain ⟨atom, member, unmarked⟩ := premise
      exact .inl ⟨atom, member, by simpa using unmarked⟩

end Clause
end HornLogic
