import HornLogic.Proofs.Clause.Sides
import HornLogic.Proofs.Conjunction.Regrouping
import Mathlib.Control.Monad.Basic

/-!
# Clauses whose left side is put together

The left side of a line may be joined to another one, set in parentheses or taken out of them, and the clause
that is read is the one to be expected (`parse_joined`, `parse_flattened`). No shape is asked of the sides:
their symbols may hold parentheses that fit nothing, as long as what is set in parentheses is balanced.
-/
namespace HornLogic.Clause

set_option autoImplicit false

open Text Conjunction

theorem line_eq (left right : String) :
    left ++ "->" ++ right = String.ofList (left.toList ++ '-' :: '>' :: right.toList) := by
  apply String.toList_inj.mp
  simp

theorem parse_line_eq_ok_iff {left right : String} {clause : Clause} :
    parse (left ++ "->" ++ right) = .ok clause ↔
      (¬ HasArrow left.toList ∧ ¬ HasArrow right.toList) ∧ ∃ symbols premise conclusion,
        Derives left.toList symbols ∧
        (symbols.mapM fun symbol => Atom.ofSymbol (String.ofList symbol)) = .ok premise ∧
        Atom.ofSymbol (String.ofList (trim right.toList)) = .ok conclusion ∧
        clause = .ofList premise conclusion := by
  rw [line_eq, parse_sides_eq_ok_iff]

/-- Two left sides that write the same symbols are read to the same clause. -/
theorem parse_of_same_symbols {left other right : String} {symbols : List (List Char)} {clause : Clause}
    (read : parse (left ++ "->" ++ right) = .ok clause) (derived : Derives left.toList symbols)
    (otherDerived : Derives other.toList symbols) (noArrow : ¬ HasArrow other.toList) :
    parse (other ++ "->" ++ right) = .ok clause := by
  obtain ⟨plain, _, premise, conclusion, readDerived, named, readConclusion, built⟩ :=
    parse_line_eq_ok_iff.mp read
  obtain rfl := derived.unique readDerived
  exact parse_line_eq_ok_iff.mpr
    ⟨⟨noArrow, plain.2⟩, symbols, premise, conclusion, otherDerived, named, readConclusion, built⟩

theorem ofList_append_congr {left right premise : List Atom} {conclusion : Atom}
    (same : ∀ atom, atom ∈ premise ↔ atom ∈ left ∨ atom ∈ right) :
    ofList premise conclusion =
      ofList ((SortedBy.ofList left : AtomSet).toList ++ (SortedBy.ofList right : AtomSet).toList)
        conclusion := by
  apply ofList_congr
  intro atom
  rw [same, List.mem_append, ← SortedBy.mem_def, ← SortedBy.mem_def, SortedBy.mem_ofList, SortedBy.mem_ofList]

variable {left right other otherRight : String} {clause otherClause : Clause}

/-- A left side is accepted with every right side that is. -/
theorem parse_with_right (read : parse (left ++ "->" ++ right) = .ok clause)
    (otherRead : parse (other ++ "->" ++ otherRight) = .ok otherClause) :
    parse (other ++ "->" ++ right) = .ok ⟨otherClause.premise, clause.conclusion⟩ := by
  obtain ⟨⟨_, rightPlain⟩, _, _, conclusion, _, _, readConclusion, rfl⟩ := parse_line_eq_ok_iff.mp read
  obtain ⟨⟨otherPlain, _⟩, symbols, premise, _, derived, named, _, rfl⟩ := parse_line_eq_ok_iff.mp otherRead
  exact parse_line_eq_ok_iff.mpr
    ⟨⟨otherPlain, rightPlain⟩, symbols, premise, conclusion, derived, named, readConclusion, rfl⟩

theorem parse_join (read : parse (left ++ "->" ++ right) = .ok clause)
    (otherRead : parse (other ++ "->" ++ otherRight) = .ok otherClause)
    (present : allBlank left.toList = false) (otherPresent : allBlank other.toList = false) :
    parse (left ++ " & " ++ other ++ "->" ++ right) =
      .ok (.ofList (clause.premise.toList ++ otherClause.premise.toList) clause.conclusion) := by
  obtain ⟨⟨leftPlain, rightPlain⟩, symbols, premise, conclusion, derived, named, readConclusion, rfl⟩ :=
    parse_line_eq_ok_iff.mp read
  obtain ⟨⟨otherPlain, _⟩, later, otherPremise, _, otherDerived, otherNamed, _, rfl⟩ :=
    parse_line_eq_ok_iff.mp otherRead
  have text : (left ++ " & " ++ other).toList = left.toList ++ [' ', '&', ' '] ++ other.toList := by simp
  have plain : ¬ HasArrow (left ++ " & " ++ other).toList := by
    rw [text, hasArrow_apart_iff (by decide) (by simp), not_or]
    exact ⟨leftPlain, otherPlain⟩
  have joined := derived.join_spaced otherDerived present otherPresent
  rw [← text] at joined
  refine parse_line_eq_ok_iff.mpr ⟨⟨plain, rightPlain⟩, symbols ++ later, premise ++ otherPremise, conclusion,
    joined, mapM_append_eq_ok named otherNamed, readConclusion, ?_⟩
  exact (ofList_append_congr fun atom => List.mem_append).symm

theorem parse_join_swap (read : parse (left ++ "->" ++ right) = .ok clause)
    (otherRead : parse (other ++ "->" ++ otherRight) = .ok otherClause)
    (present : allBlank left.toList = false) (otherPresent : allBlank other.toList = false) :
    parse (other ++ " & " ++ left ++ "->" ++ right) = parse (left ++ " & " ++ other ++ "->" ++ right) := by
  rw [parse_join read otherRead present otherPresent,
    parse_join (parse_with_right read otherRead) read otherPresent present]
  apply congrArg
  apply ofList_congr
  intro atom
  rw [List.mem_append, List.mem_append, or_comm]

theorem parse_join_self (read : parse (left ++ "->" ++ right) = .ok clause)
    (present : allBlank left.toList = false) :
    parse (left ++ " & " ++ left ++ "->" ++ right) = .ok clause := by
  rw [parse_join read read present present]
  obtain ⟨_, _, premise, conclusion, _, _, _, rfl⟩ := parse_line_eq_ok_iff.mp read
  exact congrArg _ (ofList_append_congr fun atom => or_self_iff.symm).symm

theorem parse_parenthesize (read : parse (left ++ "->" ++ right) = .ok clause)
    (balanced : Balanced left.toList) :
    parse ("(" ++ left ++ ")" ++ "->" ++ right) = .ok clause := by
  obtain ⟨⟨plain, _⟩, symbols, _, _, derived, _⟩ := parse_line_eq_ok_iff.mp read
  have text : ("(" ++ left ++ ")").toList = opener :: left.toList ++ [closer] := by simp [opener, closer]
  apply parse_of_same_symbols read derived
  · rw [text]
    exact derived.parenthesize balanced
  · rw [text, hasArrow_group_iff]
    exact plain

/-- Left sides that are not blank can be joined, in either order and each with itself, to a left side with the
atoms of both, and balanced ones can be set in parentheses. -/
theorem parse_joined (read : parse (left ++ "->" ++ right) = .ok clause) :
    (∀ other otherRight otherClause, parse (other ++ "->" ++ otherRight) = .ok otherClause →
      allBlank left.toList = false → allBlank other.toList = false →
      parse (left ++ " & " ++ other ++ "->" ++ right) =
          .ok (.ofList (clause.premise.toList ++ otherClause.premise.toList) clause.conclusion) ∧
        parse (other ++ " & " ++ left ++ "->" ++ right) = parse (left ++ " & " ++ other ++ "->" ++ right)) ∧
      (allBlank left.toList = false → parse (left ++ " & " ++ left ++ "->" ++ right) = .ok clause) ∧
      (Balanced left.toList → parse ("(" ++ left ++ ")" ++ "->" ++ right) = .ok clause) := by
  refine ⟨?_, parse_join_self read, parse_parenthesize read⟩
  intro other otherRight otherClause otherRead present otherPresent
  exact ⟨parse_join read otherRead present otherPresent,
    parse_join_swap read otherRead present otherPresent⟩

/-- Parentheses that symbols hold fit across the separators and count for the balance. -/
theorem parse_joined_stray :
    let clause := ofList [.named "p(", .named "r)"] (.named "q")
    let otherClause := ofList [.named "x("] (.named "w")
    parse ("p( & r)" ++ "->" ++ " q") = .ok clause ∧
      parse ("x( & ()" ++ "->" ++ "w") = .ok otherClause ∧
      allBlank "p( & r)".toList = false ∧ allBlank "x( & ()".toList = false ∧ Balanced "p( & r)".toList ∧
      parse ("p( & r)" ++ " & " ++ "x( & ()" ++ "->" ++ " q") =
        .ok (.ofList (clause.premise.toList ++ otherClause.premise.toList) clause.conclusion) ∧
      parse ("(" ++ "p( & r)" ++ ")" ++ "->" ++ " q") = .ok clause := by
  intro clause otherClause
  have read : parse ("p( & r)" ++ "->" ++ " q") = .ok clause := by decide +kernel
  have otherRead : parse ("x( & ()" ++ "->" ++ "w") = .ok otherClause := by decide +kernel
  have present : allBlank "p( & r)".toList = false := by decide
  have otherPresent : allBlank "x( & ()".toList = false := by decide
  have balanced : Balanced "p( & r)".toList := by decide
  obtain ⟨joins, _, parenthesizes⟩ := parse_joined read
  exact ⟨read, otherRead, present, otherPresent, balanced,
    (joins _ _ _ otherRead present otherPresent).1, parenthesizes balanced⟩

/-- The parentheses of an accepted left side can be dropped, unless a symbol holds one of them or a pair has
nothing in it. -/
theorem parse_flattened {symbols : List (List Char)} (read : parse (left ++ "->" ++ right) = .ok clause)
    (derived : Derives left.toList symbols) (plain : Plain symbols) (filled : Filled left.toList) :
    parse (String.ofList (flatten left.toList) ++ "->" ++ right) = .ok clause := by
  have noArrow := (parse_line_eq_ok_iff.mp read).1.1
  apply parse_of_same_symbols read derived
  · rw [String.toList_ofList]
    exact (derived.flattened plain filled).1
  · rw [String.toList_ofList]
    exact derived.not_hasArrow_flatten plain filled noArrow

theorem parse_flattened_nested :
    let clause := ofList [.named "a", .named ">b", .named "c-"] (.named "q")
    let symbols := ["a".toList, ">b".toList, "c-".toList, "a".toList]
    parse ("( a &(( >b) & (c-) ))&a" ++ "->" ++ "q") = .ok clause ∧
      Derives "( a &(( >b) & (c-) ))&a".toList symbols ∧ Plain symbols ∧
      Filled "( a &(( >b) & (c-) ))&a".toList ∧ parse (" a & >b & c- &a" ++ "->" ++ "q") = .ok clause := by
  intro clause symbols
  have read : parse ("( a &(( >b) & (c-) ))&a" ++ "->" ++ "q") = .ok clause := by decide +kernel
  have derived : Derives "( a &(( >b) & (c-) ))&a".toList symbols := by decide +kernel
  have plain : Plain symbols := by decide
  have filled : Filled "( a &(( >b) & (c-) ))&a".toList := by decide
  have flat : String.ofList (flatten "( a &(( >b) & (c-) ))&a".toList) = " a & >b & c- &a" := by decide +kernel
  have flattened := parse_flattened read derived plain filled
  rw [flat] at flattened
  exact ⟨read, derived, plain, filled, flattened⟩

end HornLogic.Clause
