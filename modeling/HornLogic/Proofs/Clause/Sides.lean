import HornLogic.Clause.Sides
import HornLogic.Proofs.Conjunction.Padding

/-!
# Lines given by their sides

What a line says is decided by its two sides alone: neither may hold an arrow, the left one has to be a
conjunction, and the right one the symbol of an atom when its blanks are trimmed.
-/
namespace HornLogic.Clause

set_option autoImplicit false

open Text

theorem parse_sides_eq_ok_iff {left right : List Char} {clause : Clause} :
    parse (String.ofList (left ++ '-' :: '>' :: right)) = .ok clause ↔
      (¬ HasArrow left ∧ ¬ HasArrow right) ∧ ∃ symbols premise conclusion, Conjunction.Derives left symbols ∧
        (symbols.mapM fun symbol => Atom.ofSymbol (String.ofList symbol)) = .ok premise ∧
        Atom.ofSymbol (String.ofList (trim right)) = .ok conclusion ∧ clause = .ofList premise conclusion := by
  rw [parse_eq_ok_iff, String.toList_ofList]
  constructor
  · intro ⟨before, after, premise, conclusion, sole, readPremise, readConclusion, built⟩
    obtain ⟨rfl, rfl⟩ := sole.only left right rfl
    obtain ⟨symbols, derived, named⟩ := Conjunction.atoms_eq_ok_iff.mp readPremise
    exact ⟨(soleArrow_iff.mp sole).2, symbols, premise, conclusion,
      Conjunction.derives_trim_iff.mp derived, named, readConclusion, built⟩
  · intro ⟨plain, symbols, premise, conclusion, derived, named, readConclusion, built⟩
    have readPremise :=
      Conjunction.atoms_eq_ok_iff.mpr ⟨symbols, Conjunction.derives_trim_iff.mpr derived, named⟩
    exact ⟨left, right, premise, conclusion, soleArrow_iff.mpr ⟨rfl, plain⟩, readPremise,
      readConclusion, built⟩

theorem isLeftSide_iff {text : List Char} :
    IsLeftSide text ↔ ¬ HasArrow text ∧ ∃ symbols, Conjunction.Derives text symbols := by
  constructor
  · intro ⟨right, clause, read⟩
    obtain ⟨⟨plain, _⟩, symbols, _, _, derived, _⟩ := parse_sides_eq_ok_iff.mp read
    exact ⟨plain, symbols, derived⟩
  · intro ⟨plain, symbols, derived⟩
    obtain ⟨premise, named⟩ := derived.exists_premise
    exact ⟨['q'], .ofList premise (.named "q"), parse_sides_eq_ok_iff.mpr
      ⟨⟨plain, by decide⟩, symbols, premise, .named "q", derived, named, rfl, rfl⟩⟩

end HornLogic.Clause
