import HornLogic.Proofs.Clause.Arrow
import HornLogic.Proofs.Conjunction.Derivation

/-!
# Lines that are clauses

Reading a line accepts the clauses of the grammar and no other line. Once the sides of the arrow
are known, only a blank symbol could still fail, and neither a derived symbol nor a conclusion that
is there is blank.
-/
namespace HornLogic

set_option autoImplicit false

open Text

theorem Atom.ofSymbol_of_solid {symbol : String} (solid : allBlank symbol.toList = false) :
    ∃ atom, ofSymbol symbol = .ok atom := by
  rw [ofSymbol, solid, if_neg Bool.false_ne_true]
  split
  · exact ⟨_, rfl⟩
  · split <;> exact ⟨_, rfl⟩

theorem Atom.ofSymbol_of_blank {symbol : String} (blank : allBlank symbol.toList = true) :
    ofSymbol symbol = .error .emptySymbol := by
  rw [ofSymbol, if_pos blank]

theorem Atom.ofSymbol_trim_iff {text : List Char} :
    (∃ atom, ofSymbol (String.ofList (trim text)) = .ok atom) ↔ trim text ≠ [] := by
  constructor
  · intro ⟨atom, read⟩ empty
    rw [empty, ofSymbol_of_blank rfl] at read
    cases read
  · intro present
    apply ofSymbol_of_solid
    rw [String.toList_ofList, ← Bool.not_eq_true]
    exact fun blank => present (allBlank_trim_iff.mp blank)

namespace Conjunction

theorem IsSymbol.not_blank {symbol : List Char} (shaped : IsSymbol symbol) :
    allBlank symbol = false := by
  obtain ⟨first, rest, rfl, _, _⟩ := shaped.begins
  exact not_allBlank ⟨first, List.mem_cons_self, shaped.solid first List.mem_cons_self⟩

theorem atoms_eq_ok_iff {text : List Char} {premise : List Atom} :
    atoms text = .ok premise ↔
      ∃ symbols, Derives text symbols ∧
        (symbols.mapM fun symbol => Atom.ofSymbol (String.ofList symbol)) = .ok premise := by
  constructor
  · intro read
    unfold atoms at read
    split at read
    · cases read
    · rename_i symbols found
      exact ⟨symbols, (symbols_eq_ok_iff_derives _).mp found, read⟩
  · intro ⟨symbols, derived, named⟩
    rw [atoms, (symbols_eq_ok_iff_derives ⟨0, text⟩).mpr derived]
    exact named

/-- Every symbol that a conjunction writes stands for an atom. -/
theorem Derives.exists_premise {text : List Char} {symbols : List (List Char)}
    (derived : Derives text symbols) :
    ∃ premise, (symbols.mapM fun symbol => Atom.ofSymbol (String.ofList symbol)) = .ok premise := by
  apply mapM_succeeds
  intro symbol member
  apply Atom.ofSymbol_of_solid
  rw [String.toList_ofList]
  exact (derived.isSymbol symbol member).not_blank

theorem atoms_of_derives {text : List Char} {symbols : List (List Char)}
    (derived : Derives text symbols) : ∃ premise, atoms text = .ok premise := by
  obtain ⟨premise, named⟩ := derived.exists_premise
  exact ⟨premise, atoms_eq_ok_iff.mpr ⟨symbols, derived, named⟩⟩

end Conjunction

theorem SoleArrow.not_blank {line left right : List Char} (sole : SoleArrow line left right) :
    allBlank line = false := by
  rw [sole.split, allBlank, List.all_append, List.all_cons]
  have solid : isBlank '-' = false := by decide
  rw [solid, Bool.false_and, Bool.and_false]

namespace Clause

theorem parse_eq_ok_iff {line : String} {clause : Clause} :
    parse line = .ok clause ↔
      ∃ left right premise conclusion, SoleArrow line.toList left right ∧
        Conjunction.atoms (trim left) = .ok premise ∧
        Atom.ofSymbol (String.ofList (trim right)) = .ok conclusion ∧
        clause = .ofList premise conclusion := by
  constructor
  · intro read
    unfold parse at read
    split at read
    · cases read
    · split at read
      · cases read
      · rename_i left right sole
        obtain ⟨premise, readPremise, read⟩ := bind_eq_ok_iff.mp read
        obtain ⟨conclusion, readConclusion, read⟩ := bind_eq_ok_iff.mp read
        cases read
        exact ⟨left, right, premise, conclusion, soleArrow_eq_some_iff.mp sole, readPremise,
          readConclusion, rfl⟩
  · intro ⟨left, right, premise, conclusion, sole, readPremise, readConclusion, built⟩
    rw [parse, sole.not_blank, if_neg Bool.false_ne_true, soleArrow_eq_some_iff.mpr sole]
    dsimp only
    rw [readPremise, readConclusion, built]
    rfl

theorem parse_succeeds_iff {line : String} :
    (∃ clause, parse line = .ok clause) ↔ ∃ left right symbols, Layout line left right symbols := by
  constructor
  · intro ⟨clause, read⟩
    obtain ⟨left, right, premise, conclusion, sole, readPremise, readConclusion, _⟩ :=
      parse_eq_ok_iff.mp read
    obtain ⟨symbols, derived, _⟩ := Conjunction.atoms_eq_ok_iff.mp readPremise
    exact ⟨left, right, symbols, sole, derived,
      Atom.ofSymbol_trim_iff.mp ⟨conclusion, readConclusion⟩⟩
  · intro ⟨left, right, symbols, layout⟩
    obtain ⟨premise, readPremise⟩ := Conjunction.atoms_of_derives layout.premise
    obtain ⟨conclusion, readConclusion⟩ := Atom.ofSymbol_trim_iff.mpr layout.conclusion
    exact ⟨.ofList premise conclusion, parse_eq_ok_iff.mpr
      ⟨left, right, premise, conclusion, layout.arrow, readPremise, readConclusion, rfl⟩⟩

/-- What is read off an accepted line, and that every line in the form of a clause is accepted. -/
theorem parse_accepts_grammar (line : String) :
    (∀ clause, parse line = .ok clause ↔
      ∃ left right symbols premise conclusion, Layout line left right symbols ∧
        (symbols.mapM fun symbol => Atom.ofSymbol (String.ofList symbol)) = .ok premise ∧
        Atom.ofSymbol (String.ofList (trim right)) = .ok conclusion ∧
        clause = .ofList premise conclusion) ∧
    ((∃ clause, parse line = .ok clause) ↔
      ∃ left right symbols, Layout line left right symbols) := by
  constructor
  · intro clause
    rw [parse_eq_ok_iff]
    constructor
    · intro ⟨left, right, premise, conclusion, sole, readPremise, readConclusion, built⟩
      obtain ⟨symbols, derived, named⟩ := Conjunction.atoms_eq_ok_iff.mp readPremise
      have present := Atom.ofSymbol_trim_iff.mp ⟨conclusion, readConclusion⟩
      exact ⟨left, right, symbols, premise, conclusion, ⟨sole, derived, present⟩, named,
        readConclusion, built⟩
    · intro ⟨left, right, symbols, premise, conclusion, layout, named, readConclusion, built⟩
      have readPremise := Conjunction.atoms_eq_ok_iff.mpr ⟨symbols, layout.premise, named⟩
      exact ⟨left, right, premise, conclusion, layout.arrow, readPremise, readConclusion, built⟩
  · exact parse_succeeds_iff

end Clause
end HornLogic
