import HornLogic.Proofs.Clause.Padding

/-!
# Which error comes first

Several things can be wrong with one line, and reading reports the first of them in a fixed order: no text at
all, arrows that are not exactly one, a left side that is no conjunction, no conclusion (`Standing` lists the
five ways a line can be). The symbols of the left side are never to blame for a missing symbol, because every
symbol that is cut from a scope begins with a character that is not blank (`Scope.symbol_of_opening`).
-/
namespace HornLogic

set_option autoImplicit false

open Text

namespace Conjunction

/-- A symbol that is cut from a scope has no blanks to trim and stands for an atom. -/
theorem Scope.symbol_of_opening {scope after : Scope} {characters : List Char}
    (opens : scope.opening = .ok (.symbol characters after)) :
    trim characters = characters ∧ ∃ atom, Atom.ofSymbol (String.ofList characters) = .ok atom := by
  cases opening_eq_ok_iff.mp opens with
  | symbol blank shaped stops cut =>
      constructor
      · apply trim_of_solid
        intro character member
        exact solid_of_inSymbol (shaped.solid character member)
      · apply Atom.ofSymbol_of_solid
        rw [String.toList_ofList]
        exact shaped.not_blank

/-- Reading a conjunction gives its atoms, or finds a fault in its text. -/
theorem atoms_cases (text : List Char) :
    (∃ symbols premise, Derives text symbols ∧ atoms text = .ok premise) ∨
      ∃ fault position, (⟨0, text⟩ : Scope).symbols = .error ⟨fault, position⟩ ∧
        atoms text = .error (.conjunction fault position (String.ofList text)) := by
  cases read : (⟨0, text⟩ : Scope).symbols with
  | ok symbols =>
      have derived := (symbols_eq_ok_iff_derives _).mp read
      obtain ⟨premise, named⟩ := atoms_of_derives derived
      exact .inl ⟨symbols, premise, derived, named⟩
  | error placed =>
      exact .inr ⟨placed.fault, placed.position, rfl, by rw [atoms, read]⟩

theorem not_derives_of_symbols {text : List Char} {fault : PlacedFault}
    (fails : (⟨0, text⟩ : Scope).symbols = .error fault) (symbols : List (List Char)) :
    ¬ Derives text symbols := by
  intro derived
  rw [(symbols_eq_ok_iff_derives ⟨0, text⟩).mpr derived] at fails
  cases fails

theorem atoms_ne_emptySymbol (text : List Char) : atoms text ≠ .error .emptySymbol := by
  rcases atoms_cases text with ⟨_, _, _, read⟩ | ⟨_, _, _, fails⟩
  · rw [read]
    exact nofun
  · rw [fails]
    exact nofun

end Conjunction

namespace Clause

/-- The ways a line can be, each with what reading it gives. -/
inductive Standing (line : String) : Except ParseError Clause → Prop where
  | blank (blank : allBlank line.toList = true) : Standing line (.error .blankClause)
  | arrows (solid : allBlank line.toList = false) (none : ∀ left right, ¬ SoleArrow line.toList left right) :
      Standing line (.error (.arrowCount line))
  | conjunction {left right : List Char} {fault : Fault} {position : Nat}
      (sole : SoleArrow line.toList left right)
      (fails : (⟨0, trim left⟩ : Conjunction.Scope).symbols = .error ⟨fault, position⟩) :
      Standing line (.error (.conjunction fault position (String.ofList (trim left))))
  | conclusion {left right : List Char} {symbols : List (List Char)}
      (sole : SoleArrow line.toList left right) (derived : Conjunction.Derives (trim left) symbols)
      (blank : allBlank right = true) : Standing line (.error .emptySymbol)
  | accepted {left right : List Char} {symbols : List (List Char)} {clause : Clause}
      (layout : Layout line left right symbols) : Standing line (.ok clause)

theorem parse_of_blank {line : String} (blank : allBlank line.toList = true) :
    parse line = .error .blankClause := by
  rw [parse, if_pos blank]

theorem parse_of_no_sides {line : String} (solid : allBlank line.toList = false)
    (none : soleArrow line.toList = none) : parse line = .error (.arrowCount line) := by
  rw [parse, solid, if_neg Bool.false_ne_true, none]

theorem parse_of_sides {line : String} {left right : List Char} (sole : SoleArrow line.toList left right) :
    parse line = do
      let premise ← Conjunction.atoms (trim left)
      let conclusion ← Atom.ofSymbol (String.ofList (trim right))
      return .ofList premise conclusion := by
  rw [parse, sole.not_blank, if_neg Bool.false_ne_true, soleArrow_eq_some_iff.mpr sole]

theorem parse_of_no_conclusion {line : String} {left right : List Char} {symbols : List (List Char)}
    (sole : SoleArrow line.toList left right) (derived : Conjunction.Derives (trim left) symbols)
    (blank : allBlank right = true) : parse line = .error .emptySymbol := by
  obtain ⟨premise, read⟩ := Conjunction.atoms_of_derives derived
  rw [parse_of_sides sole, read, trim_eq_nil_iff.mpr blank]
  rfl

theorem standing_of_sides {line : String} {left right : List Char} (sole : SoleArrow line.toList left right) :
    Standing line (parse line) := by
  rcases Conjunction.atoms_cases (trim left) with
    ⟨symbols, premise, derived, read⟩ | ⟨fault, position, symbolsFail, fails⟩
  · cases blank : allBlank right with
    | true =>
        rw [parse_of_no_conclusion sole derived blank]
        exact .conclusion sole derived blank
    | false =>
        have present : trim right ≠ [] := by
          rw [ne_eq, trim_eq_nil_iff, blank]
          exact Bool.false_ne_true
        obtain ⟨conclusion, named⟩ := Atom.ofSymbol_trim_iff.mpr present
        rw [parse_of_sides sole, read, named]
        exact .accepted ⟨sole, derived, present⟩
  · rw [parse_of_sides sole, fails]
    exact .conjunction sole symbolsFail

theorem standing_parse (line : String) : Standing line (parse line) := by
  cases blank : allBlank line.toList with
  | true =>
      rw [parse_of_blank blank]
      exact .blank blank
  | false =>
      cases sides : soleArrow line.toList with
      | none =>
          rw [parse_of_no_sides blank sides]
          refine .arrows blank fun left right sole => ?_
          rw [soleArrow_eq_some_iff.mpr sole] at sides
          cases sides
      | some parts => exact standing_of_sides (soleArrow_eq_some_iff.mp sides)

theorem parse_eq_blankClause_iff {line : String} :
    parse line = .error .blankClause ↔ allBlank line.toList = true := by
  constructor
  · intro fails
    have standing := fails ▸ standing_parse line
    cases standing with
    | blank blank => exact blank
  · exact parse_of_blank

theorem parse_eq_arrowCount_iff {line shown : String} :
    parse line = .error (.arrowCount shown) ↔
      shown = line ∧ allBlank line.toList = false ∧ ∀ left right, ¬ SoleArrow line.toList left right := by
  constructor
  · intro fails
    have standing := fails ▸ standing_parse line
    cases standing with
    | arrows solid none => exact ⟨rfl, solid, none⟩
  · rintro ⟨rfl, solid, none⟩
    cases sides : soleArrow shown.toList with
    | none => exact parse_of_no_sides solid sides
    | some parts => exact absurd (soleArrow_eq_some_iff.mp sides) (none parts.1 parts.2)

theorem parse_eq_conjunction_iff {line text : String} :
    (∃ fault position, parse line = .error (.conjunction fault position text)) ↔
      ∃ left right, SoleArrow line.toList left right ∧ text = String.ofList (trim left) ∧
        ∀ symbols, ¬ Conjunction.Derives (trim left) symbols := by
  constructor
  · intro ⟨fault, position, fails⟩
    have standing := fails ▸ standing_parse line
    cases standing with
    | conjunction sole symbolsFail => exact ⟨_, _, sole, rfl, Conjunction.not_derives_of_symbols symbolsFail⟩
  · rintro ⟨left, right, sole, rfl, refused⟩
    rcases Conjunction.atoms_cases (trim left) with ⟨symbols, _, derived, _⟩ | ⟨fault, position, _, fails⟩
    · exact absurd derived (refused symbols)
    · exact ⟨fault, position, by rw [parse_of_sides sole, fails]; rfl⟩

theorem parse_eq_emptySymbol_iff {line : String} :
    parse line = .error .emptySymbol ↔
      ∃ left right symbols, SoleArrow line.toList left right ∧ Conjunction.Derives (trim left) symbols ∧
        allBlank right = true := by
  constructor
  · intro fails
    have standing := fails ▸ standing_parse line
    cases standing with
    | conclusion sole derived blank => exact ⟨_, _, _, sole, derived, blank⟩
  · intro ⟨left, right, symbols, sole, derived, blank⟩
    exact parse_of_no_conclusion sole derived blank

/-- The error of a line is decided by the first thing that is wrong with it, and a symbol is missing only
where the conclusion should be. -/
theorem parse_error_priority (line : String) :
    (parse line = .error .blankClause ↔ allBlank line.toList = true) ∧
      (∀ shown, parse line = .error (.arrowCount shown) ↔
        shown = line ∧ allBlank line.toList = false ∧ ∀ left right, ¬ SoleArrow line.toList left right) ∧
      (∀ text, (∃ fault position, parse line = .error (.conjunction fault position text)) ↔
        ∃ left right, SoleArrow line.toList left right ∧ text = String.ofList (trim left) ∧
          ∀ symbols, ¬ Conjunction.Derives (trim left) symbols) ∧
      (parse line = .error .emptySymbol ↔
        ∃ left right symbols, SoleArrow line.toList left right ∧ Conjunction.Derives (trim left) symbols ∧
          allBlank right = true) ∧
      (∀ text, Conjunction.atoms text ≠ .error .emptySymbol) ∧
      ∀ (scope after : Conjunction.Scope) characters, scope.opening = .ok (.symbol characters after) →
        trim characters = characters ∧ ∃ atom, Atom.ofSymbol (String.ofList characters) = .ok atom :=
  ⟨parse_eq_blankClause_iff, fun _ => parse_eq_arrowCount_iff, fun _ => parse_eq_conjunction_iff,
    parse_eq_emptySymbol_iff, Conjunction.atoms_ne_emptySymbol,
    fun _ _ _ => Conjunction.Scope.symbol_of_opening⟩

end Clause
end HornLogic
