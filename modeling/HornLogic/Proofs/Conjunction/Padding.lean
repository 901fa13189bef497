import HornLogic.Proofs.Clause.Padding

/-!
# Blanks around a conjunction

A conjunct begins and ends with characters that are not blank, so blanks around a conjunction fall to the
blanks that the grammar allows there. A text is a conjunction exactly when it is one without the blanks at
its ends, and writes the same symbols (`derives_trim_iff`). Two conjunctions that are not blank are one with a
separator between them (`Derives.join`), whatever blanks are around it.
-/
namespace HornLogic.Conjunction

set_option autoImplicit false

open Text

theorem DerivesConjunct.ends {conjunct : List Char} {symbols : List (List Char)}
    (part : DerivesConjunct conjunct symbols) :
    ∃ front last, conjunct = front ++ [last] ∧ isBlank last = false := by
  cases part with
  | symbol shaped =>
      obtain ⟨first, rest, begins, _, _⟩ := shaped.begins
      rcases List.eq_nil_or_concat conjunct with empty | ⟨front, last, parts⟩
      · rw [empty] at begins
        cases begins
      · rw [List.concat_eq_append] at parts
        have solid := shaped.solid last (by simp [parts])
        exact ⟨front, last, parts, Scope.solid_of_inSymbol solid⟩
  | @group inside _ content balanced => exact ⟨opener :: inside, closer, rfl, by decide⟩

theorem DerivesConjunct.starts {conjunct : List Char} {symbols : List (List Char)}
    (part : DerivesConjunct conjunct symbols) :
    ∃ first rest, conjunct = first :: rest ∧ isBlank first = false := by
  obtain ⟨first, rest, parts, solid, _⟩ := part.begins
  exact ⟨first, rest, parts, Scope.solid_of_inSymbol solid⟩

/-- A character that is not blank stands in front of the blanks at the end of a text. -/
theorem solid_ahead {front rest text after : List Char} {solid : Char} (notBlank : isBlank solid = false)
    (blank : allBlank after = true) (split : front ++ solid :: rest = text ++ after) :
    ∃ shorter, text = front ++ solid :: shorter ∧ rest = shorter ++ after := by
  rcases List.append_eq_append_iff.mp split with ⟨shorter, ahead, later⟩ | ⟨inner, _, later⟩
  · cases shorter with
    | nil =>
        rw [List.nil_append] at later
        exact absurd (by simp [← later]) (not_mem_of_blank blank notBlank)
    | cons first shorter =>
        cases later
        exact ⟨shorter, ahead, rfl⟩
  · exact absurd (by simp [later]) (not_mem_of_blank blank notBlank)

/-- A character that is not blank stands behind the blanks at the front of a text. -/
theorem solid_behind {front rest text before : List Char} {solid : Char} (notBlank : isBlank solid = false)
    (blank : allBlank before = true) (split : before ++ text = front ++ solid :: rest) :
    ∃ shorter, front = before ++ shorter ∧ text = shorter ++ solid :: rest := by
  rcases List.append_eq_append_iff.mp split with ⟨shorter, ahead, later⟩ | ⟨inner, ahead, later⟩
  · exact ⟨shorter, ahead, later⟩
  · cases inner with
    | nil =>
        rw [List.append_nil] at ahead
        exact ⟨[], by rw [ahead, List.append_nil], later.symm⟩
    | cons first inner =>
        cases later
        exact absurd (by simp [ahead]) (not_mem_of_blank blank notBlank)

theorem allBlank_append {left right : List Char} :
    allBlank (left ++ right) = true ↔ allBlank left = true ∧ allBlank right = true := by
  rw [allBlank, List.all_append, Bool.and_eq_true]
  rfl

theorem allBlank_append_eq_false {left right : List Char}
    (present : allBlank left = false ∨ allBlank right = false) :
    allBlank (left ++ right) = false := by
  rw [← Bool.not_eq_true, allBlank_append]
  rintro ⟨blankLeft, blankRight⟩
  rw [blankLeft, blankRight] at present
  simp at present

namespace Derives

theorem blank_append {text before : List Char} {symbols : List (List Char)}
    (blank : allBlank before = true) (derived : Derives text symbols) : Derives (before ++ text) symbols := by
  cases derived with
  | blank blankAll => exact .blank (allBlank_append.mpr ⟨blank, blankAll⟩)
  | last blankBefore part blankAfter =>
      rw [← List.append_assoc, ← List.append_assoc]
      exact .last (allBlank_append.mpr ⟨blank, blankBefore⟩) part blankAfter
  | more blankBefore part blankAfter continues others =>
      rw [← List.append_assoc, ← List.append_assoc, ← List.append_assoc]
      exact .more (allBlank_append.mpr ⟨blank, blankBefore⟩) part blankAfter continues others

theorem of_blank_append {text before : List Char} {symbols : List (List Char)}
    (blank : allBlank before = true) (derived : Derives (before ++ text) symbols) : Derives text symbols := by
  generalize wholeEq : before ++ text = whole at derived
  cases derived with
  | blank blankAll =>
      rw [← wholeEq] at blankAll
      exact .blank (allBlank_append.mp blankAll).2
  | last blankBefore part blankAfter =>
      obtain ⟨first, rest, rfl, solid⟩ := part.starts
      rw [List.append_assoc] at wholeEq
      obtain ⟨shorter, rfl, textEq⟩ := solid_behind solid blank wholeEq
      have derived := Derives.last (allBlank_append.mp blankBefore).2 part blankAfter
      simpa [textEq] using derived
  | more blankBefore part blankAfter continues others =>
      obtain ⟨first, rest, rfl, solid⟩ := part.starts
      rw [List.append_assoc, List.append_assoc] at wholeEq
      obtain ⟨shorter, rfl, textEq⟩ := solid_behind solid blank wholeEq
      have derived := Derives.more (allBlank_append.mp blankBefore).2 part blankAfter continues others
      simpa [textEq] using derived

/-- Induction along the conjuncts of one scope. -/
@[elab_as_elim]
theorem along {motive : ∀ text symbols, Derives text symbols → Prop}
    (blank : ∀ {text} (blankAll : allBlank text = true), motive text [] (.blank blankAll))
    (last : ∀ {before conjunct after symbols} (blankBefore : allBlank before = true)
      (part : DerivesConjunct conjunct symbols) (blankAfter : allBlank after = true),
      motive (before ++ conjunct ++ after) symbols (.last blankBefore part blankAfter))
    (more : ∀ {before conjunct after rest symbols later} (blankBefore : allBlank before = true)
      (part : DerivesConjunct conjunct symbols) (blankAfter : allBlank after = true)
      (continues : allBlank rest = false) (others : Derives rest later), motive rest later others →
      motive (before ++ conjunct ++ after ++ separator :: rest) (symbols ++ later)
        (.more blankBefore part blankAfter continues others))
    {text : List Char} {symbols : List (List Char)} (derived : Derives text symbols) :
    motive text symbols derived :=
  @Derives.rec motive (fun _ _ _ => True) blank
    (fun blankBefore part blankAfter _ => last blankBefore part blankAfter)
    (fun blankBefore part blankAfter continues others _ ih =>
      more blankBefore part blankAfter continues others ih)
    (fun _ => trivial) (fun _ _ _ => trivial) text symbols derived

theorem append_blank {text after : List Char} {symbols : List (List Char)}
    (derived : Derives text symbols) (blank : allBlank after = true) : Derives (text ++ after) symbols := by
  induction derived using along with
  | blank blankAll => exact .blank (allBlank_append.mpr ⟨blankAll, blank⟩)
  | last blankBefore part blankAfter =>
      rw [List.append_assoc]
      exact .last blankBefore part (allBlank_append.mpr ⟨blankAfter, blank⟩)
  | more blankBefore part blankAfter continues others longer =>
      rw [List.append_assoc, List.cons_append]
      exact .more blankBefore part blankAfter (allBlank_append_eq_false (.inl continues)) longer

theorem of_append_blank {whole text after : List Char} {symbols : List (List Char)}
    (derived : Derives whole symbols) (blank : allBlank after = true) (split : whole = text ++ after) :
    Derives text symbols := by
  induction derived using along generalizing text with
  | blank blankAll =>
      rw [split] at blankAll
      exact .blank (allBlank_append.mp blankAll).1
  | last blankBefore part blankAfter =>
      obtain ⟨front, last, rfl, solid⟩ := part.ends
      simp only [List.append_assoc, List.singleton_append] at split
      rw [← List.append_assoc] at split
      obtain ⟨shorter, textEq, afterEq⟩ := solid_ahead solid blank split
      rw [afterEq] at blankAfter
      have shorterDerived := Derives.last blankBefore part (allBlank_append.mp blankAfter).1
      simpa [textEq] using shorterDerived
  | more blankBefore part blankAfter continues others ih =>
      obtain ⟨shorter, textEq, restEq⟩ := solid_ahead (by decide) blank split
      rw [restEq, allBlank, List.all_append, ← allBlank, ← allBlank, blank, Bool.and_true] at continues
      rw [textEq]
      exact .more blankBefore part blankAfter continues (ih restEq)

/-- Two conjunctions with a separator between them are one. -/
theorem join {left right : List Char} {symbols later : List (List Char)} (derived : Derives left symbols)
    (others : Derives right later) (present : allBlank left = false) (continues : allBlank right = false) :
    Derives (left ++ separator :: right) (symbols ++ later) := by
  induction derived using along with
  | blank blankAll =>
      rw [present] at blankAll
      cases blankAll
  | last blankBefore part blankAfter => exact .more blankBefore part blankAfter continues others
  | more blankBefore part blankAfter restContinues _ ih =>
      rw [List.append_assoc, List.cons_append, List.append_assoc _ _ later]
      exact .more blankBefore part blankAfter (allBlank_append_eq_false (.inl restContinues))
        (ih restContinues)

theorem join_spaced {left right : List Char} {symbols later : List (List Char)} (derived : Derives left symbols)
    (others : Derives right later) (present : allBlank left = false) (continues : allBlank right = false) :
    Derives (left ++ [' ', '&', ' '] ++ right) (symbols ++ later) := by
  have blank : allBlank [' '] = true := by decide
  have joined := (derived.append_blank blank).join (others.blank_append blank)
    (allBlank_append_eq_false (.inl present)) (allBlank_append_eq_false (.inr continues))
  simpa [separator] using joined

end Derives

theorem derives_trim_iff {text : List Char} {symbols : List (List Char)} :
    Derives (trim text) symbols ↔ Derives text symbols := by
  obtain ⟨before, after, blankBefore, blankAfter, parts⟩ := exists_trim text
  constructor
  · intro derived
    rw [parts]
    exact (derived.blank_append blankBefore).append_blank blankAfter
  · intro derived
    have shorter := derived.of_append_blank blankAfter parts
    exact shorter.of_blank_append blankBefore

end HornLogic.Conjunction
