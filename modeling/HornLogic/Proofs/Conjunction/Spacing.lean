import HornLogic.Proofs.Conjunction.Padding

/-!
# Blanks around separators

A separator ends a symbol as blanks do, so a text can be spread by blanks around its separators (`Spread`) and
every part that is cut from it is spread in the same way. So the same symbols are read, or the same fault is
found, at another place (`Scope.symbols_of_looser`). Blanks at the end of a text come under this too, and those
at its front are skipped before anything is read.
-/
namespace HornLogic.Conjunction

set_option autoImplicit false

open Text

/-- The second text is the first with blanks put in around separators and at the end. -/
inductive Spread : List Char → List Char → Prop where
  | finish {after : List Char} (blank : allBlank after = true) : Spread [] after
  | separator {before after text other : List Char} (blankBefore : allBlank before = true)
      (blankAfter : allBlank after = true) (rest : Spread text other) :
      Spread (separator :: text) (before ++ Conjunction.separator :: (after ++ other))
  | keep {character : Char} {text other : List Char} (differs : character ≠ Conjunction.separator)
      (rest : Spread text other) : Spread (character :: text) (character :: other)

theorem splitClose_append {depth : Nat} {front : List Char} (noOpener : opener ∉ front)
    (noCloser : closer ∉ front) (rest : List Char) :
    splitClose depth (front ++ rest) =
      (splitClose depth rest).map fun (inside, after) => (front ++ inside, after) := by
  induction front with
  | nil => exact Option.map_id'.symm
  | cons first others ih =>
      rw [List.mem_cons, not_or] at noOpener noCloser
      rw [List.cons_append, splitClose_other depth _ (Ne.symm noOpener.1) (Ne.symm noCloser.1),
        ih noOpener.2 noCloser.2, Option.map_map]
      rfl

namespace Spread

variable {text other : List Char}

theorem cons (character : Char) (spread : Spread text other) :
    Spread (character :: text) (character :: other) := by
  by_cases separates : character = Conjunction.separator
  · rw [separates]
    exact @Spread.separator [] [] _ _ rfl rfl spread
  · exact .keep separates spread

/-- Texts that are spread stay so behind the same front. -/
theorem behind (front : List Char) (spread : Spread text other) : Spread (front ++ text) (front ++ other) := by
  induction front with
  | nil => exact spread
  | cons first rest ih => exact ih.cons first

theorem refl (text : List Char) : Spread text text := by
  have ended : Spread [] [] := .finish rfl
  simpa using behind text ended

theorem dropBlank (spread : Spread text other) : Spread (dropBlank text) (dropBlank other) := by
  induction spread with
  | @finish after blank =>
      rw [(dropBlank_eq_nil_iff after).mpr blank]
      exact .finish rfl
  | @separator before after text other blankBefore blankAfter rest ih =>
      have stops : ∀ rest, Stops isBlank (Conjunction.separator :: rest) := fun rest =>
        stops_cons_iff.mpr (by decide)
      rw [Text.dropBlank, Text.dropBlank, dropWhile_eq_self (stops _),
        (run_eq_iff.mpr ⟨rfl, blankBefore, stops _⟩).2]
      exact @Spread.separator [] _ _ _ rfl blankAfter rest
  | @keep character text other differs rest ih =>
      rw [Text.dropBlank, Text.dropBlank, List.dropWhile_cons, List.dropWhile_cons]
      split
      · exact ih
      · exact .keep differs rest

/-- The symbol at the front is the same, and what is behind it is spread. -/
theorem symbol (spread : Spread text other) :
    other.takeWhile inSymbol = text.takeWhile inSymbol ∧
      Spread (text.dropWhile inSymbol) (other.dropWhile inSymbol) := by
  induction spread with
  | @finish after blank =>
      have stops : Stops inSymbol after := by simpa using Scope.blank_stops blank stops_nil
      rw [takeWhile_eq_nil stops, dropWhile_eq_self stops]
      exact ⟨rfl, .finish blank⟩
  | @separator before after text other blankBefore blankAfter rest ih =>
      have stops := Scope.blank_stops blankBefore (Scope.separator_stops (after ++ other))
      rw [takeWhile_eq_nil stops, dropWhile_eq_self stops]
      exact ⟨rfl, .separator blankBefore blankAfter rest⟩
  | @keep character text other differs rest ih =>
      simp only [List.takeWhile_cons, List.dropWhile_cons]
      split
      · exact ⟨congrArg (character :: ·) ih.1, ih.2⟩
      · exact ⟨rfl, .keep differs rest⟩

theorem rel_extend {front otherFront : List Char} {found otherFound : Option (List Char × List Char)}
    (spreadFront : ∀ {inside otherInside}, Spread inside otherInside →
      Spread (front ++ inside) (otherFront ++ otherInside))
    (alike : Option.Rel (fun parts others => Spread parts.1 others.1 ∧ Spread parts.2 others.2) found otherFound) :
    Option.Rel (fun parts others => Spread parts.1 others.1 ∧ Spread parts.2 others.2)
      (found.map fun (inside, after) => (front ++ inside, after))
      (otherFound.map fun (inside, after) => (otherFront ++ inside, after)) := by
  cases alike with
  | none => exact .none
  | some parts => exact .some ⟨spreadFront parts.1, parts.2⟩

/-- Blanks do not count as parentheses, so the one that fits is the same. -/
theorem splitClose (spread : Spread text other) (depth : Nat) :
    Option.Rel (fun parts others => Spread parts.1 others.1 ∧ Spread parts.2 others.2)
      (splitClose depth text) (splitClose depth other) := by
  induction spread generalizing depth with
  | @finish after blank =>
      have none : Conjunction.splitClose depth (after ++ []) = none :=
        splitClose_append (not_mem_of_blank blank (by decide)) (not_mem_of_blank blank (by decide)) []
      rw [List.append_nil] at none
      rw [none]
      exact .none
  | @separator before after text other blankBefore blankAfter rest ih =>
      have marks : ∀ mark, isBlank mark = false → mark ≠ Conjunction.separator →
          mark ∉ before ++ Conjunction.separator :: after := by
        intro mark solid differs
        rw [List.mem_append, List.mem_cons]
        rintro (member | same | member)
        · exact not_mem_of_blank blankBefore solid member
        · exact differs same
        · exact not_mem_of_blank blankAfter solid member
      have parts : before ++ Conjunction.separator :: (after ++ other) =
          (before ++ Conjunction.separator :: after) ++ other := by simp
      rw [parts, splitClose_append (marks opener (by decide) (by decide)) (marks closer (by decide) (by decide)),
        splitClose_other depth text (by decide) (by decide)]
      refine @rel_extend [Conjunction.separator] _ _ _ (fun inner => ?_) (ih depth)
      simpa using Spread.separator blankBefore blankAfter inner
  | @keep character text other differs rest ih =>
      have extended : ∀ deeper, Option.Rel (fun parts others => Spread parts.1 others.1 ∧ Spread parts.2 others.2)
          ((Conjunction.splitClose deeper text).map fun (inside, after) => (character :: inside, after))
          ((Conjunction.splitClose deeper other).map fun (inside, after) => (character :: inside, after)) :=
        fun deeper => @rel_extend [character] [character] _ _ (.keep differs) (ih deeper)
      by_cases opens : character = opener
      · rw [opens] at extended ⊢
        rw [splitClose_opener, splitClose_opener]
        exact extended (depth + 1)
      · by_cases closes : character = closer
        · rw [closes] at extended ⊢
          cases depth with
          | zero => exact .some ⟨.finish rfl, rest⟩
          | succ depth => exact extended depth
        · rw [splitClose_other depth text opens closes, splitClose_other depth other opens closes]
          exact extended depth

theorem all_idle_of_blank {blanks : List Char} (blank : allBlank blanks = true) :
    (blanks.all fun later => later == Conjunction.separator || later == closer || isBlank later) = true := by
  rw [List.all_eq_true]
  intro character member
  rw [List.all_eq_true.mp blank character member, Bool.or_true]

/-- Blanks begin no conjunct. -/
theorem all_idle (spread : Spread text other) :
    (other.all fun later => later == Conjunction.separator || later == closer || isBlank later) =
      text.all fun later => later == Conjunction.separator || later == closer || isBlank later := by
  induction spread with
  | finish blank => rw [all_idle_of_blank blank, List.all_nil]
  | separator blankBefore blankAfter rest ih =>
      rw [List.all_append, List.all_cons, List.all_append, ih, all_idle_of_blank blankBefore,
        all_idle_of_blank blankAfter, List.all_cons, Bool.true_and, Bool.true_and]
  | keep differs rest ih => rw [List.all_cons, List.all_cons, ih]

end Spread

namespace Scope

/-- What is not skipped at the front of the second scope is that of the first, spread. -/
def Looser (scope other : Scope) : Prop :=
  Spread (dropBlank scope.text) (dropBlank other.text)

theorem looser_of_spread {scope other : Scope} (spread : Spread scope.text other.text) : scope.Looser other :=
  spread.dropBlank

/-- Both scopes begin with the same fault, or with the same but for blanks. -/
inductive OpensAlike : Except PlacedFault Opening → Except PlacedFault Opening → Prop where
  | fault {fault : Fault} {position otherPosition : Nat} :
      OpensAlike (.error ⟨fault, position⟩) (.error ⟨fault, otherPosition⟩)
  | nothing : OpensAlike (.ok .nothing) (.ok .nothing)
  | symbol {characters : List Char} {after otherAfter : Scope} (looser : after.Looser otherAfter) :
      OpensAlike (.ok (.symbol characters after)) (.ok (.symbol characters otherAfter))
  | group {inside otherInside after otherAfter : Scope} (looserInside : inside.Looser otherInside)
      (looserAfter : after.Looser otherAfter) :
      OpensAlike (.ok (.group inside after)) (.ok (.group otherInside otherAfter))

inductive SkipsAlike : Except PlacedFault Scope → Except PlacedFault Scope → Prop where
  | fault {fault : Fault} {position otherPosition : Nat} :
      SkipsAlike (.error ⟨fault, position⟩) (.error ⟨fault, otherPosition⟩)
  | next {next otherNext : Scope} (looser : next.Looser otherNext) : SkipsAlike (.ok next) (.ok otherNext)

variable {scope other : Scope}

/-- Both scopes are blank, or both begin with the same character behind their blanks. -/
theorem Looser.front (looser : scope.Looser other) :
    (scope.skipBlank.text = [] ∧ other.skipBlank.text = []) ∨
      (∃ rest after otherRest, scope.skipBlank.text = separator :: rest ∧
        other.skipBlank.text = separator :: (after ++ otherRest) ∧ allBlank after = true ∧
        Spread rest otherRest) ∨
      ∃ first rest otherRest, first ≠ separator ∧ scope.skipBlank.text = first :: rest ∧
        other.skipBlank.text = first :: otherRest ∧ Spread rest otherRest := by
  have stops : Stops isBlank other.skipBlank.text := stops_dropWhile isBlank other.text
  have spread : Spread scope.skipBlank.text other.skipBlank.text := looser
  generalize scope.skipBlank.text = text, other.skipBlank.text = otherText at spread stops
  cases spread with
  | finish blank =>
      have run := run_eq_iff.mpr ⟨(List.append_nil otherText).symm, blank, stops_nil⟩
      rw [dropWhile_eq_self stops] at run
      exact .inl ⟨rfl, run.2⟩
  | @separator before after rest otherRest blankBefore blankAfter spreadRest =>
      have none : before = [] := by
        cases before with
        | nil => rfl
        | cons first others =>
            rw [allBlank, List.all_cons, stops_cons_iff.mp stops] at blankBefore
            cases blankBefore
      rw [none]
      exact .inr (.inl ⟨rest, after, otherRest, rfl, rfl, blankAfter, spreadRest⟩)
  | @keep first rest otherRest differs spreadRest =>
      exact .inr (.inr ⟨first, rest, otherRest, differs, rfl, rfl, spreadRest⟩)

theorem Looser.opening (looser : scope.Looser other) : OpensAlike scope.opening other.opening := by
  rcases looser.front with ⟨empty, otherEmpty⟩ | ⟨rest, after, otherRest, start, otherStart, _⟩ |
    ⟨first, rest, otherRest, differs, start, otherStart, spread⟩
  · simp only [Scope.opening, empty, otherEmpty]
    exact .nothing
  · simp only [Scope.opening, start, otherStart, true_or, if_true]
    exact .fault
  · simp only [Scope.opening, start, otherStart, differs, false_or]
    by_cases closes : first = closer
    · rw [if_pos closes, if_pos closes]
      exact .fault
    · rw [if_neg closes, if_neg closes]
      by_cases opens : first = opener
      · rw [if_pos opens, if_pos opens]
        have found := spread.splitClose 0
        generalize splitClose 0 rest = parts, splitClose 0 otherRest = otherParts at found
        cases found with
        | none => exact .fault
        | some parts => exact .group (looser_of_spread parts.1) (looser_of_spread parts.2)
      · rw [if_neg opens, if_neg opens]
        have symbol := (Spread.keep differs spread).symbol
        rw [symbol.1]
        exact .symbol (looser_of_spread symbol.2)

theorem Looser.skipSeparator (looser : scope.Looser other) :
    SkipsAlike scope.skipSeparator other.skipSeparator := by
  rcases looser.front with ⟨empty, otherEmpty⟩ | ⟨rest, after, otherRest, start, otherStart, blank, spread⟩ |
    ⟨first, rest, otherRest, differs, start, otherStart, _⟩
  · simp only [Scope.skipSeparator, empty, otherEmpty]
    exact .next (looser_of_spread (by rw [empty, otherEmpty]; exact .refl []))
  · have idle : ((after ++ otherRest).all fun later => later == separator || later == closer || isBlank later) =
        rest.all fun later => later == separator || later == closer || isBlank later := by
      rw [List.all_append, Spread.all_idle_of_blank blank, Bool.true_and, spread.all_idle]
    simp only [Scope.skipSeparator, start, otherStart, ne_eq, not_true_eq_false, if_false, idle]
    split
    · exact .fault
    · refine .next ?_
      have skipped : dropBlank (after ++ otherRest) = dropBlank otherRest :=
        List.dropWhile_append_of_pos (List.all_eq_true.mp blank)
      rw [Looser, skipped]
      exact spread.dropBlank
  · simp only [Scope.skipSeparator, start, otherStart]
    rw [if_pos differs, if_pos differs]
    exact .fault

/-- Scopes that differ in such blanks are read to the same symbols, or have the same fault. -/
theorem Looser.symbols {scope other : Scope} (looser : scope.Looser other) :
    other.symbols.mapError PlacedFault.fault = scope.symbols.mapError PlacedFault.fault := by
  rw [symbols_eq scope, symbols_eq other]
  have alike := looser.opening
  generalize opens : scope.opening = opening, other.opening = otherOpening at alike
  cases alike with
  | fault => rfl
  | nothing => rfl
  | @symbol characters after otherAfter looserAfter =>
      have skipsAlike := looserAfter.skipSeparator
      dsimp only
      generalize skips : after.skipSeparator = found, otherAfter.skipSeparator = otherFound at skipsAlike
      cases skipsAlike with
      | fault => rfl
      | next looserNext => exact mapError_map looserNext.symbols _
  | @group inside otherInside after otherAfter looserInside looserAfter =>
      have skipsAlike := looserAfter.skipSeparator
      dsimp only
      rcases outcomes_of_mapError looserInside.symbols with
        ⟨fault, otherFault, read, otherRead, same⟩ | ⟨inner, read, otherRead⟩
      · rw [read, otherRead]
        exact congrArg Except.error same
      · rw [read, otherRead]
        dsimp only
        generalize skips : after.skipSeparator = found, otherAfter.skipSeparator = otherFound at skipsAlike
        cases skipsAlike with
        | fault => rfl
        | next looserNext => exact mapError_map looserNext.symbols _
termination_by scope.text.length
decreasing_by
  · exact Nat.lt_of_le_of_lt (length_of_skipSeparator skips) (length_of_opening_symbol opens)
  · exact (length_of_opening_group opens).1
  · exact Nat.lt_of_le_of_lt (length_of_skipSeparator skips) (length_of_opening_group opens).2

end Scope
end HornLogic.Conjunction
