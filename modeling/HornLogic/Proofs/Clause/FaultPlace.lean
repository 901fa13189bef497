import HornLogic.Proofs.Clause.Message
import HornLogic.Proofs.Clause.Sides
import HornLogic.Proofs.Conjunction.Completion
import HornLogic.Proofs.Conjunction.Continuation
import Mathlib.Control.Monad.Basic

/-!
# Where a conjunction breaks off

The text in front of a fault is always the beginning of a conjunction. For a character that nothing in the
grammar allows at its place, the text with this character is no such beginning any more, so the fault is at
the leftmost place it can be (`parse_conjunction_breaks`). The other two faults are found by looking ahead,
and other text behind their place could mend them.
-/
namespace HornLogic

set_option autoImplicit false

open Text

namespace Clause

theorem BeginsLeftSide.of_prefix {beginning text : List Char} (begins : BeginsLeftSide text)
    (leads : beginning <+: text) : BeginsLeftSide beginning := by
  obtain ⟨continuation, leftSide⟩ := begins
  obtain ⟨between, rfl⟩ := leads
  exact ⟨between ++ continuation, by rwa [← List.append_assoc]⟩

theorem beginsLeftSide_of_progress {text front left : List Char} {stage : Conjunction.Stage}
    (progress : Conjunction.Progress text front stage left) (plain : ¬ HasArrow text) : BeginsLeftSide front := by
  obtain ⟨completion, completes⟩ := progress.exists_completion (Conjunction.nests_counts front)
  refine ⟨completion, isLeftSide_iff.mpr ⟨?_, completes.derives⟩⟩
  intro ⟨before, after, split⟩
  rcases arrow_append_cases split with ⟨others, ahead, _⟩ | ⟨_, point⟩ | ⟨others, _, behind⟩
  · obtain ⟨beyond, parts⟩ := progress.parts
    exact plain ⟨before, others ++ left ++ beyond, by simp [parts, ahead]⟩
  · exact absurd rfl (completes.plain '>' (by simp [point])).2
  · exact absurd rfl (completes.plain '-' (by simp [behind])).1

/-- A character that its stage does not admit breaks off every beginning. -/
theorem not_beginsLeftSide_of_progress {text front later : List Char} {stage : Conjunction.Stage}
    {character : Char} (progress : Conjunction.Progress text front stage (character :: later))
    (solid : isBlank character = false) (refused : ¬ stage.Admits character) :
    ¬ BeginsLeftSide (front ++ [character]) := by
  intro ⟨continuation, leftSide⟩
  obtain ⟨_, symbols, derived⟩ := isLeftSide_iff.mp leftSide
  rw [← List.append_cons] at derived
  exact refused (progress.admits rfl solid derived)

/-- What can begin the left side of a clause is just the beginnings of the text up to a place. -/
structure BreaksOff (text front : List Char) (character : Char) : Prop where
  here : front ++ [character] <+: text
  refused : ∀ continuation, ¬ IsLeftSide (front ++ character :: continuation)
  leftmost : ∀ beginning, beginning <+: text → (BeginsLeftSide beginning ↔ beginning <+: front)

theorem breaksOff_of_not_begins {text front : List Char} {character : Char}
    (here : front ++ [character] <+: text) (begins : BeginsLeftSide front)
    (breaks : ¬ BeginsLeftSide (front ++ [character])) : BreaksOff text front character := by
  refine ⟨here, ?_, ?_⟩
  · intro continuation leftSide
    exact breaks ⟨continuation, by rwa [← List.append_cons]⟩
  · intro beginning leads
    constructor
    · intro beginningBegins
      rcases List.prefix_or_prefix_of_prefix leads here with within | beyond
      · rcases List.prefix_concat_iff.mp within with rfl | withinFront
        · exact absurd beginningBegins breaks
        · exact withinFront
      · exact absurd (beginningBegins.of_prefix beyond) breaks
    · intro within
      exact begins.of_prefix within

theorem breaksOff_of_progress {text front later : List Char} {stage : Conjunction.Stage} {character : Char}
    (progress : Conjunction.Progress text front stage (character :: later)) (plain : ¬ HasArrow text)
    (solid : isBlank character = false) (refused : ¬ stage.Admits character) : BreaksOff text front character := by
  obtain ⟨beyond, parts⟩ := progress.parts
  have here : front ++ [character] <+: text := ⟨later ++ beyond, by simp [parts]⟩
  exact breaksOff_of_not_begins here (beginsLeftSide_of_progress progress plain)
    (not_beginsLeftSide_of_progress progress solid refused)

/-- The text in front of a fault can be continued to the left side of a clause. It cannot together with the
character at the place of the fault if this is the character that the fault reports, or one where a separator
is missing. -/
theorem parse_conjunction_breaks {line text : String} {fault : Fault} {position : Nat}
    (fails : parse line = .error (.conjunction fault position text)) :
    ∃ front, front <+: text.toList ∧ Utf8.size front = position ∧ BeginsLeftSide front ∧
      (fault = .missingSeparator → ∃ character, BreaksOff text.toList front character) ∧
      ∀ reported, fault = .unexpected reported → BreaksOff text.toList front reported := by
  cases refusal_of_parse fails with
  | @conjunction left right _ _ sole symbolsFail =>
      rw [String.toList_ofList]
      have plain : ¬ HasArrow (trim left) := by
        intro arrow
        exact (soleArrow_iff.mp sole).2.1 (arrow.of_part (trim_isInfix left))
      obtain ⟨front, stage, rest, progress, place, showsFault⟩ :=
        Conjunction.Scope.faultAt_of_symbols symbolsFail
      obtain ⟨beyond, parts⟩ := progress.parts
      refine ⟨front, ⟨rest ++ beyond, by simpa using parts.symm⟩, by simpa using place.symm,
        beginsLeftSide_of_progress progress plain, ?_, ?_⟩
      · rintro rfl
        cases showsFault with
        | @missingSeparator other later solid differs =>
            exact ⟨other, breaksOff_of_progress progress plain solid differs⟩
      · rintro reported rfl
        obtain ⟨_, _, begins, solid⟩ := showsFault.solid
        cases showsFault with
        | @unexpected mark later idle =>
            cases begins
            refine breaksOff_of_progress progress plain solid ?_
            rintro ⟨notSeparator, notCloser⟩
            exact idle.elim notSeparator notCloser

theorem parse_conjunction_breaks_inner :
    parse "(a( & ) & b) & c -> q" = .error (.conjunction (.unexpected ')') 6 "(a( & ) & b) & c") ∧
      ∃ front, front <+: "(a( & ) & b) & c".toList ∧ Utf8.size front = 6 ∧ BeginsLeftSide front ∧
        (Fault.unexpected ')' = .missingSeparator →
          ∃ character, BreaksOff "(a( & ) & b) & c".toList front character) ∧
        ∀ reported, Fault.unexpected ')' = .unexpected reported →
          BreaksOff "(a( & ) & b) & c".toList front reported :=
  have fails : parse "(a( & ) & b) & c -> q" =
      .error (.conjunction (.unexpected ')') 6 "(a( & ) & b) & c") := by decide +kernel
  ⟨fails, parse_conjunction_breaks fails⟩

end Clause
end HornLogic
