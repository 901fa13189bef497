import HornLogic.Clause.Spacing
import HornLogic.Proofs.Clause.Priority
import HornLogic.Proofs.Conjunction.Spacing
import Mathlib.Control.Monad.Basic
import Mathlib.Logic.Relation

/-!
# Blanks around the marks of a line

No gap is within an arrow, so blanks in a gap neither make an arrow nor break one, and they fall to one side of
the sole arrow (`soleArrow_blanks`). There trimming drops them, or they spread the left side around one of its
separators. So the line is read to the same clause, or is refused for the same kind of error
(`parse_spaced`).
-/
namespace HornLogic

set_option autoImplicit false

open Text

/-- No arrow has its dash at the end of the first text and its point at the front of the second. -/
def Unbroken (before after : List Char) : Prop :=
  ∀ front rest, before = front ++ ['-'] → after ≠ '>' :: rest

variable {before blanks after left right : List Char}

theorem hasArrow_append_iff (unbroken : Unbroken before after) :
    HasArrow (before ++ after) ↔ HasArrow before ∨ HasArrow after := by
  constructor
  · intro ⟨front, rest, split⟩
    rcases arrow_append_cases split with ⟨others, ahead, _⟩ | ⟨dash, point⟩ | ⟨others, _, behind⟩
    · exact .inl ⟨front, others, ahead⟩
    · exact absurd point (unbroken front rest dash)
    · exact .inr ⟨others, rest, behind⟩
  · intro arrow
    rcases arrow with arrow | arrow
    · exact arrow.of_part (List.prefix_append before after).isInfix
    · exact arrow.of_part (List.suffix_append before after).isInfix

theorem unbroken_blank_append (blank : allBlank blanks = true) (unbroken : Unbroken before after) :
    Unbroken before (blanks ++ after) := by
  intro front rest dash point
  cases blanks with
  | nil => exact unbroken front rest dash point
  | cons first others =>
      cases point
      exact not_mem_of_blank blank (by decide) List.mem_cons_self

/-- Blanks where no arrow is broken make none. -/
theorem hasArrow_blanks_iff (blank : allBlank blanks = true) (unbroken : Unbroken before after) :
    HasArrow (before ++ blanks ++ after) ↔ HasArrow (before ++ after) := by
  have within : ¬ HasArrow blanks := by
    rintro ⟨front, rest, split⟩
    exact not_mem_of_blank blank (by decide : isBlank '-' = false) (by simp [split])
  have unbrokenBlanks : Unbroken blanks after := by
    rintro front rest rfl
    exact absurd (by simp) (not_mem_of_blank blank (by decide : isBlank '-' = false))
  rw [List.append_assoc, hasArrow_append_iff (unbroken_blank_append blank unbroken),
    hasArrow_append_iff unbrokenBlanks, hasArrow_append_iff unbroken, or_iff_right within]

/-- The sole arrow of a line is behind every place that does not break it, or in front of it. -/
theorem sides_of_sole (unbroken : Unbroken before after) (sole : SoleArrow (before ++ after) left right) :
    (∃ inner, left = before ++ inner ∧ after = inner ++ '-' :: '>' :: right) ∨
      ∃ inner, before = left ++ '-' :: '>' :: inner ∧ right = inner ++ after := by
  rcases arrow_append_cases sole.split with ahead | ⟨dash, point⟩ | behind
  · exact .inr ahead
  · exact absurd point (unbroken _ _ dash)
  · exact .inl behind

/-- Blanks in a line fall to the side where they are put in. -/
theorem soleArrow_blanks (blank : allBlank blanks = true) (unbroken : Unbroken before after)
    {otherLeft otherRight : List Char} :
    SoleArrow (before ++ blanks ++ after) otherLeft otherRight ↔
      (∃ inner, SoleArrow (before ++ after) (before ++ inner) otherRight ∧
        after = inner ++ '-' :: '>' :: otherRight ∧ otherLeft = before ++ blanks ++ inner) ∨
      ∃ inner, SoleArrow (before ++ after) otherLeft (inner ++ after) ∧
        before = otherLeft ++ '-' :: '>' :: inner ∧ otherRight = inner ++ blanks ++ after := by
  have unbrokenLeft : ∀ inner rest, after = inner ++ rest → Unbroken before inner := by
    rintro inner rest rfl front others dash rfl
    exact unbroken front (others ++ rest) dash rfl
  have unbrokenRight : ∀ ahead inner, before = ahead ++ inner → Unbroken inner after := by
    rintro ahead inner rfl front others rfl
    exact unbroken (ahead ++ front) others (by simp)
  simp only [soleArrow_iff]
  constructor
  · intro ⟨split, leftPlain, rightPlain⟩
    rw [List.append_assoc] at split
    rcases arrow_append_cases split with ⟨inner, ahead, rfl⟩ | ⟨dash, point⟩ | ⟨others, rfl, behind⟩
    · rw [← List.append_assoc, hasArrow_blanks_iff blank
        (unbrokenRight (otherLeft ++ ['-', '>']) inner (by simpa using ahead))] at rightPlain
      exact .inr ⟨inner, ⟨by simp [ahead], leftPlain, rightPlain⟩, ahead, by simp⟩
    · exact absurd point (unbroken_blank_append blank unbroken _ _ dash)
    · obtain ⟨inner, rfl, afterParts⟩ := arrow_behind (not_mem_of_blank blank (by decide)) behind
      rw [← List.append_assoc, hasArrow_blanks_iff blank (unbrokenLeft inner _ afterParts)] at leftPlain
      exact .inl ⟨inner, ⟨by simp [afterParts], leftPlain, rightPlain⟩, afterParts, by simp⟩
  · rintro (⟨inner, ⟨_, leftPlain, rightPlain⟩, afterParts, rfl⟩ |
      ⟨inner, ⟨_, leftPlain, rightPlain⟩, beforeParts, rfl⟩)
    · rw [hasArrow_blanks_iff blank (unbrokenLeft inner _ afterParts)]
      exact ⟨by simp [afterParts], leftPlain, rightPlain⟩
    · rw [hasArrow_blanks_iff blank
        (unbrokenRight (otherLeft ++ ['-', '>']) inner (by simpa using beforeParts))]
      exact ⟨by simp [beforeParts], leftPlain, rightPlain⟩

namespace Clause

open Conjunction (Scope Spread)

theorem Gap.unbroken (gap : Gap before after) : Unbroken before after := by
  intro front rest dash point
  cases gap with
  | start => simp at dash
  | finish => cases point
  | beforeArrow => cases point
  | afterArrow =>
      have last := congrArg List.getLast? dash
      simp at last
  | beforeSeparator sole => cases point
  | afterSeparator sole =>
      have last := congrArg List.getLast? dash
      simp [Conjunction.separator] at last

/-- Blanks in a gap of the left side change its symbols as little as its faults. -/
theorem Gap.looser {inner : List Char} (gap : Gap before after) (blank : allBlank blanks = true)
    (sole : SoleArrow (before ++ after) (before ++ inner) right) (place : after = inner ++ '-' :: '>' :: right) :
    Scope.Looser ⟨0, before ++ inner⟩ ⟨0, before ++ blanks ++ inner⟩ := by
  cases gap with
  | start =>
      have skipped : dropBlank (blanks ++ inner) = dropBlank inner :=
        List.dropWhile_append_of_pos (List.all_eq_true.mp blank)
      rw [Scope.Looser, List.nil_append, List.nil_append, skipped]
      exact .refl _
  | finish => simp at place
  | @beforeArrow _ after =>
      obtain ⟨here, -⟩ := sole.only before after rfl
      have none : inner = [] := by simpa using here
      rw [none, List.append_nil]
      apply Scope.looser_of_spread
      simpa using Spread.behind before (.finish blank)
  | @afterArrow before after => exact absurd ⟨before, inner, by simp⟩ (soleArrow_iff.mp sole).2.1
  | @beforeSeparator before after _ otherSole =>
      obtain ⟨here, -⟩ := otherSole.only (before ++ inner) right (by simpa using sole.split)
      obtain rfl := List.append_cancel_left here
      apply Scope.looser_of_spread
      have spread := @Spread.separator _ [] _ _ blank rfl (.refl after)
      simpa using spread.behind before
  | @afterSeparator before after _ otherSole =>
      obtain ⟨here, -⟩ := otherSole.only (before ++ [Conjunction.separator] ++ inner) right (by simpa using sole.split)
      obtain rfl : inner = after := by simpa using here
      apply Scope.looser_of_spread
      have spread := @Spread.separator [] _ _ _ rfl blank (.refl inner)
      simpa using spread.behind before

theorem Gap.trim_right {inner : List Char} (gap : Gap before after) (blank : allBlank blanks = true)
    (sole : SoleArrow (before ++ after) left (inner ++ after)) (place : before = left ++ '-' :: '>' :: inner) :
    trim (inner ++ blanks ++ after) = trim (inner ++ after) := by
  cases gap with
  | start => simp at place
  | finish => rw [List.append_nil, List.append_nil, trim_append_blank blank]
  | @beforeArrow _ after => exact absurd ⟨inner, after, rfl⟩ (soleArrow_iff.mp sole).2.2
  | @afterArrow before after =>
      obtain ⟨-, here⟩ := sole.only before after (by simp)
      have none : inner = [] := by simpa using here
      rw [none, List.nil_append, List.nil_append, trim_blank_append blank]
  | @beforeSeparator before after _ otherSole =>
      obtain ⟨here, -⟩ := otherSole.only left _ (by simpa using sole.split)
      have length := congrArg List.length place
      simp only [here, List.length_append, List.length_cons] at length
      omega
  | @afterSeparator before after _ otherSole =>
      obtain ⟨here, -⟩ := otherSole.only left _ (by simpa using sole.split)
      have length := congrArg List.length place
      simp only [here, List.length_append, List.length_cons, List.length_nil] at length
      omega

theorem looser_trim (text : List Char) : Scope.Looser ⟨0, trim text⟩ ⟨0, text⟩ := by
  obtain ⟨front, back, blankFront, blankBack, parts⟩ := exists_trim text
  generalize trim text = middle at parts
  have skipped : dropBlank text = dropBlank (middle ++ back) := by
    rw [parts, dropBlank, List.append_assoc, List.dropWhile_append_of_pos (List.all_eq_true.mp blankFront),
      ← dropBlank]
  have spread := (Spread.finish blankBack).behind middle
  rw [List.append_nil] at spread
  rw [Scope.Looser, skipped]
  exact spread.dropBlank

/-- The atoms of a conjunction, or the kind of its fault. -/
theorem kind_atoms {text other : List Char} (looser : Scope.Looser ⟨0, text⟩ ⟨0, other⟩) :
    (Conjunction.atoms other).mapError ParseError.kind = (Conjunction.atoms text).mapError ParseError.kind := by
  unfold Conjunction.atoms
  rcases outcomes_of_mapError looser.symbols with
    ⟨fault, otherFault, read, otherRead, same⟩ | ⟨symbols, read, otherRead⟩
  · rw [read, otherRead]
    exact congrArg (fun fault => Except.error (ParseError.Kind.conjunction fault)) same
  · rw [read, otherRead]

theorem kind_parse_of_sides {line other otherLeft otherRight : List Char} (sole : SoleArrow line left right)
    (otherSole : SoleArrow other otherLeft otherRight) (looser : Scope.Looser ⟨0, left⟩ ⟨0, otherLeft⟩)
    (same : trim otherRight = trim right) :
    (parse (String.ofList other)).mapError ParseError.kind =
      (parse (String.ofList line)).mapError ParseError.kind := by
  have premise : (Conjunction.atoms (trim otherLeft)).mapError ParseError.kind =
      (Conjunction.atoms (trim left)).mapError ParseError.kind :=
    calc
      _ = (Conjunction.atoms otherLeft).mapError ParseError.kind := (kind_atoms (looser_trim otherLeft)).symm
      _ = (Conjunction.atoms left).mapError ParseError.kind := kind_atoms looser
      _ = (Conjunction.atoms (trim left)).mapError ParseError.kind := kind_atoms (looser_trim left)
  rw [parse_of_sides (by rwa [String.toList_ofList]), parse_of_sides (by rwa [String.toList_ofList]), same]
  exact mapError_bind premise _

theorem kind_parse_of_no_sides {line : List Char} (none : ∀ left right, ¬ SoleArrow line left right) :
    (parse (String.ofList line)).mapError ParseError.kind =
      .error (if allBlank line then .blankClause else .arrowCount) := by
  cases blank : allBlank line with
  | true =>
      rw [parse_of_blank (by rwa [String.toList_ofList])]
      rfl
  | false =>
      rw [parse_eq_arrowCount_iff.mpr ⟨rfl, by rwa [String.toList_ofList], by rwa [String.toList_ofList]⟩]
      rfl

theorem kind_parse_of_spaces {line other : String} (spaces : Spaces line other) :
    (parse other).mapError ParseError.kind = (parse line).mapError ParseError.kind := by
  cases spaces with
  | @insert before blanks after gap blank =>
      have arrows := @soleArrow_blanks before blanks after blank gap.unbroken
      by_cases sides : ∃ left right, SoleArrow (before ++ after) left right
      · obtain ⟨left, right, sole⟩ := sides
        rcases sides_of_sole gap.unbroken sole with ⟨inner, rfl, place⟩ | ⟨inner, place, rfl⟩
        · have padded := arrows.mpr (.inl ⟨inner, sole, place, rfl⟩)
          exact kind_parse_of_sides sole padded (gap.looser blank sole place) rfl
        · have padded := arrows.mpr (.inr ⟨inner, sole, place, rfl⟩)
          exact kind_parse_of_sides sole padded (Scope.looser_of_spread (.refl left))
            (gap.trim_right blank sole place)
      · have none : ∀ left right, ¬ SoleArrow (before ++ after) left right := fun left right sole =>
          sides ⟨left, right, sole⟩
        have paddedNone : ∀ left right, ¬ SoleArrow (before ++ blanks ++ after) left right := by
          intro left right padded
          rcases arrows.mp padded with ⟨inner, sole, _⟩ | ⟨inner, sole, _⟩
          · exact none _ _ sole
          · exact none _ _ sole
        have blankIff : allBlank (before ++ blanks ++ after) = allBlank (before ++ after) := by
          rw [Bool.eq_iff_iff, Conjunction.allBlank_append, Conjunction.allBlank_append,
            Conjunction.allBlank_append, and_iff_left blank]
        rw [kind_parse_of_no_sides none, kind_parse_of_no_sides paddedNone, blankIff]

/-- Blanks that are put in where they have no meaning, at any number of places, leave the clause of a line as it
is, or the kind of its error. -/
theorem parse_spaced {line other : String} (spaced : Relation.ReflTransGen Spaces line other) :
    (parse other).mapError ParseError.kind = (parse line).mapError ParseError.kind := by
  induction spaced with
  | refl => rfl
  | tail _ spaces ih => rw [kind_parse_of_spaces spaces, ih]

/-- A separator inside of parentheses that nothing follows stays the fault when blanks are around it. -/
theorem parse_spaced_inner :
    Relation.ReflTransGen Spaces "(α&)&b->q" "(α\u2003&)&b->\tq" ∧
      parse "(α&)&b->q" = .error (.conjunction .missingConjunct 3 "(α&)&b") ∧
      parse "(α\u2003&)&b->\tq" = .error (.conjunction .missingConjunct 6 "(α\u2003&)&b") ∧
      (parse "(α\u2003&)&b->\tq").mapError ParseError.kind = (parse "(α&)&b->q").mapError ParseError.kind := by
  have sole : SoleArrow "(α&)&b->q".toList "(α&)&b".toList ['q'] := soleArrow_iff.mpr ⟨by decide, by decide, by decide⟩
  have inner : Spaces "(α&)&b->q" "(α\u2003&)&b->q" :=
    @Spaces.insert ['(', 'α'] ['\u2003'] _ (@Gap.beforeSeparator _ [')', '&', 'b'] _ sole) (by decide)
  have behind : Spaces "(α\u2003&)&b->q" "(α\u2003&)&b->\tq" :=
    @Spaces.insert _ ['\t'] ['q'] (@Gap.afterArrow "(α\u2003&)&b".toList _) (by decide)
  have spaced : Relation.ReflTransGen Spaces "(α&)&b->q" "(α\u2003&)&b->\tq" := .tail (.single inner) behind
  exact ⟨spaced, by decide +kernel, by decide +kernel, parse_spaced spaced⟩

end Clause
end HornLogic
