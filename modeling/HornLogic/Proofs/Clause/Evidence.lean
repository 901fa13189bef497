import HornLogic.Proofs.Clause.Message
import HornLogic.Proofs.Conjunction.Nesting
import HornLogic.Proofs.Text.Encoding
import Mathlib.Control.Monad.Basic

/-!
# What an error says is true

The position of a fault is that of a character of the left side, and the text there is as the fault says
(`parse_conjunction_evidence`). A parenthesis can stay open only outside of all matching parentheses: what is
inside of these closes each parenthesis that it opens, however the parentheses are spread over its symbols
(`Scope.not_unclosed`).
-/
namespace HornLogic

set_option autoImplicit false

open Text

namespace Conjunction

theorem Balanced.splitClose_ne_none {front rest : List Char} (balanced : Balanced (front ++ opener :: rest)) :
    splitClose 0 rest ≠ none := by
  intro unmatched
  have neverBelow := splitClose_eq_none_iff.mp unmatched rest (List.prefix_refl rest)
  have more := balanced.count_lt
  omega

/-- An opening parenthesis that no closing one fits is in no pair of matching parentheses. -/
theorem not_surrounded_of_unmatched {front later before inside after : List Char}
    (unmatched : splitClose 0 later = none) (balanced : Balanced inside)
    (same : front ++ opener :: later = before ++ opener :: inside ++ closer :: after) :
    ¬ Surrounds (before ++ [opener]) inside front := by
  intro ⟨begun, lasts⟩
  have parts : (before ++ [opener]) ++ (inside ++ closer :: after) = front ++ opener :: later := by
    simpa using same.symm
  obtain ⟨inner, rfl⟩ : before ++ [opener] <+: front :=
    List.prefix_of_prefix_length_le ⟨_, parts⟩ (List.prefix_append front _) begun
  rw [List.append_assoc (before ++ [opener])] at parts
  have withinParts := List.append_cancel_left parts
  obtain ⟨shorter, rfl⟩ : inner ++ [opener] <+: inside := by
    refine List.prefix_of_prefix_length_le ⟨later, by simp⟩ (withinParts ▸ List.prefix_append inside _) ?_
    rw [List.length_append] at lasts
    rw [List.length_append, List.length_singleton]
    omega
  have laterEq : later = shorter ++ closer :: after := by simpa using withinParts.symm
  rw [List.append_assoc, List.singleton_append] at balanced
  have more := balanced.count_lt
  have neverBelow := splitClose_eq_none_iff.mp unmatched shorter ⟨_, laterEq.symm⟩
  omega

namespace Scope

/-- Inside of matching parentheses every search for a closing parenthesis succeeds. -/
theorem not_unclosed {scope : Scope} (balanced : Balanced scope.text) (position : Nat) :
    scope.symbols ≠ .error ⟨.unclosed, position⟩ := by
  intro fails
  obtain ⟨front, stage, left, progress, _, showsFault⟩ := faultAt_of_symbols fails
  cases showsFault with
  | @unclosed later unmatched =>
      obtain ⟨before, inner, after, has, _, _⟩ := progress.exists_scope
      have scopeBalanced : Balanced (inner ++ opener :: later) := by
        rcases has.whole_or_balanced with ⟨_, whole, _⟩ | inside
        · rw [whole]
          exact balanced
        · exact inside
      exact scopeBalanced.splitClose_ne_none unmatched

end Scope

/-- The text is as a fault says where reading has come to when it shows. -/
theorem evidence_of_shows {text front left : List Char} {stage : Stage} {fault : Fault}
    (progress : Progress text front stage left) (showsFault : Shows fault stage left) :
    ∃ character later, text = front ++ character :: later ∧ fault.Evidence text front character later := by
  obtain ⟨beyond, parts⟩ := progress.parts
  obtain ⟨before, inner, after, has, frontEq, reached⟩ := progress.exists_scope
  cases showsFault with
  | @unexpected mark later idle => exact ⟨mark, later ++ beyond, by simp [parts], .unexpected idle⟩
  | @missingSeparator other later solid differs =>
      exact ⟨other, later ++ beyond, by simp [parts], .missingSeparator solid differs⟩
  | @missingConjunct later idle =>
      have scope := has.innermost reached (by decide) rfl
      rw [← frontEq] at scope
      refine ⟨separator, later ++ after, by rw [has.parts, frontEq]; simp, .missingConjunct frontEq scope ?_⟩
      intro character member
      have idleCharacter := idle character member
      simp only [inSymbol, Bool.and_eq_true, Bool.not_eq_true', bne_iff_ne] at idleCharacter
      by_cases blank : isBlank character = true
      · exact .inr (.inr blank)
      · rw [Bool.not_eq_true] at blank
        grind
  | @unclosed later unmatched =>
      rcases has.whole_or_balanced with ⟨rfl, whole, rfl⟩ | balanced
      · rw [List.nil_append] at frontEq
        rw [← frontEq] at whole
        have neverBelow := splitClose_eq_none_iff.mp unmatched
        refine ⟨opener, later, whole.symm, .unclosed (by simpa using neverBelow) ?_⟩
        intro before inside after textParts insideBalanced
        exact not_surrounded_of_unmatched unmatched insideBalanced (whole.trans textParts)
      · exact absurd unmatched balanced.splitClose_ne_none

end Conjunction

namespace Clause

/-- An error in the left side of a line names a place of it where a character begins, and what it says about
the place is so. Within matching parentheses no parenthesis is found to stay open. -/
theorem parse_conjunction_evidence {line text : String} {fault : Fault} {position : Nat}
    (fails : parse line = .error (.conjunction fault position text)) :
    (∃ left right, SoleArrow line.toList left right ∧ text = String.ofList (trim left)) ∧
      position < (Utf8.encode text).length ∧
      (∃ front character later, text.toList = front ++ character :: later ∧ Utf8.size front = position ∧
        fault.Evidence text.toList front character later) ∧
      ∀ (scope inside after : Conjunction.Scope) place, scope.opening = .ok (.group inside after) →
        inside.symbols ≠ .error ⟨.unclosed, place⟩ := by
  cases refusal_of_parse fails with
  | @conjunction left right _ _ sole symbolsFail =>
      obtain ⟨front, stage, rest, progress, place, showsFault⟩ :=
        Conjunction.Scope.faultAt_of_symbols symbolsFail
      obtain ⟨character, later, parts, evidence⟩ := Conjunction.evidence_of_shows progress showsFault
      have positionEq : Utf8.size front = position := by simpa using place.symm
      dsimp only at parts evidence
      refine ⟨⟨left, right, sole, rfl⟩, ?_, ⟨front, character, later, ?_, positionEq, ?_⟩, ?_⟩
      · have wide := Char.utf8Size_pos character
        rw [Utf8.length_encode, String.toList_ofList, parts, Utf8.size_append, Utf8.size_cons, positionEq]
        omega
      · rw [String.toList_ofList, parts]
      · rw [String.toList_ofList]
        exact evidence
      · intro scope inside after place opens
        cases Conjunction.Scope.opening_eq_ok_iff.mp opens with
        | group blank balanced cut begins => exact Conjunction.Scope.not_unclosed balanced place

/-- The parenthesis that the symbol holds does not close the scope, so the separator is the last of it. -/
theorem parse_conjunction_evidence_inner :
    let text := "(α( &) ) & b"
    parse "(α( &) ) & b -> q" = .error (.conjunction .missingConjunct 5 text) ∧
      (∃ left right, SoleArrow "(α( &) ) & b -> q".toList left right ∧ text = String.ofList (trim left)) ∧
      5 < (Utf8.encode text).length ∧
      (∃ front character later, text.toList = front ++ character :: later ∧ Utf8.size front = 5 ∧
        Fault.missingConjunct.Evidence text.toList front character later) ∧
      ∀ (scope inside after : Conjunction.Scope) place, scope.opening = .ok (.group inside after) →
        inside.symbols ≠ .error ⟨.unclosed, place⟩ :=
  have fails : parse "(α( &) ) & b -> q" = .error (.conjunction .missingConjunct 5 "(α( &) ) & b") := by
    decide +kernel
  ⟨fails, parse_conjunction_evidence fails⟩

end Clause
end HornLogic
