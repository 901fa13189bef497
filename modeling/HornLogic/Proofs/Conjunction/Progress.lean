import HornLogic.Proofs.Conjunction.Derivation

/-!
# How far reading comes

Reading a text stops where something stands that cannot come next. What is in front of that place was read
with success, so it falls into whole conjuncts, the separators behind them, and the parentheses that are
still open (`Progress`). Each fault tells what stands at its place (`Shows`), and is at the end of such a
progress (`Scope.faultAt_of_symbols`).
-/
namespace HornLogic.Conjunction

set_option autoImplicit false

open Text

/-- What has to come next. -/
inductive Stage where
  | conjunct
  | separator

/-- A conjunct and what is behind it in its scope, which cannot be more of a symbol. -/
inductive Takes : List Char → List Char → Prop where
  | symbol {conjunct behind : List Char} (shaped : IsSymbol conjunct) (stops : Stops inSymbol behind) :
      Takes conjunct behind
  | group {inside behind : List Char} {symbols : List (List Char)} (content : Derives inside symbols)
      (balanced : Balanced inside) : Takes (opener :: inside ++ [closer]) behind

/-- Of the text a front is read, and what is left is unread of the innermost scope there. -/
inductive Progress : List Char → List Char → Stage → List Char → Prop where
  | start {before left : List Char} (blank : allBlank before = true) :
      Progress (before ++ left) before .conjunct left
  | taken {before conjunct between left : List Char} (blankBefore : allBlank before = true)
      (takes : Takes conjunct (between ++ left)) (blankBetween : allBlank between = true) :
      Progress (before ++ conjunct ++ between ++ left) (before ++ conjunct ++ between) .separator left
  | later {before conjunct between next front left : List Char} {stage : Stage}
      (blankBefore : allBlank before = true) (takes : Takes conjunct (between ++ separator :: next))
      (blankBetween : allBlank between = true) (others : Progress next front stage left) :
      Progress (before ++ conjunct ++ between ++ separator :: next)
        (before ++ conjunct ++ between ++ separator :: front) stage left
  | inside {before inside after front left : List Char} {stage : Stage} (blank : allBlank before = true)
      (balanced : Balanced inside) (within : Progress inside front stage left) :
      Progress (before ++ opener :: inside ++ closer :: after) (before ++ opener :: front) stage left

/-- What a fault finds in the rest of the scope where it is. -/
inductive Shows : Fault → Stage → List Char → Prop where
  | unexpected {mark : Char} {later : List Char} (idle : mark = separator ∨ mark = closer) :
      Shows (.unexpected mark) .conjunct (mark :: later)
  | unclosed {later : List Char} (unmatched : splitClose 0 later = none) :
      Shows .unclosed .conjunct (opener :: later)
  | missingSeparator {other : Char} {later : List Char} (solid : isBlank other = false)
      (differs : other ≠ separator) : Shows .missingSeparator .separator (other :: later)
  | missingConjunct {later : List Char}
      (idle : ∀ character ∈ later, ¬ (inSymbol character = true ∧ character ≠ closer)) :
      Shows .missingConjunct .separator (separator :: later)

theorem Shows.solid {fault : Fault} {stage : Stage} {left : List Char} (showsFault : Shows fault stage left) :
    ∃ character later, left = character :: later ∧ isBlank character = false := by
  cases showsFault with
  | unexpected idle =>
      rcases idle with rfl | rfl
      · exact ⟨_, _, rfl, by decide⟩
      · exact ⟨_, _, rfl, by decide⟩
  | unclosed unmatched => exact ⟨_, _, rfl, by decide⟩
  | missingSeparator solid differs => exact ⟨_, _, rfl, solid⟩
  | missingConjunct idle => exact ⟨_, _, rfl, by decide⟩

theorem Takes.derives {conjunct behind : List Char} (takes : Takes conjunct behind) :
    ∃ symbols, DerivesConjunct conjunct symbols := by
  cases takes with
  | symbol shaped stops => exact ⟨_, .symbol shaped⟩
  | group content balanced => exact ⟨_, .group content balanced⟩

theorem Progress.parts {text front left : List Char} {stage : Stage} (progress : Progress text front stage left) :
    ∃ beyond, text = front ++ left ++ beyond := by
  induction progress with
  | start blank => exact ⟨[], by simp⟩
  | taken blankBefore takes blankBetween => exact ⟨[], by simp⟩
  | later blankBefore takes blankBetween others ih =>
      obtain ⟨beyond, parts⟩ := ih
      exact ⟨beyond, by simp [parts]⟩
  | @inside _ _ after _ _ _ blank balanced within ih =>
      obtain ⟨beyond, parts⟩ := ih
      exact ⟨beyond ++ closer :: after, by simp [parts]⟩

namespace Scope

/-- The place of a fault is behind a front of the scope that was read. -/
def FaultAt (scope : Scope) (fault : Fault) (position : Nat) : Prop :=
  ∃ front stage left, Progress scope.text front stage left ∧
    position = scope.position + Utf8.size front ∧ Shows fault stage left

theorem shows_of_opening {scope : Scope} {fault : Fault} {position : Nat}
    (fails : scope.opening = .error ⟨fault, position⟩) :
    position = scope.skipBlank.position ∧ Shows fault .conjunct scope.skipBlank.text := by
  dsimp only [opening] at fails
  split at fails
  · cases fails
  · rename_i first rest start
    rw [start]
    split at fails
    · rename_i idle
      cases fails
      exact ⟨rfl, .unexpected idle⟩
    · split at fails
      · rename_i opens
        split at fails
        · rename_i unmatched
          cases fails
          rw [opens]
          exact ⟨rfl, .unclosed unmatched⟩
        · cases fails
      · cases fails

theorem shows_of_skipSeparator {scope : Scope} {fault : Fault} {position : Nat}
    (fails : scope.skipSeparator = .error ⟨fault, position⟩) :
    position = scope.skipBlank.position ∧ Shows fault .separator scope.skipBlank.text := by
  dsimp only [skipSeparator] at fails
  split at fails
  · cases fails
  · rename_i first rest start
    have solid : isBlank first = false := dropBlank_head_not_blank scope.text rest first start
    rw [start]
    split at fails
    · rename_i differs
      cases fails
      exact ⟨rfl, .missingSeparator solid differs⟩
    · rename_i separates
      rw [Classical.not_not] at separates
      split at fails
      · rename_i idle
        cases fails
        rw [separates]
        refine ⟨rfl, .missingConjunct ?_⟩
        intro character member begins
        have follows := all_idle_eq_false_iff.mpr ⟨character, member, begins⟩
        rw [idle] at follows
        cases follows
      · cases fails

variable {scope after : Scope} {before conjunct : List Char} {fault : Fault} {position : Nat}

theorem faultAt_of_opening (fails : scope.opening = .error ⟨fault, position⟩) :
    scope.FaultAt fault position := by
  obtain ⟨place, showsFault⟩ := shows_of_opening fails
  have cut := scope.cut_skipBlank
  have progress : Progress (scope.text.takeWhile isBlank ++ scope.skipBlank.text) _ .conjunct _ :=
    .start List.all_takeWhile
  rw [← cut.text] at progress
  exact ⟨_, _, _, progress, place.trans cut.position, showsFault⟩

theorem faultAt_of_skipSeparator (blank : allBlank before = true) (takes : Takes conjunct after.text)
    (cut : scope.Cut (before ++ conjunct) after) (fails : after.skipSeparator = .error ⟨fault, position⟩) :
    scope.FaultAt fault position := by
  obtain ⟨place, showsFault⟩ := shows_of_skipSeparator fails
  have cutBlank := after.cut_skipBlank
  have whole := cut.trans cutBlank
  rw [cutBlank.text] at takes
  have progress := Progress.taken blank takes List.all_takeWhile
  rw [← whole.text] at progress
  exact ⟨_, _, _, progress, place.trans whole.position, showsFault⟩

theorem faultAt_of_next {next : Scope} (blank : allBlank before = true) (takes : Takes conjunct after.text)
    (cut : scope.Cut (before ++ conjunct) after) (skips : after.Skips next) (faultNext : next.FaultAt fault position) :
    scope.FaultAt fault position := by
  obtain ⟨front, stage, left, progress, place, showsFault⟩ := faultNext
  cases skips with
  | ended blankAfter cutEnd =>
      -- Nothing is left to read, so there is no fault.
      have empty : next.text = [] := by simpa using cutEnd.text
      obtain ⟨character, later, rfl, _⟩ := showsFault.solid
      obtain ⟨beyond, parts⟩ := progress.parts
      simp [empty] at parts
  | @separated between _ blankBetween cutSeparator follows =>
      have whole := cut.trans cutSeparator
      rw [cutSeparator.text, List.append_assoc, List.singleton_append] at takes
      have longer := Progress.later blank takes blankBetween progress
      have text : scope.text = before ++ conjunct ++ between ++ separator :: next.text := by simp [whole.text]
      rw [← text] at longer
      refine ⟨_, _, _, longer, ?_, showsFault⟩
      have frontEq : before ++ conjunct ++ between ++ separator :: front =
          before ++ conjunct ++ (between ++ [separator]) ++ front := by simp
      rw [place, whole.position, frontEq, Utf8.size_append _ front, Nat.add_assoc]

theorem faultAt_of_inside {inside : Scope} (opens : scope.opening = .ok (.group inside after))
    (faultInside : inside.FaultAt fault position) : scope.FaultAt fault position := by
  obtain ⟨front, stage, left, progress, place, showsFault⟩ := faultInside
  cases opening_eq_ok_iff.mp opens with
  | @group before _ _ blank balanced cut begins =>
      have longer : Progress (before ++ opener :: inside.text ++ closer :: after.text) _ stage left :=
        .inside blank balanced progress
      have text : scope.text = before ++ opener :: inside.text ++ closer :: after.text := by simp [cut.text]
      rw [← text] at longer
      refine ⟨_, _, _, longer, ?_, showsFault⟩
      have width : Utf8.size (opener :: front) = 1 + Utf8.size front := rfl
      rw [place, begins, Utf8.size_append, width]
      omega

theorem faultAt_of_symbols (fails : scope.symbols = .error ⟨fault, position⟩) : scope.FaultAt fault position := by
  fun_induction Scope.symbols scope with
  | case1 scope error opens =>
      cases fails
      exact faultAt_of_opening opens
  | case2 scope opens => cases fails
  | case3 scope characters after opens error skips =>
      cases fails
      cases opening_eq_ok_iff.mp opens with
      | symbol blank shaped stops cut => exact faultAt_of_skipSeparator blank (.symbol shaped stops) cut skips
  | case4 scope characters after opens next skips ih =>
      cases opening_eq_ok_iff.mp opens with
      | symbol blank shaped stops cut =>
          exact faultAt_of_next blank (.symbol shaped stops) cut (skipSeparator_eq_ok_iff.mp skips)
            (ih (map_eq_error_iff.mp fails))
  | case5 scope inside after opens error innerFails ih =>
      cases fails
      exact faultAt_of_inside opens (ih innerFails)
  | case6 scope inside after opens inner content error skips ih =>
      cases fails
      have derived := (symbols_eq_ok_iff_derives inside).mp content
      cases opening_eq_ok_iff.mp opens with
      | group blank balanced cut begins =>
          exact faultAt_of_skipSeparator blank (.group derived balanced) cut skips
  | case7 scope inside after opens inner content next skips ihInside ihNext =>
      have derived := (symbols_eq_ok_iff_derives inside).mp content
      cases opening_eq_ok_iff.mp opens with
      | group blank balanced cut begins =>
          exact faultAt_of_next blank (.group derived balanced) cut (skipSeparator_eq_ok_iff.mp skips)
            (ihNext (map_eq_error_iff.mp fails))

end Scope
end HornLogic.Conjunction
