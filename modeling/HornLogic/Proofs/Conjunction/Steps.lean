import HornLogic.Proofs.Conjunction.Balance
import HornLogic.Proofs.Text.Runs

/-!
# Steps through a scope

What a step of reading cuts from the front of a scope and where the rest begins. Both steps are
stated as equivalences, so what is read is also the only thing that can be read there.
-/
namespace HornLogic.Conjunction

set_option autoImplicit false

open Text

namespace Scope

structure Cut (scope : Scope) (piece : List Char) (after : Scope) : Prop where
  text : scope.text = piece ++ after.text
  position : after.position = scope.position + Utf8.size piece

theorem Cut.trans {scope middle after : Scope} {front back : List Char}
    (first : scope.Cut front middle) (second : middle.Cut back after) :
    scope.Cut (front ++ back) after := by
  constructor
  · rw [first.text, second.text, List.append_assoc]
  · rw [second.position, first.position, Utf8.size_append, Nat.add_assoc]

theorem Cut.unique {scope left right : Scope} {piece : List Char} (one : scope.Cut piece left)
    (other : scope.Cut piece right) : left = right := by
  have texts : left.text = right.text := List.append_cancel_left (one.text.symm.trans other.text)
  have positions : left.position = right.position := one.position.trans other.position.symm
  cases left
  cases right
  cases texts
  cases positions
  rfl

theorem cut_skipBlank (scope : Scope) :
    scope.Cut (scope.text.takeWhile isBlank) scope.skipBlank :=
  ⟨List.takeWhile_append_dropWhile.symm, rfl⟩

theorem skipBlank_eq {scope start : Scope} {before : List Char} (blank : allBlank before = true)
    (cut : scope.Cut before start) (stops : Stops isBlank start.text) :
    scope.skipBlank = start := by
  have run := run_eq_iff.mpr ⟨cut.text, blank, stops⟩
  have skipped := scope.cut_skipBlank
  rw [run.1] at skipped
  exact skipped.unique cut

/-- The openings a scope can have, with the blanks in front of each. -/
inductive Opens (scope : Scope) : Opening → Prop where
  | nothing (blank : allBlank scope.text = true) : Opens scope .nothing
  | symbol {before characters : List Char} {after : Scope} (blank : allBlank before = true)
      (shaped : IsSymbol characters) (stops : Stops inSymbol after.text)
      (cut : scope.Cut (before ++ characters) after) : Opens scope (.symbol characters after)
  | group {before : List Char} {inside after : Scope} (blank : allBlank before = true)
      (balanced : Balanced inside.text)
      (cut : scope.Cut (before ++ (opener :: inside.text ++ [closer])) after)
      (begins : inside.position = scope.position + Utf8.size before + 1) :
      Opens scope (.group inside after)

theorem solid_of_inSymbol {character : Char} (within : inSymbol character = true) : isBlank character = false := by
  simp only [inSymbol, Bool.and_eq_true, Bool.not_eq_true'] at within
  exact within.1

theorem stops_blank_of_inSymbol {first : Char} {rest : List Char} (solid : inSymbol first = true) :
    Stops isBlank (first :: rest) :=
  stops_cons_iff.mpr (solid_of_inSymbol solid)

theorem inSymbol_opener : inSymbol opener = true := by decide

theorem opening_nothing {scope : Scope} (blank : allBlank scope.text = true) :
    scope.opening = .ok .nothing := by
  have empty : scope.skipBlank.text = [] := (dropBlank_eq_nil_iff _).mpr blank
  dsimp only [opening]
  split
  · rfl
  · rename_i first rest start
    rw [empty] at start
    cases start

theorem opening_symbol {scope after : Scope} {before characters : List Char}
    (blank : allBlank before = true) (shaped : IsSymbol characters)
    (stops : Stops inSymbol after.text) (cut : scope.Cut (before ++ characters) after) :
    scope.opening = .ok (.symbol characters after) := by
  obtain ⟨first, rest, rfl, notOpener, notCloser⟩ := shaped.begins
  have solid : inSymbol first = true := shaped.solid first List.mem_cons_self
  have notSeparator : first ≠ separator := by
    intro same
    rw [same] at solid
    cases solid
  let start : Scope := ⟨scope.position + Utf8.size before, (first :: rest) ++ after.text⟩
  have cutStart : scope.Cut before start := ⟨by rw [cut.text, List.append_assoc], rfl⟩
  have skips : scope.skipBlank = start :=
    skipBlank_eq blank cutStart (stops_blank_of_inSymbol solid)
  have run := run_eq_iff.mpr ⟨rfl, List.all_eq_true.mpr shaped.solid, stops⟩
  have restCut : start.Cut (first :: rest)
      ⟨start.position + Utf8.size (first :: rest), after.text⟩ := ⟨rfl, rfl⟩
  have ends := (cutStart.trans restCut).unique cut
  have noMark : ¬ (first = separator ∨ first = closer) := by
    simp only [notSeparator, notCloser, or_self, not_false_eq_true]
  rw [opening, skips]
  dsimp only [start, List.cons_append] at run ends ⊢
  rw [if_neg noMark, if_neg notOpener, run.1, run.2, ends]

theorem size_group (inside : List Char) :
    Utf8.size (opener :: inside ++ [closer]) = 1 + Utf8.size inside + 1 := by
  rw [Utf8.size_append, Utf8.size_cons]
  rfl

theorem opening_group {scope inside after : Scope} {before : List Char}
    (blank : allBlank before = true) (balanced : Balanced inside.text)
    (cut : scope.Cut (before ++ (opener :: inside.text ++ [closer])) after)
    (begins : inside.position = scope.position + Utf8.size before + 1) :
    scope.opening = .ok (.group inside after) := by
  let start : Scope :=
    ⟨scope.position + Utf8.size before, opener :: (inside.text ++ closer :: after.text)⟩
  have cutStart : scope.Cut before start := ⟨by simp [cut.text, start], rfl⟩
  have skips : scope.skipBlank = start :=
    skipBlank_eq blank cutStart (stops_blank_of_inSymbol inSymbol_opener)
  have split : splitClose 0 (inside.text ++ closer :: after.text) =
      some (inside.text, after.text) :=
    splitClose_eq_some_iff.mpr ⟨rfl, closes_zero_iff.mpr balanced⟩
  have noMark : ¬ (opener = separator ∨ opener = closer) := by decide
  have ends : inside.position + Utf8.size inside.text + 1 = after.position := by
    rw [cut.position, begins, Utf8.size_append, size_group]
    omega
  rw [opening, skips]
  dsimp only [start]
  rw [if_neg noMark, if_pos rfl, split]
  dsimp only
  rw [← begins, ends]

theorem opens_of_opening {scope : Scope} {opening : Opening} (read : scope.opening = .ok opening) :
    scope.Opens opening := by
  have cut := scope.cut_skipBlank
  have blank : allBlank (scope.text.takeWhile isBlank) = true := List.all_takeWhile
  dsimp only [Scope.opening] at read
  split at read
  · rename_i start
    cases read
    exact .nothing ((dropBlank_eq_nil_iff _).mp start)
  · rename_i first rest start
    have solid : isBlank first = false := dropBlank_head_not_blank scope.text rest first start
    split at read
    · cases read
    · rename_i noMark
      simp only [not_or] at noMark
      split at read
      · rename_i opens
        split at read
        · cases read
        · rename_i inside after split
          cases read
          obtain ⟨closes, balanced⟩ := splitClose_eq_some_iff.mp split
          have cutGroup : scope.skipBlank.Cut (opener :: inside ++ [closer])
              ⟨scope.skipBlank.position + 1 + Utf8.size inside + 1, after⟩ := by
            constructor
            · rw [start, opens, closes]
              simp
            · rw [size_group, ← Nat.add_assoc, ← Nat.add_assoc]
          exact .group blank (closes_zero_iff.mp balanced) (cut.trans cutGroup) rfl
      · rename_i notOpener
        cases read
        have begins : inSymbol first = true := by
          simp [inSymbol, solid, noMark.1]
        have cutSymbol : scope.skipBlank.Cut (scope.skipBlank.text.takeWhile inSymbol)
            ⟨_, scope.skipBlank.text.dropWhile inSymbol⟩ :=
          ⟨List.takeWhile_append_dropWhile.symm, rfl⟩
        apply Opens.symbol blank _ (stops_dropWhile inSymbol _) (cut.trans cutSymbol)
        constructor
        · exact List.all_eq_true.mp List.all_takeWhile
        · rw [start, List.takeWhile_cons, if_pos begins]
          exact ⟨first, _, rfl, notOpener, noMark.2⟩

theorem opening_eq_ok_iff {scope : Scope} {opening : Opening} :
    scope.opening = .ok opening ↔ scope.Opens opening := by
  constructor
  · exact opens_of_opening
  · intro opens
    cases opens with
    | nothing blank => exact opening_nothing blank
    | symbol blank shaped stops cut => exact opening_symbol blank shaped stops cut
    | group blank balanced cut begins => exact opening_group blank balanced cut begins

/-- Where reading goes on after a conjunct: at the end of the scope, or behind a separator that
something able to begin a conjunct still follows. -/
inductive Skips (scope : Scope) : Scope → Prop where
  | ended {after : Scope} (blank : allBlank scope.text = true) (cut : scope.Cut scope.text after) :
      Skips scope after
  | separated {before : List Char} {after : Scope} (blank : allBlank before = true)
      (cut : scope.Cut (before ++ [separator]) after)
      (follows : ∃ character ∈ after.text, inSymbol character = true ∧ character ≠ closer) :
      Skips scope after

theorem all_idle_eq_false_iff {text : List Char} :
    (text.all fun later => later == separator || later == closer || isBlank later) = false ↔
      ∃ character ∈ text, inSymbol character = true ∧ character ≠ closer := by
  rw [List.all_eq_false]
  apply exists_congr
  intro character
  simp only [inSymbol, Bool.or_eq_true, beq_iff_eq, Bool.and_eq_true, Bool.not_eq_true',
    bne_iff_ne, ne_eq, not_or, Bool.not_eq_true, and_assoc, and_comm, and_left_comm]

theorem skips_of_skipSeparator {scope after : Scope} (read : scope.skipSeparator = .ok after) :
    scope.Skips after := by
  have cut := scope.cut_skipBlank
  have blank : allBlank (scope.text.takeWhile isBlank) = true := List.all_takeWhile
  dsimp only [skipSeparator] at read
  split at read
  · rename_i start
    cases read
    have whole : scope.text = scope.text.takeWhile isBlank := by
      simpa [start] using cut.text
    exact .ended ((dropBlank_eq_nil_iff _).mp start) (whole ▸ cut)
  · rename_i first rest start
    split at read
    · cases read
    · rename_i separates
      split at read
      · cases read
      · rename_i follows
        cases read
        rw [Classical.not_not] at separates
        have cutSeparator : scope.skipBlank.Cut [separator] ⟨scope.skipBlank.position + 1, rest⟩ :=
          ⟨by rw [start, separates]; rfl, rfl⟩
        rw [Bool.not_eq_true] at follows
        exact .separated blank (cut.trans cutSeparator) (all_idle_eq_false_iff.mp follows)

theorem skipSeparator_eq_ok_iff {scope after : Scope} :
    scope.skipSeparator = .ok after ↔ scope.Skips after := by
  constructor
  · exact skips_of_skipSeparator
  · intro skips
    cases skips with
    | ended blank cut =>
        have empty : after.text = [] := by simpa using cut.text
        have stops : Stops isBlank after.text := by
          rw [empty]
          exact stops_nil
        rw [skipSeparator, skipBlank_eq blank cut stops, empty]
    | @separated before after blank cut follows =>
        let start : Scope := ⟨scope.position + Utf8.size before, separator :: after.text⟩
        have cutStart : scope.Cut before start := by
          constructor
          · rw [cut.text, List.append_assoc]
            rfl
          · rfl
        have stops : Stops isBlank start.text := stops_cons_iff.mpr (by decide)
        have next : start.position + 1 = after.position := by
          rw [cut.position, Utf8.size_append, ← Nat.add_assoc]
          rfl
        rw [skipSeparator, skipBlank_eq blank cutStart stops]
        dsimp only [start] at next ⊢
        rw [if_neg (fun differs => differs rfl), all_idle_eq_false_iff.mpr follows,
          if_neg Bool.false_ne_true, next]

theorem blank_stops {front rest : List Char} (blank : allBlank front = true) (stops : Stops inSymbol rest) :
    Stops inSymbol (front ++ rest) := by
  cases front with
  | nil => exact stops
  | cons first others =>
      rw [allBlank, List.all_cons, Bool.and_eq_true] at blank
      rw [List.cons_append, stops_cons_iff, inSymbol, blank.1]
      rfl

theorem separator_stops (rest : List Char) : Stops inSymbol (separator :: rest) :=
  stops_cons_iff.mpr (by decide)

/-- What follows a conjunct cannot be more of a symbol. -/
theorem Skips.stops {scope after : Scope} (skips : scope.Skips after) :
    Stops inSymbol scope.text := by
  cases skips with
  | ended blank cut => simpa using blank_stops blank stops_nil
  | separated blank cut follows =>
      rw [cut.text, List.append_assoc]
      exact blank_stops blank (separator_stops after.text)

end Scope
end HornLogic.Conjunction
