import HornLogic.ParseError
import HornLogic.Text.Blank
import HornLogic.Text.Utf8

/-!
# Scopes of a conjunction

A conjunction is a row of conjuncts with `&` between them, and a conjunct is a symbol or a
conjunction in parentheses. A scope is a stretch of such a text that is read on its own: the whole
text, what is left of it, or the inside of a pair of parentheses. Every part cut from a scope is no
longer than it, and shorter where something was read, so reading ends.

Parentheses are matched by counting all of them, also those inside symbols. A symbol is ended by a
blank, by `&` or with its scope, but not by a parenthesis.
-/
namespace HornLogic.Conjunction

set_option autoImplicit false

open Text

/-- A stretch of text and how many bytes come before it. -/
structure Scope where
  position : Nat
  text : List Char

/-- A fault and how many bytes come before it. -/
structure PlacedFault where
  fault : Fault
  position : Nat

/-- What a scope begins with, and what is left after it. -/
inductive Opening where
  | nothing
  | symbol (characters : List Char) (after : Scope)
  | group (inside after : Scope)

def separator : Char := '&'

def opener : Char := '('

def closer : Char := ')'

def inSymbol (character : Char) : Bool :=
  !isBlank character && character != separator

/-- The text before and after the closing parenthesis that leaves `depth` open ones matched. -/
def splitClose : Nat → List Char → Option (List Char × List Char)
  | _, [] => none
  | depth, first :: rest =>
    let beyond (depth : Nat) :=
      (splitClose depth rest).map fun (inside, after) => (first :: inside, after)
    if first = opener then beyond (depth + 1)
    else if first = closer then
      match depth with
      | 0 => some ([], rest)
      | depth + 1 => beyond depth
    else beyond depth

namespace Scope

def skipBlank (scope : Scope) : Scope where
  position := scope.position + Utf8.size (scope.text.takeWhile isBlank)
  text := dropBlank scope.text

/-- Cuts off the first conjunct, without looking inside it. -/
def opening (scope : Scope) : Except PlacedFault Opening :=
  let start := scope.skipBlank
  match start.text with
  | [] => .ok .nothing
  | first :: rest =>
    if first = separator ∨ first = closer then
      .error ⟨.unexpected first, start.position⟩
    else if first = opener then
      match splitClose 0 rest with
      | none => .error ⟨.unclosed, start.position⟩
      | some (inside, after) =>
        let inner := start.position + 1
        .ok (.group ⟨inner, inside⟩ ⟨inner + Utf8.size inside + 1, after⟩)
    else
      let characters := start.text.takeWhile inSymbol
      .ok (.symbol characters
        ⟨start.position + Utf8.size characters, start.text.dropWhile inSymbol⟩)

/-- Steps over the separator after a conjunct, where some later character of the scope has to be
able to begin a conjunct. At the end of a scope no separator is needed. -/
def skipSeparator (scope : Scope) : Except PlacedFault Scope :=
  let start := scope.skipBlank
  match start.text with
  | [] => .ok start
  | first :: rest =>
    if first ≠ separator then
      .error ⟨.missingSeparator, start.position⟩
    else if rest.all fun later => later == separator || later == closer || isBlank later then
      .error ⟨.missingConjunct, start.position⟩
    else
      .ok ⟨start.position + 1, rest⟩

end Scope

theorem length_splitClose {depth : Nat} {text inside after : List Char}
    (split : splitClose depth text = some (inside, after)) :
    text.length = inside.length + after.length + 1 := by
  induction text generalizing depth inside after with
  | nil => cases split
  | cons first rest ih =>
      have beyond : ∀ deeper, (splitClose deeper rest).map
            (fun (inside, after) => (first :: inside, after)) = some (inside, after) →
          (first :: rest).length = inside.length + after.length + 1 := by
        intro deeper found
        obtain ⟨⟨inner, left⟩, found, parts⟩ := Option.map_eq_some_iff.mp found
        cases parts
        have shorter := ih found
        simp only [List.length_cons]
        omega
      unfold splitClose at split
      split at split
      · exact beyond _ split
      · split at split
        · split at split
          · cases split
            simp
          · exact beyond _ split
        · exact beyond _ split

namespace Scope

theorem length_skipBlank_le (scope : Scope) : scope.skipBlank.text.length ≤ scope.text.length :=
  length_dropBlank_le scope.text

theorem length_of_opening_group {scope inside after : Scope}
    (opens : scope.opening = .ok (.group inside after)) :
    inside.text.length < scope.text.length ∧ after.text.length < scope.text.length := by
  have bound := scope.length_skipBlank_le
  dsimp only [opening] at opens
  split at opens
  · cases opens
  · rename_i first rest start
    rw [start, List.length_cons] at bound
    split at opens
    · cases opens
    · split at opens
      · split at opens
        · cases opens
        · rename_i split
          cases opens
          have lengths := length_splitClose split
          dsimp only
          omega
      · cases opens

theorem length_of_opening_symbol {scope after : Scope} {characters : List Char}
    (opens : scope.opening = .ok (.symbol characters after)) :
    after.text.length < scope.text.length := by
  have bound := scope.length_skipBlank_le
  dsimp only [opening] at opens
  split at opens
  · cases opens
  · rename_i first rest start
    have solid : isBlank first = false := dropBlank_head_not_blank scope.text rest first start
    split at opens
    · cases opens
    · rename_i notMark
      split at opens
      · split at opens <;> cases opens
      · cases opens
        have begins : inSymbol first = true := by
          simp only [not_or] at notMark
          simp [inSymbol, solid, notMark.1]
        have shorter : (rest.dropWhile inSymbol).length ≤ rest.length :=
          (List.dropWhile_sublist inSymbol).length_le
        rw [start, List.length_cons] at bound
        simp only [start, List.dropWhile_cons, begins, if_true]
        omega

theorem length_of_skipSeparator {scope after : Scope} (skips : scope.skipSeparator = .ok after) :
    after.text.length ≤ scope.text.length := by
  have bound := scope.length_skipBlank_le
  dsimp only [skipSeparator] at skips
  split at skips
  · cases skips
    exact bound
  · rename_i first rest start
    rw [start, List.length_cons] at bound
    split at skips
    · cases skips
    · split at skips
      · cases skips
      · cases skips
        dsimp only
        omega

end Scope
end HornLogic.Conjunction
