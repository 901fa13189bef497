import HornLogic.Conjunction.Grammar
import HornLogic.ParseError

/-!
# What a fault is evidence of

A conjunct in parentheses is a scope of its own, so a text has scopes in scopes (`HasScope`). A parenthesis
makes a scope only where a conjunct can begin: one that a symbol holds makes none. What a fault says about
its place concerns the innermost scope there (`Fault.Evidence`), and for a parenthesis that is never closed
all that is left of the text.
-/
namespace HornLogic

set_option autoImplicit false

open Text

namespace Conjunction

/-- A front of a scope behind which a conjunct can begin. -/
inductive Leads : List Char → Prop where
  | start {before : List Char} (blank : allBlank before = true) : Leads before
  | later {before conjunct between front : List Char} {symbols : List (List Char)}
      (blankBefore : allBlank before = true) (part : DerivesConjunct conjunct symbols)
      (blankBetween : allBlank between = true) (leads : Leads front) :
      Leads (before ++ conjunct ++ between ++ separator :: front)

/-- A scope of a text, with what is in front of it and behind it: the whole text, or what is inside a pair of
parentheses where a conjunct can begin, or a scope in there. -/
inductive HasScope : List Char → List Char → List Char → List Char → Prop where
  | whole {text : List Char} : HasScope text [] text []
  | inside {front inside after before scope behind : List Char} (leads : Leads front)
      (balanced : Balanced inside) (deeper : HasScope inside before scope behind) :
      HasScope (front ++ opener :: inside ++ closer :: after) (front ++ opener :: before) scope
        (behind ++ closer :: after)

/-- The character behind a front of the text is one of the stretch that begins behind `before`. -/
structure Surrounds (before stretch front : List Char) : Prop where
  begun : before.length ≤ front.length
  lasts : front.length < before.length + stretch.length

/-- The scope is around the place behind a front, and every other scope around this place is around the
scope too. -/
structure InnermostScope (text front before scope after : List Char) : Prop where
  has : HasScope text before scope after
  surrounds : Surrounds before scope front
  innermost : ∀ otherBefore other otherAfter, HasScope text otherBefore other otherAfter →
    Surrounds otherBefore other front →
    otherBefore.length ≤ before.length ∧ otherAfter.length ≤ after.length

end Conjunction

/-- What has to be true of a text where it has a fault, given what is in front of the fault, the character
there and what comes later. -/
inductive Fault.Evidence (text front : List Char) : Fault → Char → List Char → Prop where
  | unexpected {character : Char} {later : List Char}
      (mark : character = Conjunction.separator ∨ character = Conjunction.closer) :
      Evidence text front (.unexpected character) character later
  | missingSeparator {character : Char} {later : List Char} (solid : isBlank character = false)
      (differs : character ≠ Conjunction.separator) :
      Evidence text front .missingSeparator character later
  | missingConjunct {before earlier later after : List Char} (place : front = before ++ earlier)
      (scope : Conjunction.InnermostScope text front before (earlier ++ Conjunction.separator :: later) after)
      (idle : ∀ character ∈ later,
        character = Conjunction.separator ∨ character = Conjunction.closer ∨ isBlank character = true) :
      Evidence text front .missingConjunct Conjunction.separator (later ++ after)
  | unclosed {later : List Char}
      (unmatched : ∀ ahead, ahead <+: later →
        ahead.count Conjunction.closer ≤ ahead.count Conjunction.opener)
      (apart : ∀ before inside after,
        text = before ++ Conjunction.opener :: inside ++ Conjunction.closer :: after →
        Conjunction.Balanced inside → ¬ Conjunction.Surrounds (before ++ [Conjunction.opener]) inside front) :
      Evidence text front .unclosed Conjunction.opener later

end HornLogic
