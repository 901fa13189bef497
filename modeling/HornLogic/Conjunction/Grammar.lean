import HornLogic.Conjunction.Scope

/-!
# The grammar of conjunctions

Which texts are conjunctions and which symbols they write, apart from any way to read them. What
stands in a pair of parentheses is balanced when all parentheses in it are counted, also those
inside its symbols, so `(p))` is no conjunction although `p)` is a symbol.
-/
namespace HornLogic.Conjunction

set_option autoImplicit false

open Text

/-- No front of the text closes more parentheses than it opens, and the text closes them all. -/
structure Balanced (text : List Char) : Prop where
  neverBelow : ∀ front, front <+: text → front.count closer ≤ front.count opener
  evened : text.count closer = text.count opener

structure IsSymbol (text : List Char) : Prop where
  solid : ∀ character ∈ text, inSymbol character = true
  begins : ∃ first rest, text = first :: rest ∧ first ≠ opener ∧ first ≠ closer

mutual

/-- A conjunction and the symbols it writes, in order. -/
inductive Derives : List Char → List (List Char) → Prop where
  | blank {text : List Char} (blank : allBlank text = true) : Derives text []
  | last {before conjunct after : List Char} {symbols : List (List Char)}
      (blankBefore : allBlank before = true) (part : DerivesConjunct conjunct symbols)
      (blankAfter : allBlank after = true) :
      Derives (before ++ conjunct ++ after) symbols
  | more {before conjunct after rest : List Char} {symbols later : List (List Char)}
      (blankBefore : allBlank before = true) (part : DerivesConjunct conjunct symbols)
      (blankAfter : allBlank after = true) (continues : allBlank rest = false)
      (others : Derives rest later) :
      Derives (before ++ conjunct ++ after ++ separator :: rest) (symbols ++ later)

/-- One conjunct, without blanks around it. -/
inductive DerivesConjunct : List Char → List (List Char) → Prop where
  | symbol {text : List Char} (shaped : IsSymbol text) : DerivesConjunct text [text]
  | group {inside : List Char} {symbols : List (List Char)}
      (content : Derives inside symbols) (balanced : Balanced inside) :
      DerivesConjunct (opener :: inside ++ [closer]) symbols

end

end HornLogic.Conjunction
