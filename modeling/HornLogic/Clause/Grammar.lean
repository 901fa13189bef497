import HornLogic.Conjunction.Grammar

/-!
# The grammar of clauses

What a line has to be for a clause to be written on it. Nothing is asked of the conclusion but that
it is there: it may hold separators and parentheses, which mean nothing in it.
-/
namespace HornLogic

set_option autoImplicit false

open Text

/-- An arrow stands somewhere in the text. -/
def HasArrow (text : List Char) : Prop :=
  ∃ before after, text = before ++ '-' :: '>' :: after

/-- An arrow stands between the two sides and nowhere else in the line. -/
structure SoleArrow (line left right : List Char) : Prop where
  split : line = left ++ '-' :: '>' :: right
  only : ∀ before after, line = before ++ '-' :: '>' :: after → before = left ∧ after = right

structure Clause.Layout (line : String) (left right : List Char) (symbols : List (List Char)) :
    Prop where
  arrow : SoleArrow line.toList left right
  premise : Conjunction.Derives (trim left) symbols
  conclusion : trim right ≠ []

end HornLogic
