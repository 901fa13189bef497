import HornLogic.Clause.Parse

/-!
# The left side of a clause

Texts that can stand in front of the arrow of a line that is read as a clause, whatever stands behind the
arrow, and the beginnings of such texts.
-/
namespace HornLogic.Clause

set_option autoImplicit false

/-- The text is the left side of some clause. -/
def IsLeftSide (text : List Char) : Prop :=
  ∃ right clause, parse (String.ofList (text ++ '-' :: '>' :: right)) = .ok clause

/-- The text can be continued to the left side of some clause. -/
def BeginsLeftSide (text : List Char) : Prop :=
  ∃ continuation, IsLeftSide (text ++ continuation)

end HornLogic.Clause
