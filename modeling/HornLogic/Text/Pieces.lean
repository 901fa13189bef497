import HornLogic.Text.Trim

/-!
# Pieces of a text

The pieces of a text are what stands between its line feeds, as characters and apart from any encoding. Behind a
line feed that ends the text there is no piece.
-/
namespace HornLogic.Text

set_option autoImplicit false

/-- The parts without the last one if there is nothing in it. -/
def dropEmptyLast {Item : Type} (parts : List (List Item)) : List (List Item) :=
  match parts.getLast? with
  | some [] => parts.dropLast
  | _ => parts

/-- The pieces without the carriage returns at their ends. -/
def pieces (text : String) : List String :=
  (dropEmptyLast (text.toList.splitOn '\n')).map fun piece => String.ofList (dropTrailing (· == '\r') piece)

end HornLogic.Text
