/-!
# Rows

A row is a line together with the element that ends it. The rows of a text make up the whole text, the
last of them perhaps without an end, and only in one way (`AreRows` says how). So a row can be left
out of a text, or moved, without a change to any other row.
-/
namespace HornLogic.Text

set_option autoImplicit false

variable {Item : Type}

/-- Cuts the values after each element that ends a row. -/
def rows (isEnd : Item → Bool) : List Item → List (List Item)
  | [] => []
  | item :: rest =>
    if isEnd item then [item] :: rows isEnd rest
    else
      match rows isEnd rest with
      | [] => [[item]]
      | row :: later => (item :: row) :: later

/-- Every row ends where its only ending element is, except that the last may have none. -/
inductive AreRows (isEnd : Item → Bool) : List (List Item) → Prop where
  | none : AreRows isEnd []
  | unended {row : List Item} (present : row ≠ []) (plain : ∀ item ∈ row, isEnd item = false) :
      AreRows isEnd [row]
  | ended {line : List Item} {mark : Item} {later : List (List Item)}
      (plain : ∀ item ∈ line, isEnd item = false) (ends : isEnd mark = true)
      (others : AreRows isEnd later) : AreRows isEnd ((line ++ [mark]) :: later)

/-- A text that no line feed breaks. -/
def SingleLine (text : String) : Prop :=
  '\n' ∉ text.toList

instance (text : String) : Decidable (SingleLine text) :=
  inferInstanceAs (Decidable ('\n' ∉ text.toList))

end HornLogic.Text
