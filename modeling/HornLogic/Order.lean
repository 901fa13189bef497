import HornLogic.Clause

/-!
# The order of atoms and of clauses

What comes first in the listings of atoms and clauses is what compares as less. The order has no logical meaning,
but the sets of atoms and all that is kept in the order of atoms rest on it.
-/
namespace HornLogic

set_option autoImplicit false

instance : LT Atom := ltOfOrd

instance : LT Clause := ltOfOrd

/-- The three results of a comparison are less, equal and greater; of any two items exactly one is true, and what is
less than something less is less. -/
structure OrdersStrictly (Item : Type) [Ord Item] [LT Item] : Prop where
  compareLtIff (left right : Item) : compare left right = .lt ↔ left < right
  compareEqIff (left right : Item) : compare left right = .eq ↔ left = right
  compareGtIff (left right : Item) : compare left right = .gt ↔ right < left
  exactlyOne (left right : Item) :
    left < right ∧ left ≠ right ∧ ¬ right < left ∨
      ¬ left < right ∧ left = right ∧ ¬ right < left ∨
      ¬ left < right ∧ left ≠ right ∧ right < left
  transitive {left middle right : Item} (below : left < middle) (above : middle < right) : left < right

end HornLogic
