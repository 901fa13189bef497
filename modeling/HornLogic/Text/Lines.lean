import HornLogic.Text.Trim

/-!
# Lines

A text falls into the lines that a line feed ends and a rest that none ends. It is cut the same
way whether it is given as bytes or as characters, so the cut is stated for any kind of element
and any test for the element that ends a line. `Cut.join_cut` says that a cut loses nothing but
the ends of the lines.
-/
namespace HornLogic.Text

set_option autoImplicit false

variable {Item : Type}

/-- The ended lines, without the element that ends each, and what is left after the last end. -/
structure Cut (Item : Type) where
  ended : List (List Item)
  rest : List Item

namespace Cut

/-- Puts one more element in front of the first line. -/
def extend (isEnd : Item → Bool) (item : Item) (cut : Cut Item) : Cut Item :=
  if isEnd item then
    { cut with ended := [] :: cut.ended }
  else
    match cut.ended with
    | [] => { cut with rest := item :: cut.rest }
    | line :: later => { cut with ended := (item :: line) :: later }

/-- All lines, where an empty rest is no line. -/
def lines (cut : Cut Item) : List (List Item) :=
  cut.ended ++ if cut.rest.isEmpty then [] else [cut.rest]

/-- Ends each ended line by the same element and puts everything together again. -/
def join (mark : Item) (cut : Cut Item) : List Item :=
  cut.ended.flatMap (· ++ [mark]) ++ cut.rest

end Cut

/-- Cuts the values after each element that ends a line. -/
def cut (isEnd : Item → Bool) (values : List Item) : Cut Item :=
  values.foldr (Cut.extend isEnd) ⟨[], []⟩

theorem cut_nil (isEnd : Item → Bool) : cut isEnd [] = ⟨[], []⟩ := rfl

theorem cut_cons (isEnd : Item → Bool) (item : Item) (values : List Item) :
    cut isEnd (item :: values) = (cut isEnd values).extend isEnd item := rfl

theorem Cut.join_cut [DecidableEq Item] (mark : Item) (values : List Item) :
    (cut (· == mark) values).join mark = values := by
  induction values with
  | nil => rfl
  | cons item values ih =>
      rw [cut_cons, Cut.extend]
      split
      · rename_i ends
        rw [beq_iff_eq] at ends
        simpa [Cut.join, ends] using ih
      · split
        · rename_i noneEnded
          simpa [Cut.join, noneEnded] using ih
        · rename_i line later ended
          simpa [Cut.join, ended] using ih

end HornLogic.Text
