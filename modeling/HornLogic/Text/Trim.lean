/-!
# Trimming

Dropping from the end of a list, or from both ends, the elements that pass a test.
`dropTrailing_append_trailing` says that nothing else is lost.
-/
namespace HornLogic.Text

set_option autoImplicit false

variable {Item : Type}

/-- The values without the longest run at their end that passes the test. -/
def dropTrailing (test : Item → Bool) (values : List Item) : List Item :=
  (values.reverse.dropWhile test).reverse

/-- The longest run at the end of the values that passes the test. -/
def trailing (test : Item → Bool) (values : List Item) : List Item :=
  (values.reverse.takeWhile test).reverse

def trimBoth (test : Item → Bool) (values : List Item) : List Item :=
  dropTrailing test (values.dropWhile test)

theorem dropTrailing_append_trailing (test : Item → Bool) (values : List Item) :
    dropTrailing test values ++ trailing test values = values := by
  rw [dropTrailing, trailing, ← List.reverse_append, List.takeWhile_append_dropWhile,
    List.reverse_reverse]

theorem all_trailing (test : Item → Bool) (values : List Item) :
    (trailing test values).all test = true := by
  rw [trailing, List.all_reverse, List.all_takeWhile]

theorem dropTrailing_concat (test : Item → Bool) (values : List Item) (last : Item) :
    dropTrailing test (values ++ [last]) =
      if test last then dropTrailing test values else values ++ [last] := by
  by_cases passes : test last = true
  · simp [dropTrailing, passes]
  · simp [dropTrailing, passes]

end HornLogic.Text
