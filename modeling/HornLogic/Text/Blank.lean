import HornLogic.Text.Trim

/-!
# Blank characters

A character is blank when Unicode gives it the property White_Space. This is wider than the
spaces of ASCII, and leaves out the information separators and the characters of no width.
-/
namespace HornLogic.Text

set_option autoImplicit false

/-- The first and last code point of each run of blank characters. -/
def blankRuns : List (Nat × Nat) :=
  [(0x09, 0x0D), (0x20, 0x20), (0x85, 0x85), (0xA0, 0xA0), (0x1680, 0x1680), (0x2000, 0x200A),
    (0x2028, 0x2029), (0x202F, 0x202F), (0x205F, 0x205F), (0x3000, 0x3000)]

def isBlank (character : Char) : Bool :=
  blankRuns.any fun (first, last) =>
    decide (first ≤ character.toNat) && decide (character.toNat ≤ last)

/-- Whether a text holds blank characters alone, as the empty text does. -/
def allBlank (text : List Char) : Bool :=
  text.all isBlank

def dropBlank (text : List Char) : List Char :=
  text.dropWhile isBlank

def trim (text : List Char) : List Char :=
  trimBoth isBlank text

theorem dropBlank_eq_nil_iff (text : List Char) : dropBlank text = [] ↔ allBlank text = true := by
  induction text with
  | nil => exact iff_of_true rfl rfl
  | cons first rest ih =>
      rw [dropBlank] at ih ⊢
      rw [List.dropWhile_cons, allBlank, List.all_cons, ← allBlank]
      cases isBlank first with
      | false => simp
      | true => rw [if_pos rfl, Bool.true_and, ih]

theorem dropBlank_head_not_blank (text rest : List Char) (first : Char)
    (left : dropBlank text = first :: rest) : isBlank first = false := by
  have head := List.head?_dropWhile_not isBlank text
  rw [dropBlank] at left
  simpa [left] using head

theorem length_dropBlank_le (text : List Char) : (dropBlank text).length ≤ text.length :=
  (List.dropWhile_sublist isBlank).length_le

end HornLogic.Text
