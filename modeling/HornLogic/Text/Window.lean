import HornLogic.Text.Utf8

/-!
# Windows of a text

A window is a stretch of a text between two positions, which count the bytes in front of them. Positions can
be any numbers: behind the end, in the wrong order, or in the middle of a character. Then there is nothing to
be seen in the window.
-/
namespace HornLogic.Text

set_option autoImplicit false

namespace Utf8

/-- The positions in front of the characters, and the one at the end. -/
def boundaries : List Char → List Nat
  | [] => [0]
  | first :: rest => 0 :: (boundaries rest).map (first.utf8Size + ·)

/-- The text in front of the position and behind it. No character can be split. -/
def splitAt? : Nat → List Char → Option (List Char × List Char)
  | 0, text => some ([], text)
  | _ + 1, [] => none
  | position + 1, first :: rest =>
    if first.utf8Size ≤ position + 1 then
      (splitAt? (position + 1 - first.utf8Size) rest).map fun (front, back) => (first :: front, back)
    else none

end Utf8

structure Window where
  text : List Char
  start : Nat
  finish : Nat

namespace Window

structure Within (window : Window) : Prop where
  ordered : window.start ≤ window.finish
  inside : window.finish ≤ Utf8.size window.text
  startBoundary : window.start ∈ Utf8.boundaries window.text
  finishBoundary : window.finish ∈ Utf8.boundaries window.text

def characters? (window : Window) : Option (List Char) := do
  let (_, behind) ← Utf8.splitAt? window.start window.text
  if window.start ≤ window.finish then
    let (characters, _) ← Utf8.splitAt? (window.finish - window.start) behind
    return characters
  else none

end Window

/-- The characters with their positions, where the first one has the given position. -/
def indexed : Nat → List Char → List (Nat × Char)
  | _, [] => []
  | position, first :: rest => (position, first) :: indexed (position + first.utf8Size) rest

end HornLogic.Text
