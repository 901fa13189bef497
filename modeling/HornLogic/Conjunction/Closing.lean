import HornLogic.Conjunction.Cursor
import HornLogic.Conjunction.Grammar
import Mathlib.Data.Nat.PSub

/-!
# Where a parenthesis is closed

An opening parenthesis is closed by the one behind the next stretch of text that is balanced
(`Window.ClosedAt`). It is found by counting how many others are open, and here nothing comes of a count that is
lowered where it is zero.
-/
namespace HornLogic

set_option autoImplicit false

open Text

/-- The parenthesis that the window begins with is closed in the window by the one at the position. -/
structure Text.Window.ClosedAt (window : Window) (close : Nat) : Prop where
  within : close < window.finish
  closes : (Window.mk window.text close (close + 1)).characters? = some [Conjunction.closer]
  between : ∃ inside, (Window.mk window.text (window.start + 1) close).characters? = some inside ∧
    Conjunction.Balanced inside

namespace Conjunction

/-- The position of the closing parenthesis that leaves `depth` open ones matched, if there is one. -/
def closeAmong? : Nat → List (Nat × Char) → Option (Option Nat)
  | _, [] => some none
  | depth, (index, character) :: later =>
    if character = opener then closeAmong? (depth + 1) later
    else if character = closer then
      if depth = 0 then some (some index)
      else do
        let lowered ← depth.ppred
        closeAmong? lowered later
    else closeAmong? depth later

/-- Where the parenthesis is closed that the window begins with. -/
def matchingClose? (window : Window) : Reading Nat := do
  note (.call window)
  let start := window.start + opener.utf8Size
  let characters ← slice { window with start }
  match ← liftM (closeAmong? 0 (indexed start characters)) with
  | some close => return close
  | none => misplaced window.text .unclosed window.start

end Conjunction
end HornLogic
