import HornLogic.ParseError

/-!
# Errors of an input

Why a formula could not be read. Lines are counted from one.
-/
namespace HornLogic

set_option autoImplicit false

inductive InputError where
  /-- A clause given on its own is not one. -/
  | clause (error : ParseError)
  | line (number : Nat) (error : ParseError)
  /-- The input could not be read on after some lines. -/
  | source (linesRead : Nat)
  deriving DecidableEq

def InputError.message : InputError → String
  | .clause error => error.message
  | .line number error => s!"Line {number}: {error.message}"
  | .source linesRead => s!"Failed to read input after line {linesRead}"

end HornLogic
