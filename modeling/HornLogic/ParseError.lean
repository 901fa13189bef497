/-!
# Errors of a clause

Why a line is not a clause. The constructors tell the causes apart, and all wording is in
`ParseError.message`.
-/
namespace HornLogic

set_option autoImplicit false

/-- What can be wrong at one place of a conjunction. -/
inductive Fault where
  /-- Some character that begins no conjunct stands where one should begin. -/
  | unexpected (character : Char)
  /-- No conjunct can follow a separator. -/
  | missingConjunct
  /-- A conjunct is followed by something other than a separator. -/
  | missingSeparator
  /-- A parenthesis is never closed. -/
  | unclosed
  deriving DecidableEq

inductive ParseError where
  | blankClause
  | emptySymbol
  /-- The line does not have exactly one arrow. -/
  | arrowCount (line : String)
  /-- The position counts the bytes of the conjunction's text before the fault. -/
  | conjunction (fault : Fault) (position : Nat) (text : String)
  deriving DecidableEq

def Fault.message (position : Nat) (text : String) : Fault → String
  | .unexpected character =>
    s!"Found unexpected '{character}' at position {position} in conjunction '{text}'"
  | .missingConjunct =>
    s!"Conjunction '{text}' is missing a conjunct after position {position}"
  | .missingSeparator =>
    s!"Invalid conjunction '{text}' provided, expected '&' at position {position}"
  | .unclosed =>
    s!"Closing parenthesis is missing for position {position} in conjunction '{text}'"

def ParseError.message : ParseError → String
  | .blankClause => "Clause must not be blank"
  | .emptySymbol => "Symbol must not be empty"
  | .arrowCount line =>
    s!"Clause '{line}' does not follow the required format 'conjunction -> atom'"
  | .conjunction fault position text => fault.message position text

end HornLogic
