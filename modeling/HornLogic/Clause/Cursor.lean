import HornLogic.Clause.Parse
import HornLogic.Conjunction.Cursor

/-!
# Reading a clause in place

The reading of a clause whose conjunction is read by positions.
-/
namespace HornLogic

set_option autoImplicit false

open Text

def Clause.readInPlace (line : String) : Conjunction.Reading Clause :=
  if allBlank line.toList then throw .blankClause
  else
    match soleArrow line.toList with
    | none => throw (.arrowCount line)
    | some (left, right) => do
      let premise ← Conjunction.readInPlace (trim left)
      let conclusion ← liftExcept (Atom.ofSymbol (String.ofList (trim right)))
      return .ofList premise conclusion

end HornLogic
