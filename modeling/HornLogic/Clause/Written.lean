import HornLogic.Clause
import HornLogic.Clause.Grammar

/-!
# Written clauses

The line that a clause is written on, and the clauses that have one (`Clause.Expressible`). A symbol of the
premise stands between separators, while the conclusion has the whole rest of the line to itself, so more
symbols can be written there: also some with blanks, separators or parentheses.
-/
namespace HornLogic

set_option autoImplicit false

open Text

/-- The symbol that stands for an atom on a line. -/
def Atom.write : Atom → String
  | .verum => "1"
  | .falsum => "0"
  | .named symbol => symbol

def Conjunction.write (atoms : List Atom) : String :=
  " & ".intercalate (atoms.map Atom.write)

/-- The line of a clause, with the atoms of its premise in the order given. -/
def Clause.write (premise : List Atom) (conclusion : Atom) : String :=
  Conjunction.write premise ++ " -> " ++ conclusion.write

/-- What a symbol must be wherever it stands on a line. -/
structure Atom.IsWritable (symbol : String) : Prop where
  present : symbol ≠ ""
  notFalsum : symbol ≠ "0"
  notVerum : symbol ≠ "1"
  noArrow : ¬ HasArrow symbol.toList

structure Atom.IsWritablePremise (symbol : String) : Prop extends Atom.IsWritable symbol where
  solid : ∀ character ∈ symbol.toList, isBlank character = false ∧ character ≠ '&'
  begins : ∀ first ∈ symbol.toList.head?, first ≠ '(' ∧ first ≠ ')'

structure Atom.IsWritableConclusion (symbol : String) : Prop extends Atom.IsWritable symbol where
  trimmed : trim symbol.toList = symbol.toList

structure Clause.Expressible (clause : Clause) : Prop where
  premise : ∀ symbol, .named symbol ∈ clause.premise → Atom.IsWritablePremise symbol
  conclusion : ∀ symbol, clause.conclusion = .named symbol → Atom.IsWritableConclusion symbol

end HornLogic
