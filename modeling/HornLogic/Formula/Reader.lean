import HornLogic.Clause.Parse
import HornLogic.Formula
import HornLogic.InputError
import HornLogic.Source

/-!
# Reading formulas

A formula is written with one clause on each line, and a blank line is an error. Lines are read in
order until one is not a clause; the clauses before that one are kept.
-/
namespace HornLogic

set_option autoImplicit false

structure Tally where
  lines : Nat
  added : Nat
  duplicates : Nat
  deriving DecidableEq

namespace Tally

def zero : Tally := ⟨0, 0, 0⟩

/-- Counts a line whose clause was new or not. -/
def count (tally : Tally) (new : Bool) : Tally where
  lines := tally.lines + 1
  added := if new then tally.added + 1 else tally.added
  duplicates := if new then tally.duplicates else tally.duplicates + 1

end Tally

namespace Formula

/-- Adds the clauses of some lines, and goes on counting from `tally`. -/
def readLines (formula : Formula) (tally : Tally) :
    List (Option String) → Formula × Except InputError Tally
  | [] => (formula, .ok tally)
  | none :: _ => (formula, .error (.source tally.lines))
  | some line :: rest =>
    match Clause.parse line with
    | .error error => (formula, .error (.line (tally.lines + 1) error))
    | .ok clause =>
      let (extended, new) := formula.add clause
      extended.readLines (tally.count new) rest

/-- Adds the clauses of a source. After an error the formula has those of the lines before it. -/
def readInto (formula : Formula) (source : Source) : Formula × Except InputError Tally :=
  formula.readLines .zero source.lines

def read (source : Source) : Except InputError (Formula × Tally) :=
  let (formula, result) := empty.readInto source
  result.map fun tally => (formula, tally)

def ofText (text : String) : Except InputError Formula :=
  (read (.ofText text)).map Prod.fst

end Formula
end HornLogic
