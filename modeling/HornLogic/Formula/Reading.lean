import HornLogic.Formula.Reader
import HornLogic.Text.Rows

/-!
# What reading comes to

Here the rows of a source are looked at one by one: a row is not readable, or it is no clause, or it is one
(`Source.clauseOn`). How the reading of the whole source ends follows from the first row that gives no
clause, if there is one (`Formula.ReadsTo`). Readings that follow each other add up their counts, and the
later one numbers its lines from where the earlier one ended.
-/
namespace HornLogic

set_option autoImplicit false

open Text

/-- Why a line gives no clause. -/
inductive LineFault where
  | unreadable
  | malformed (error : ParseError)
  deriving DecidableEq

/-- The error for a line that comes after some others. -/
def LineFault.report (linesBefore : Nat) : LineFault → InputError
  | .unreadable => .source linesBefore
  | .malformed error => .line (linesBefore + 1) error

def clauseOfLine : Option String → Except LineFault Clause
  | none => .error .unreadable
  | some line => (Clause.parse line).mapError .malformed

def endsLine (character : Char) : Bool :=
  character == '\n' || character == '\r'

namespace Source

/-- The lines with the line feeds that end them. The last may have none. -/
def rows (source : Source) : List (List UInt8) :=
  Text.rows (· == lineFeed) source.bytes

/-- The text of a row without what ends it. A row that the source fails to end has none. -/
def rowText (source : Source) (row : List UInt8) : Option String :=
  if source.fails && !row.contains lineFeed then none
  else (Utf8.decode? row).map fun text => String.ofList (dropTrailing endsLine text.toList)

def clauseOn (source : Source) (row : List UInt8) : Except LineFault Clause :=
  clauseOfLine (source.rowText row)

end Source

/-- How reading ends, and with which formula: at the first row that gives no clause, where the source fails
after rows that all give one, or where it ends after such rows. -/
inductive Formula.ReadsTo (formula : Formula) (source : Source) :
    Formula × Except InputError Tally → Prop where
  | stopped {before after : List (List UInt8)} {row : List UInt8} {clauses : List Clause}
      {fault : LineFault} (rows : source.rows = before ++ row :: after)
      (read : before.mapM source.clauseOn = .ok clauses)
      (fails : source.clauseOn row = .error fault) :
      ReadsTo formula source (formula.extend clauses, .error (fault.report before.length))
  | failed {clauses : List Clause} (read : source.rows.mapM source.clauseOn = .ok clauses)
      (fails : source.fails = true) :
      ReadsTo formula source (formula.extend clauses, .error (.source source.rows.length))
  | ended {clauses : List Clause} {tally : Tally}
      (read : source.rows.mapM source.clauseOn = .ok clauses) (ends : source.fails = false)
      (lines : tally.lines = source.rows.length)
      (growth : (formula.extend clauses).size = formula.size + tally.added)
      (balance : tally.added + tally.duplicates = source.rows.length) :
      ReadsTo formula source (formula.extend clauses, .ok tally)

/-- The counts of two readings, the second behind the first. -/
def Tally.add (first second : Tally) : Tally where
  lines := first.lines + second.lines
  added := first.added + second.added
  duplicates := first.duplicates + second.duplicates

/-- The error of a reading as it is where some lines were read before. -/
def InputError.after (linesBefore : Nat) : InputError → InputError
  | .clause error => .clause error
  | .line number error => .line (linesBefore + number) error
  | .source linesRead => .source (linesBefore + linesRead)

end HornLogic
