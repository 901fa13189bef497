import HornLogic.CommandLine.Machine
import HornLogic.Formula.Reading
import Mathlib.Data.List.Forall2

/-!
# What a run comes to

The input of a run can be read as a formula, cannot be read, or never ends (`Machine.Reads`, `Machine.Unreadable`,
`Machine.Endless`). What a run leaves behind is said by the one destination that something comes to and by what is
complained (`Machine.Leaves`). The standard input is read like a file with all lines left out that give no clause
(`Source.kept`), and each of these is complained of (`Reported`).
-/
namespace HornLogic

set_option autoImplicit false

open Text

namespace Source

/-- The clauses of the rows that give one. -/
def clauses (source : Source) : List Clause :=
  source.rows.filterMap fun row => (source.clauseOn row).toOption

/-- The bytes of the rows that give a clause. -/
def kept (source : Source) : List UInt8 :=
  (source.rows.filter fun row => (source.clauseOn row).isOk).flatten

/-- The rows that give no clause. -/
def refused (source : Source) : List (List UInt8) :=
  source.rows.filter fun row => !(source.clauseOn row).isOk

/-- A row's text gives no clause, without the blanks around it, for a reason. -/
def Refuses (source : Source) (row : List UInt8) (error : ParseError) : Prop :=
  ∃ text, source.rowText row = some text ∧
    Clause.parse (String.ofList (trim text.toList)) = .error error

end Source

namespace CommandLine

/-- A complaint is about a row that gives no clause: it is one line and shows the reason. -/
def ComplaintOn (source : Source) (row : List UInt8) (complaint : String) : Prop :=
  ∃ error message, source.Refuses row error ∧ complaint = skippedLine error ∧
    complaint = message ++ "\n" ∧ SingleLine message

/-- Complaints are about the rows that give no clause, one on each in their order. -/
def Reported (source : Source) (complaints : String) : Prop :=
  ∃ each, List.Forall₂ (ComplaintOn source) source.refused each ∧ complaints = String.join each

namespace Machine

/-- The formula that a run reads, from a file all of whose lines give clauses or from the lines of the
standard input that do. -/
inductive Reads (machine : Machine) : Option String → Formula → Prop where
  | file {path : String} {supply : Supply} {source : Source} {clauses : List Clause}
      (opened : machine.openFile path = .ok supply)
      (plain : (Path.split path).extension? ≠ some compressedExtension)
      (given : machine.drain? supply = some source)
      (read : source.rows.mapM source.clauseOn = .ok clauses) (ends : source.fails = false) :
      Reads machine (some path) (.ofList clauses)
  | standardInput (decoded : ∀ row ∈ machine.standardInput.rows, Utf8.decode? row ≠ none)
      (ends : machine.standardInput.fails = false) :
      Reads machine none (.ofList machine.standardInput.clauses)

/-- What is complained of the lines that give no clause: nothing of a file, as it must not have any. -/
def Reports (machine : Machine) : Option String → String → Prop
  | some _, complaints => complaints = ""
  | none, complaints => Reported machine.standardInput complaints

/-- Bytes have come to a destination, and a text has been complained before them. The streams and all files are
otherwise as they were. -/
structure Leaves (machine after : Machine) (bytes : List UInt8) (destination : Destination)
    (complaint : String) : Prop where
  output : after.output = machine.output ++ if destination = .output then bytes else []
  complaints : after.complaints =
    machine.complaints ++ Utf8.encode complaint ++ if destination = .complaints then bytes else []
  files : ∀ location,
    after.file? location = if destination = .file location then some bytes else machine.file? location

end Machine
end CommandLine
end HornLogic
