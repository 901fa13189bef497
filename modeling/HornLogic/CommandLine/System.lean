import HornLogic.CommandLine.FileError
import HornLogic.Source

/-!
# Systems

What a run finds around it besides the contents of files: where the names in a directory lead, which files can
be read and written, and how much room there is for what is written. Systems differ in all of this, so a system is
whatever says it.
-/
namespace HornLogic.CommandLine

set_option autoImplicit false

/-- The names that lead to a place from the root. -/
abbrev Location := List String

/-- What is given by a file or a device that has been opened to be read. -/
inductive Supply where
  | standardInput
  | source (source : Source)
  /-- It never ends, and nothing in it ends its reading. -/
  | endless

/-- Where what is written comes to. -/
inductive Destination where
  | output
  | complaints
  | file (location : Location)
  /-- A device, which keeps nothing. -/
  | device (location : Location)
  deriving DecidableEq

/-- What opening a device comes to. -/
structure Device where
  toRead : Except FileError Supply
  toWrite : Except FileError Destination

inductive Place where
  | directory (location : Location)
  /-- A file, or where one can be made. -/
  | file (location : Location)
  | device (device : Device)

/-- How many bytes are taken of what a run writes, and the error for those that are not. -/
structure Limit where
  size : Nat
  error : FileError

structure System where
  /-- Where a name leads in a directory. Several names may lead to one place. -/
  entry : Location → String → Except FileError Place
  unreadable? : Location → Option FileError
  unwritable? : Location → Option FileError
  limit? : Destination → Option Limit
  /-- What a standard input fails with that does not end. -/
  inputError : FileError

end HornLogic.CommandLine
