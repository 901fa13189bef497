import HornLogic.CommandLine.Hierarchy
import HornLogic.CommandLine.Machine

/-!
# Worlds

The surroundings of a run as they are seen from the directory it takes place in: the files of that directory and the
standard streams as texts. All else is the standard hierarchy, without further files.
-/
namespace HornLogic.CommandLine

set_option autoImplicit false

abbrev Files := SortedBy (Prod.fst : String × List UInt8 → String)

/-- A directory of files alone. -/
structure Directory where
  location : Location
  files : Files
  deriving DecidableEq

structure World where
  standardInput : Source
  directory : Directory
  output : String
  complaints : String

namespace Directory

def contents (directory : Directory) : Contents :=
  .ofList (directory.files.toList.map fun file => (directory.location ++ [file.1], file.2))

/-- A file by its name, if it is in the directory. -/
def named? (directory : Directory) (file : Location × List UInt8) : Option (String × List UInt8) :=
  if file.1.dropLast = directory.location then file.1.getLast?.map (·, file.2) else none

/-- The directory with those contents that are in it. -/
def holding (directory : Directory) (contents : Contents) : Directory :=
  { directory with files := .ofList (contents.toList.filterMap directory.named?) }

end Directory

namespace World

def machine (world : World) : Machine where
  system := .standard world.directory.location
  working := world.directory.location
  contents := world.directory.contents
  standardInput := world.standardInput
  output := Text.Utf8.encode world.output
  complaints := Text.Utf8.encode world.complaints

/-- What can be seen of a machine from the directory of the world. -/
def seeing (world : World) (machine : Machine) : World where
  standardInput := machine.standardInput
  directory := world.directory.holding machine.contents
  output := (Text.Utf8.decode? machine.output).getD world.output
  complaints := (Text.Utf8.decode? machine.complaints).getD world.complaints

end World

/-- The exit of a run in a world, and the world after it. A run that does not end is broken off. -/
def runIn (world : World) (arguments : List String) : Exit × World :=
  match runOn world.machine arguments with
  | some (exit, machine) => (exit, world.seeing machine)
  | none => (.failed, world)

end HornLogic.CommandLine
