import HornLogic.CommandLine.Run
import HornLogic.CommandLine.System
import HornLogic.SortedBy
import HornLogic.Text.Utf8

/-!
# Machines

A machine is a system with the contents of its files and the standard streams of a run, and its actions are functions
(`Machine.host`). So a run is a function as well (`runOn`), one without a result where the run does not end. The
streams are none of the files, and what is complained is always taken.

A path is followed name by name (`Machine.follow`), and every name but the last must be a directory's; the last need
not be anything, since a file can be made there. To make a file or to empty it is one step, and to write to it is
another (`Machine.clear`, `Machine.put`): where there is no room for a text, its file is left with the front of it
that there is room for.
-/
namespace HornLogic.CommandLine

set_option autoImplicit false

abbrev Contents := SortedBy (Prod.fst : Location × List UInt8 → Location)

structure Machine where
  system : System
  /-- The directory that the run takes place in. -/
  working : Location
  contents : Contents
  standardInput : Source
  output : List UInt8
  complaints : List UInt8

/-- A result, unless there is an error in its place. -/
def guarded {Result : Type} (error? : Option FileError) (result : Result) : Except FileError Result :=
  error?.elim (.ok result) .error

namespace Machine

/-! ## Files and paths -/

def file? (machine : Machine) (location : Location) : Option (List UInt8) :=
  (machine.contents.find? location).map Prod.snd

/-- The machine with a file made, or the content of one replaced. -/
def store (machine : Machine) (location : Location) (content : List UInt8) : Machine :=
  { machine with contents := machine.contents.insert (location, content) }

/-- The directory to go on from. -/
def enter (machine : Machine) : Place → Except FileError Location
  | .directory location => .ok location
  | .file location => .error (if (machine.file? location).isSome then .notDirectory else .notFound)
  | .device _ => .error .notDirectory

/-- The place that one name leads to. The root is the directory above itself. -/
def step (machine : Machine) (location : Location) (name : String) : Except FileError Place :=
  if name = here then .ok (.directory location)
  else if name = above then .ok (.directory location.dropLast)
  else machine.system.entry location name

/-- Follows names from a place on. -/
def follow (machine : Machine) (place : Place) (names : List String) : Except FileError Place :=
  names.foldlM (fun current name => do machine.step (← machine.enter current) name) place

def start (machine : Machine) (path : Path) : Place :=
  .directory (if path.absolute then [] else machine.working)

/-- A directory can be opened, but reading it fails at once. -/
def openFile (machine : Machine) (text : String) : Except FileError Supply := do
  let path ← Path.ofText text
  match ← machine.follow (machine.start path) path.stepsToRead with
  | .directory location => guarded (machine.system.unreadable? location) (.source ⟨[], true⟩)
  | .device device => device.toRead
  | .file location =>
    match machine.file? location with
    | none => .error .notFound
    | some content => guarded (machine.system.unreadable? location) (.source (.ofBytes content))

/-- All that a supply gives, if it comes to an end. -/
def drain? (machine : Machine) : Supply → Option Source
  | .standardInput => some machine.standardInput
  | .source source => some source
  | .endless => none

/-- Where a text goes that is written to a path or, without one, to the standard output. -/
def destination (machine : Machine) : Option String → Except FileError Destination
  | none => .ok .output
  | some text => do
    let path ← Path.ofText text
    match ← machine.follow (machine.start path) path.stepsToWrite with
    | .directory _ => .error .isDirectory
    | .device device => device.toWrite
    | .file location => guarded (machine.system.unwritable? location) (.file location)

/-! ## Writing -/

def complain (machine : Machine) (text : String) : Machine :=
  { machine with complaints := machine.complaints ++ Text.Utf8.encode text }

/-- The machine once a destination is opened: a file is made there, or it is emptied. -/
def clear (machine : Machine) : Destination → Machine
  | .file location => machine.store location []
  | .output | .complaints | .device _ => machine

/-- The machine once bytes have come to a destination that is open. -/
def put (machine : Machine) (bytes : List UInt8) : Destination → Machine
  | .output => { machine with output := machine.output ++ bytes }
  | .complaints => { machine with complaints := machine.complaints ++ bytes }
  | .file location => machine.store location ((machine.file? location).getD [] ++ bytes)
  | .device _ => machine

def limit? (machine : Machine) : Destination → Option Limit
  | .complaints => none
  | destination => machine.system.limit? destination

/-- The bytes of a text that there is room for. -/
def taken (machine : Machine) (text : String) (destination : Destination) : List UInt8 :=
  let bytes := Text.Utf8.encode text
  (machine.limit? destination).elim bytes fun limit => bytes.take limit.size

/-- The error that writing a text ends in, if there is no room for all of it. -/
def refusal? (machine : Machine) (text : String) (destination : Destination) : Option FileError :=
  (machine.limit? destination).bind fun limit =>
    if limit.size < (Text.Utf8.encode text).length then some limit.error else none

def host : Host Supply Destination (StateT Machine Option) where
  openFile path machine := some (machine.openFile path, machine)
  drain supply machine := (machine.drain? supply).map fun source => (source, machine)
  standardInput machine := some ((machine.standardInput, machine.system.inputError), machine)
  create path machine :=
    match machine.destination path with
    | .error error => some (.error error, machine)
    | .ok destination => some (.ok destination, machine.clear destination)
  write destination text machine :=
    some (guarded (machine.refusal? text destination) (),
      machine.put (machine.taken text destination) destination)
  complain text machine := some ((), machine.complain text)

end Machine

/-- The exit of a run on a machine and the machine after it, if the run ends. -/
def runOn (machine : Machine) (arguments : List String) : Option (Exit × Machine) :=
  run Machine.host arguments machine

end HornLogic.CommandLine
