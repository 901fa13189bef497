import HornLogic.CommandLine.System

/-!
# The standard hierarchy

A system as it is commonly found around the directory that a run takes place in: directories with known names, links
to directories, and devices. Each is given by its location. The tables do not hold all that such a system has, only
what can be relied on.
-/
namespace HornLogic.CommandLine

set_option autoImplicit false

namespace Hierarchy

def directories : List Location :=
  [["boot"], ["dev"], ["dev", "pts"], ["dev", "shm"], ["etc"], ["home"], ["media"], ["mnt"],
    ["opt"], ["proc"], ["proc", "self"], ["proc", "self", "fd"], ["root"], ["run"], ["srv"],
    ["sys"], ["tmp"], ["usr"], ["usr", "bin"], ["usr", "lib"], ["usr", "local"], ["usr", "sbin"],
    ["usr", "share"], ["var"], ["var", "cache"], ["var", "lib"], ["var", "log"], ["var", "tmp"]]

/-- The links to directories, one of which leads to where the run takes place. -/
def links (working : Location) : List (Location × Location) :=
  [(["bin"], ["usr", "bin"]), (["lib"], ["usr", "lib"]), (["sbin"], ["usr", "sbin"]),
    (["var", "run"], ["run"]), (["dev", "fd"], ["proc", "self", "fd"]),
    (["proc", "self", "cwd"], working), (["proc", "self", "root"], [])]

/-- A device that gives the same whenever it is read. -/
def plain (location : Location) (supply : Supply) : Location × Device :=
  (location, ⟨.ok supply, .ok (.device location)⟩)

def nullDevice : Location := ["dev", "null"]

def fullDevice : Location := ["dev", "full"]

/-- What is written to the standard input is lost. -/
def standardInput (location : Location) : Location × Device :=
  plain location .standardInput

/-- A standard stream that is written to. A run that reads it waits for what only the run itself could write. -/
def standardStream (location : Location) (destination : Destination) : Location × Device :=
  (location, ⟨.ok .endless, .ok destination⟩)

/-- Bytes that are no text from the first on. -/
def noise : Source :=
  ⟨[0xFF], true⟩

def devices : List (Location × Device) :=
  [plain nullDevice (.source (.ofBytes [])), plain ["dev", "zero"] .endless,
    plain fullDevice .endless, plain ["dev", "random"] (.source noise),
    plain ["dev", "urandom"] (.source noise),
    (["dev", "tty"], ⟨.error .noDevice, .error .noDevice⟩),
    standardInput ["dev", "stdin"], standardInput ["proc", "self", "fd", "0"],
    standardStream ["dev", "stdout"] .output, standardStream ["proc", "self", "fd", "1"] .output,
    standardStream ["dev", "stderr"] .complaints,
    standardStream ["proc", "self", "fd", "2"] .complaints,
    plain ["proc", "self", "comm"] (.source (.ofText "horn_cli\n"))]

/-- How many bytes a name can take. -/
def nameLimit : Nat := 255

def entry (working location : Location) (name : String) : Except FileError Place :=
  let path := location ++ [name]
  if nameLimit < name.utf8ByteSize then .error .nameTooLong
  else if path ∈ directories ∨ path <+: working then .ok (.directory path)
  else
    let known := (((links working).lookup path).map Place.directory).or
      ((devices.lookup path).map Place.device)
    .ok (known.getD (.file path))

/-- Nothing can be made among the files that show the running system. -/
def unwritable? : Location → Option FileError
  | "proc" :: _ => some .notFound
  | "sys" :: _ | "dev" :: "pts" :: _ => some .permissionDenied
  | _ => none

def limit? (destination : Destination) : Option Limit :=
  if destination = .device fullDevice then some ⟨0, .noSpace⟩ else none

end Hierarchy

/-- The standard hierarchy around a directory, with room for everything but on the full device. -/
def System.standard (working : Location) : System where
  entry := Hierarchy.entry working
  unreadable? _ := none
  unwritable? := Hierarchy.unwritable?
  limit? := Hierarchy.limit?
  inputError := .isDirectory

end HornLogic.CommandLine
