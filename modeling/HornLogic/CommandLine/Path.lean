import HornLogic.CommandLine.FileError
import HornLogic.Text.Lines

/-!
# Paths

A path is a row of names with slashes between them, of which several in a row count as one. A slash
in front lets the path begin in the root, and a slash at the end says that it leads to a directory.
A name that is a single or a double point is a step as well: to stay, or to go up.
-/
namespace HornLogic.CommandLine

set_option autoImplicit false

structure Path where
  absolute : Bool
  /-- The names between the slashes, none of them empty. -/
  names : List String
  slashed : Bool
  deriving DecidableEq

def here : String := "."

def above : String := ".."

/-- What follows the last point of a file's name, unless that point is its first character. -/
def fileExtension? (name : String) : Option String :=
  let reversed := name.toList.reverse
  match reversed.dropWhile (· != '.') with
  | _ :: _ :: _ => some (String.ofList (reversed.takeWhile (· != '.')).reverse)
  | _ => none

namespace Path

/-- How many bytes a path can take. -/
def sizeLimit : Nat := 4095

def split (text : String) : Path where
  absolute := text.toList.head? = some '/'
  names :=
    ((Text.cut (· == '/') text.toList).lines.filter fun name => !name.isEmpty).map String.ofList
  slashed := text.toList.getLast? = some '/'

/-- The path that a text gives, which must not be empty or too long. -/
def ofText (text : String) : Except FileError Path :=
  if text.isEmpty then .error .notFound
  else if sizeLimit < text.utf8ByteSize then .error .nameTooLong
  else .ok (split text)

/-- The steps to what is read, where a slash at the end asks for a directory. -/
def stepsToRead (path : Path) : List String :=
  if path.slashed then path.names ++ [here] else path.names

/-- The steps to what is written, where the name before a slash at the end is not looked up: nothing
can be written there. -/
def stepsToWrite (path : Path) : List String :=
  if path.slashed then path.names.dropLast ++ [here] else path.names

/-- The extension of the last name that leads further. -/
def extension? (path : Path) : Option String :=
  (path.names.filter (· ≠ here)).getLast?.bind fun name =>
    if name = above then none else fileExtension? name

end Path
end HornLogic.CommandLine
