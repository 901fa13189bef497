/-!
# File errors

The errors that opening and writing files can end in, with the numbers that the system gives them.
-/
namespace HornLogic.CommandLine

set_option autoImplicit false

structure FileError where
  text : String
  number : Nat
  deriving DecidableEq

namespace FileError

def notFound : FileError := ⟨"No such file or directory", 2⟩

def noDevice : FileError := ⟨"No such device or address", 6⟩

def permissionDenied : FileError := ⟨"Permission denied", 13⟩

def notDirectory : FileError := ⟨"Not a directory", 20⟩

def isDirectory : FileError := ⟨"Is a directory", 21⟩

def noSpace : FileError := ⟨"No space left on device", 28⟩

def nameTooLong : FileError := ⟨"File name too long", 36⟩

def message (error : FileError) : String :=
  s!"{error.text} (os error {error.number})"

end FileError
end HornLogic.CommandLine
