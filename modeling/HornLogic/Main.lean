import HornLogic.CommandLine.Run

/-!
# The program

Runs the command line on the files and streams of the process.
-/
namespace HornLogic.CommandLine

set_option autoImplicit false

namespace FileError

def ofError : IO.Error → FileError
  | .noFileOrDirectory .. => .notFound
  | .inappropriateType _ number text | .permissionDenied _ number text
  | .invalidArgument _ number text | .resourceExhausted _ number text
  | .alreadyExists _ number text | .noSuchThing _ number text
  | .interrupted _ number text | .otherError number text | .resourceBusy number text
  | .resourceVanished number text | .unsupportedOperation number text | .hardwareFault number text
  | .unsatisfiedConstraints number text | .illegalOperation number text
  | .protocolError number text | .timeExpired number text => ⟨text, number.toNat⟩
  | .unexpectedEof => ⟨"unexpected end of file", 0⟩
  | .userError text => ⟨text, 0⟩

end FileError

namespace Shell

def attempt {α : Type} (action : IO α) : IO (Except FileError α) := do
  return (← action.toBaseIO).mapError .ofError

/-- What a stream gives, with the error that it fails with if it does. -/
partial def readOn (stream : IO.FS.Stream) (sofar : ByteArray) : IO (Source × FileError) := do
  match ← (stream.read 65536).toBaseIO with
  | .error error => return (⟨sofar.data.toList, true⟩, .ofError error)
  | .ok bytes =>
    if bytes.isEmpty then return (.ofBytes sofar.data.toList, .ofError .unexpectedEof)
    else readOn stream (sofar ++ bytes)

def host : Host IO.FS.Stream IO.FS.Stream IO where
  openFile path := attempt do return .ofHandle (← IO.FS.Handle.mk path .read)
  drain stream := return (← readOn stream .empty).1
  standardInput := do readOn (← IO.getStdin) .empty
  create path := attempt do
    match path with
    | some path => return .ofHandle (← IO.FS.Handle.mk path .write)
    | none => IO.getStdout
  write stream text := attempt do
    stream.putStr text
    stream.flush
  complain text := do (← IO.getStderr).putStr text

end Shell
end HornLogic.CommandLine

def main (arguments : List String) : IO UInt32 := do
  return (← HornLogic.CommandLine.run HornLogic.CommandLine.Shell.host arguments).code.toUInt32
