/-!
# Options of the command line

Arguments are taken from left to right, and the first thing that ends the reading decides: a
mistake, or an option that asks for the version or for help. A value may stand in the argument of
its option or be the next argument; only in the first place may it begin with a dash, except for a
dash alone. Short options can share one dash.
-/
namespace HornLogic.CommandLine

set_option autoImplicit false

structure Options where
  /-- The file to read the formula from, in place of the standard input. -/
  input : Option String
  /-- The file to write the verdict to, in place of the standard output. -/
  output : Option String
  quiet : Bool
  deriving DecidableEq

inductive Valued where
  | input
  | output
  deriving DecidableEq

inductive UsageError where
  | unexpectedArgument (argument : String)
  | unexpectedValue (option : String)
  | missingValue (option : Valued)
  | repeated (option : String)
  deriving DecidableEq

/-- Why the reading of arguments ends without options. -/
inductive Halt where
  | version
  | help
  | usage (error : UsageError)
  deriving DecidableEq

def Valued.name : Valued → String
  | .input => "--input"
  | .output => "--output"

def UsageError.message : UsageError → String
  | .unexpectedArgument argument => s!"error: unexpected argument '{argument}' found"
  | .unexpectedValue option => s!"error: option '{option}' takes no value"
  | .missingValue option => s!"error: a value is required for '{option.name}' but none was supplied"
  | .repeated option => s!"error: the argument '{option}' cannot be used multiple times"

structure Reading where
  options : Options
  /-- The option whose value has to be the next argument. -/
  pending : Option Valued
  /-- Whether all further arguments are positional. -/
  positional : Bool

namespace Reading

def start : Reading where
  options := ⟨none, none, false⟩
  pending := none
  positional := false

/-- Gives an option its value, which must not be empty and can be given only once. -/
def setValue (reading : Reading) (option : Valued) (value : String) : Except Halt Reading :=
  if value.isEmpty then .error (.usage (.missingValue option))
  else
    let settled := { reading with pending := none }
    match option with
    | .input =>
      if reading.options.input.isSome then .error (.usage (.repeated option.name))
      else .ok { settled with options.input := some value }
    | .output =>
      if reading.options.output.isSome then .error (.usage (.repeated option.name))
      else .ok { settled with options.output := some value }

def setQuiet (reading : Reading) : Except Halt Reading :=
  if reading.options.quiet then .error (.usage (.repeated "--quiet"))
  else .ok { reading with options.quiet := true }

/-- Takes an option that takes a value, with what follows it in its argument. -/
def takeValued (reading : Reading) (option : Valued) : List Char → Except Halt Reading
  | [] => .ok { reading with pending := some option }
  | '=' :: value | value => reading.setValue option (String.ofList value)

/-- Takes the letters of short options that share an argument. -/
def takeLetters (reading : Reading) : List Char → Except Halt Reading
  | [] => .ok reading
  | 'i' :: rest => reading.takeValued .input rest
  | 'o' :: rest => reading.takeValued .output rest
  | 'q' :: rest => do (← reading.setQuiet).takeLetters rest
  | 'V' :: _ => .error .version
  | 'h' :: _ => .error .help
  | letter :: _ => .error (.usage (.unexpectedArgument (String.ofList ['-', letter])))

/-- Takes a long option, given by its name and by what follows the name. -/
def takeName (reading : Reading) (name : String) (rest : List Char) : Except Halt Reading :=
  let plain (taken : Except Halt Reading) : Except Halt Reading :=
    if rest.isEmpty then taken else .error (.usage (.unexpectedValue ("--" ++ name)))
  match name with
  | "input" => reading.takeValued .input rest
  | "output" => reading.takeValued .output rest
  | "quiet" => plain reading.setQuiet
  | "version" => plain (.error .version)
  | "help" => plain (.error .help)
  | _ => .error (.usage (.unexpectedArgument ("--" ++ name)))

/-- Takes an argument that no option is waiting for. -/
def takeFree (reading : Reading) (argument : String) : Except Halt Reading :=
  match argument.toList with
  | ['-', '-'] => .ok { reading with positional := true }
  | '-' :: '-' :: long =>
    reading.takeName (String.ofList (long.takeWhile (· != '='))) (long.dropWhile (· != '='))
  | '-' :: letter :: rest => reading.takeLetters (letter :: rest)
  | _ => .error (.usage (.unexpectedArgument argument))

def takeArgument (reading : Reading) (argument : String) : Except Halt Reading :=
  match reading.pending with
  | some option =>
    match argument.toList with
    | '-' :: _ :: _ => .error (.usage (.missingValue option))
    | _ => reading.setValue option argument
  | none =>
    if reading.positional then .error (.usage (.unexpectedArgument argument))
    else reading.takeFree argument

/-- The options read, if none is left without its value. -/
def finish (reading : Reading) : Except Halt Options :=
  match reading.pending with
  | some option => .error (.usage (.missingValue option))
  | none => .ok reading.options

end Reading

def Options.ofArguments (arguments : List String) : Except Halt Options := do
  (← arguments.foldlM Reading.takeArgument .start).finish

end HornLogic.CommandLine
