import HornLogic.CommandLine.Options
import HornLogic.CommandLine.Path
import HornLogic.Formula.Reader
import HornLogic.Formula.Solve

/-!
# A run of the command line

A run reads a formula, decides it and writes the verdict. It opens what it writes to only when the whole formula is
read and decided, so a run that fails to read leaves no trace but its complaint. What a run needs of its surroundings
is a `Host`, in whatever monad they are.
-/
namespace HornLogic.CommandLine

set_option autoImplicit false

/-- What a run can do to its surroundings, with what it gets to read and to write by. -/
structure Host (Reader Writer : Type) (m : Type → Type) where
  openFile : String → m (Except FileError Reader)
  /-- All that there is to read. -/
  drain : Reader → m Source
  /-- The standard input, with the error that it fails with if it does. -/
  standardInput : m (Source × FileError)
  /-- Makes or empties a file to write to, or takes the standard output if none is given. -/
  create : Option String → m (Except FileError Writer)
  write : Writer → String → m (Except FileError Unit)
  complain : String → m Unit

inductive Exit where
  | done
  | failed
  | misused
  | satisfiable
  | unsatisfiable
  deriving DecidableEq

def Exit.code : Exit → Nat
  | .done => 0
  | .failed => 1
  | .misused => 2
  | .satisfiable => 10
  | .unsatisfiable => 20

inductive Failure where
  | unopened (error : FileError)
  /-- Files with this extension are compressed. -/
  | compressed (extension : String)
  | input (error : InputError)
  /-- A line of the standard input is no text. -/
  | undecodable
  | standardInput (error : FileError)
  | unwritten (error : FileError)
  deriving DecidableEq

namespace Failure

def message : Failure → String
  | .unopened error => s!"Failed to open the input file: {error.message}"
  | .compressed extension =>
    s!"Unsupported extension \"{extension}\", try enabling the '{extension}' feature"
  | .input error => s!"Given formula is not a valid Horn formula: {error.message}"
  | .undecodable => "Error reading the formula: stream did not contain valid UTF-8"
  | .standardInput error => s!"Error reading the formula: {error.message}"
  | .unwritten error => s!"Error writing SAT result: {error.message}"

def complaint (failure : Failure) : String :=
  failure.message ++ "\n"

/-- Why a standard input cannot be read that has an unreadable line, where `error` is what it fails with if it
fails. -/
def ofStandardInput (source : Source) (error : FileError) : Failure :=
  if source.fails && source.lines.dropLast.all Option.isSome then .standardInput error else .undecodable

end Failure

def compressedExtension : String := "xz"

def sourceFormula (source : Source) : Except Failure Formula :=
  match Formula.read source with
  | .error error => .error (.input error)
  | .ok (formula, _) => .ok formula

/-- Adds the clauses of some lines to a formula and passes over the lines that are none, whose
errors are listed. There is no formula if a line is not readable. -/
def gather (formula : Formula) : List (Option String) → List ParseError × Option Formula
  | [] => ([], some formula)
  | none :: _ => ([], none)
  | some line :: rest =>
    match Clause.parse (String.ofList (Text.trim line.toList)) with
    | .error error =>
      let (errors, result) := gather formula rest
      (error :: errors, result)
    | .ok clause => gather (formula.insert clause) rest

def skippedLine (error : ParseError) : String :=
  s!"Not a valid Horn clause: {error.message}\n"

def verdictText (solution : Solution) : String :=
  match solution with
  | .unsatisfiable =>
    s!"Verdict: {solution.verdict.render}\n" ++
      "There exists no configuration that satisfies the given Horn Formula.\n"
  | .satisfiable model => s!"Verdict: {solution.verdict.render}\ne.g. ({model.render})\n"

def verdictExit : Verdict → Exit
  | .satisfiable => .satisfiable
  | .unsatisfiable => .unsatisfiable

def versionText : String := "horn_cli 0.1.0\n"

def helpText : String :=
  "Determines whether a Horn formula is satisfiable, and writes a satisfying assignment if so.\n\n" ++
  "Usage: horn_cli [OPTIONS]\n\nOptions:\n" ++
  "  -i, --input <INPUT_FILE>    A file with one clause per line, in place of standard input\n" ++
  "  -o, --output <OUTPUT_FILE>  A file for the verdict, in place of standard output\n" ++
  "  -q, --quiet                 Write nothing but the verdict\n" ++
  "  -h, --help                  Print help\n" ++
  "  -V, --version               Print version\n"

section Runs

variable {Reader Writer : Type} {m : Type → Type} [Monad m]

def readFormula (host : Host Reader Writer m) (options : Options) : m (Except Failure Formula) := do
  match options.input with
  | some path =>
    match ← host.openFile path with
    | .error error => return .error (.unopened error)
    | .ok reader =>
      if (Path.split path).extension? = some compressedExtension then
        return .error (.compressed compressedExtension)
      else return sourceFormula (← host.drain reader)
  | none =>
    let (source, error) ← host.standardInput
    let (errors, formula) := gather .empty source.lines
    host.complain (String.join (errors.map skippedLine))
    return formula.elim (.error (.ofStandardInput source error)) .ok

def fail (host : Host Reader Writer m) (failure : Failure) : m Exit := do
  host.complain failure.complaint
  return .failed

def answer (host : Host Reader Writer m) (options : Options) : m Exit := do
  match ← readFormula host options with
  | .error failure => fail host failure
  | .ok formula =>
    let solution := formula.solve
    match ← host.create options.output with
    | .error error => fail host (.unwritten error)
    | .ok writer =>
      match ← host.write writer (verdictText solution) with
      | .error error => fail host (.unwritten error)
      | .ok () => return verdictExit solution.verdict

/-- Tells something on the standard output, if that takes it. -/
def tell (host : Host Reader Writer m) (text : String) : m Exit := do
  if let .ok writer ← host.create none then
    let _ ← host.write writer text
  return .done

def run (host : Host Reader Writer m) (arguments : List String) : m Exit := do
  match Options.ofArguments arguments with
  | .ok options => answer host options
  | .error .version => tell host versionText
  | .error .help => tell host helpText
  | .error (.usage error) =>
    host.complain (error.message ++ "\n")
    return .misused

end Runs

end HornLogic.CommandLine
