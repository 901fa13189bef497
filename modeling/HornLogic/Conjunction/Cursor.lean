import HornLogic.Conjunction
import HornLogic.Text.Window

/-!
# Reading a conjunction in place

Here a conjunction is not cut into scopes: a cursor moves through its text, and each part of the reader is
given positions there. Nothing says that these are in the text, at characters and in order. Where they are
not, there is nothing to be read, and the reading has no result at all, nor has it one when it goes on for more
passes than allowed. What the reader does with positions it notes (`Event`), and `Event.Sound` is what should
be true of that.
-/
namespace HornLogic.Conjunction

set_option autoImplicit false

open Text

inductive Event where
  /-- A part of the reader is given the positions of a window. -/
  | call (window : Window)
  /-- The cursor is moved in a scope. -/
  | pass (scope : Window) (index next : Nat)
  /-- A scope is read as part of another one. -/
  | nested (scope inner : Window)

def Event.Sound : Event → Prop
  | .call window => window.Within
  | .pass scope index next => index < next ∧ next ≤ scope.finish
  | .nested scope inner =>
    inner.text = scope.text ∧ scope.start ≤ inner.start ∧ inner.finish ≤ scope.finish ∧
      inner.finish - inner.start < scope.finish - scope.start

abbrev Reading (Result : Type) := ExceptT ParseError (StateT (List Event) Option) Result

def note (event : Event) : Reading Unit :=
  modify fun events => events ++ [event]

def slice (window : Window) : Reading (List Char) :=
  liftM window.characters?

def misplaced {Result : Type} (text : List Char) (fault : Fault) (position : Nat) : Reading Result :=
  throw (.conjunction fault position (String.ofList text))

/-- The character at the index, if it is not the end of the text. -/
def charAt (text : List Char) (index : Nat) : Reading (Option Char) := do
  let behind : Window := ⟨text, index, Utf8.size text⟩
  note (.call behind)
  let characters ← slice behind
  return characters.head?

/-- The position of the closing parenthesis that leaves `depth` open ones matched. -/
def closeAmong : Nat → List (Nat × Char) → Option Nat
  | _, [] => none
  | depth, (index, character) :: later =>
    if character = opener then closeAmong (depth + 1) later
    else if character = closer then
      match depth with
      | 0 => some index
      | depth + 1 => closeAmong depth later
    else closeAmong depth later

/-- Where the parenthesis is closed that the window begins with. -/
def matchingClose (window : Window) : Reading Nat := do
  note (.call window)
  let start := window.start + opener.utf8Size
  let characters ← slice { window with start }
  match closeAmong 0 (indexed start characters) with
  | some close => return close
  | none => misplaced window.text .unclosed window.start

/-- Where the symbol ends that the window begins with. -/
def symbolEnd (window : Window) : Reading Nat := do
  note (.call window)
  let characters ← slice window
  match (indexed window.start characters).find? fun (_, character) => !inSymbol character with
  | some (index, _) => return index
  | none => return window.finish

def nextAmong (text : List Char) (finish : Nat) : List (Nat × Char) → Reading Nat
  | [] => return finish
  | (index, character) :: later =>
    if character = separator then do
      let following := index + separator.utf8Size
      let characters ← slice ⟨text, following, finish⟩
      if characters.any fun later => later != separator && later != closer && !isBlank later then
        return following
      else misplaced text .missingConjunct index
    else if isBlank character then nextAmong text finish later
    else misplaced text .missingSeparator index

/-- Where to go on after a conjunct. At the end of a scope no separator is needed. -/
def nextConjunct (window : Window) : Reading Nat := do
  note (.call window)
  let characters ← slice window
  nextAmong window.text window.finish (indexed window.start characters)

section Pass

variable (readOn : Window → Nat → Reading (List Atom)) (scope : Window) (index : Nat)

/-- Moves the cursor on from a conjunct to the next one, and adds what is read from there. -/
def goOn (finish : Nat) (atoms : List Atom) : Reading (List Atom) := do
  let next ← nextConjunct { scope with start := finish }
  note (.pass scope index next)
  let others ← readOn scope next
  return atoms ++ others

def readSymbol : Reading (List Atom) := do
  let finish ← symbolEnd { scope with start := index }
  let characters ← slice ⟨scope.text, index, finish⟩
  let atom ← liftExcept (Atom.ofSymbol (String.ofList (trim characters)))
  goOn readOn scope index finish [atom]

def readGroup : Reading (List Atom) := do
  let close ← matchingClose { scope with start := index }
  let inner : Window := ⟨scope.text, index + opener.utf8Size, close⟩
  note (.nested scope inner)
  note (.call inner)
  let atoms ← readOn inner inner.start
  goOn readOn scope index (close + closer.utf8Size) atoms

/-- One pass, with the character at the cursor. -/
def pass (character : Char) : Reading (List Atom) := do
  if isBlank character then
    let next := index + character.utf8Size
    note (.pass scope index next)
    readOn scope next
  else if character = separator ∨ character = closer then
    misplaced scope.text (.unexpected character) index
  else if character = opener then readGroup readOn scope index
  else readSymbol readOn scope index

end Pass

/-- Reads on in a scope from an index. So many passes are allowed, where those that come after a pass and those
inside of it are counted apart. -/
def readFrom : Nat → Window → Nat → Reading (List Atom)
  | 0, _, _ => fun _ => none
  | allowed + 1, scope, index => do
    if index < scope.finish then
      match ← charAt scope.text index with
      | none => return []
      | some character => pass (readFrom allowed) scope index character
    else return []

/-- Reads the whole text. A pass is allowed for each character, and one to find the end. -/
def readInPlace (text : List Char) : Reading (List Atom) := do
  let scope : Window := ⟨text, 0, Utf8.size text⟩
  note (.call scope)
  readFrom (text.length + 1) scope 0

end HornLogic.Conjunction
