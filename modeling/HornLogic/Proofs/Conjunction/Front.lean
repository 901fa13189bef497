import HornLogic.Proofs.Clause.Priority

/-!
# Scopes by their first character

What is read from a scope is settled by its first character: a blank is skipped, and any other one tells what
the scope begins with or that it has a fault. The atoms of a scope are those of what it begins with and of what
comes behind the next separator (`Scope.atoms_eq`).
-/
namespace HornLogic.Conjunction

set_option autoImplicit false

open Text

/-- A fault of the text as an error. -/
def placed (text : List Char) (fault : PlacedFault) : ParseError :=
  .conjunction fault.fault fault.position (String.ofList text)

def atomOf (symbol : List Char) : Except ParseError Atom :=
  Atom.ofSymbol (String.ofList symbol)

namespace Scope

/-- The atoms of a scope in the text. -/
def atoms (text : List Char) (scope : Scope) : Except ParseError (List Atom) := do
  let symbols ← scope.symbols.mapError (placed text)
  symbols.mapM atomOf

/-- Each symbol that is read stands for an atom, so no error of a symbol comes before one of a fault. -/
theorem atoms_eq (text : List Char) (scope : Scope) :
    scope.atoms text =
      match scope.opening with
      | .error fault => .error (placed text fault)
      | .ok .nothing => .ok []
      | .ok (.symbol characters after) => do
        let atom ← atomOf characters
        let next ← after.skipSeparator.mapError (placed text)
        let others ← next.atoms text
        return atom :: others
      | .ok (.group inside after) => do
        let inner ← inside.atoms text
        let next ← after.skipSeparator.mapError (placed text)
        let others ← next.atoms text
        return inner ++ others := by
  rw [atoms, symbols_eq]
  cases opens : scope.opening with
  | error fault => rfl
  | ok opening =>
      cases opening with
      | nothing => rfl
      | symbol characters after =>
          obtain ⟨-, atom, named⟩ := symbol_of_opening opens
          rw [← atomOf] at named
          dsimp only
          rw [named]
          cases after.skipSeparator with
          | error fault => rfl
          | ok next =>
              change _ = next.atoms text >>= fun others => pure (atom :: others)
              dsimp only
              rw [atoms]
              cases next.symbols with
              | error fault => rfl
              | ok symbols => exact mapM_cons_of_ok named symbols
      | group inside after =>
          dsimp only
          cases content : inside.symbols with
          | error fault => rw [atoms, content]; rfl
          | ok symbols =>
              obtain ⟨premise, named⟩ := ((symbols_eq_ok_iff_derives inside).mp content).exists_premise
              have inner : inside.atoms text = .ok premise := by
                rw [atoms, content]
                exact named
              rw [inner]
              cases after.skipSeparator with
              | error fault => rfl
              | ok next =>
                  change _ = next.atoms text >>= fun others => pure (premise ++ others)
                  dsimp only
                  rw [atoms]
                  cases next.symbols with
                  | error fault => rfl
                  | ok later => exact mapM_append_of_ok named later

theorem skipBlank_of_stops {scope : Scope} (stops : Stops isBlank scope.text) : scope.skipBlank = scope :=
  @skipBlank_eq scope scope [] rfl ⟨rfl, rfl⟩ stops

/-- A scope that begins with a blank is read from behind the blank. -/
theorem skipBlank_cons {first : Char} (blank : isBlank first = true) (position : Nat) (rest : List Char) :
    (⟨position, first :: rest⟩ : Scope).skipBlank = (⟨position + first.utf8Size, rest⟩ : Scope).skipBlank := by
  simp [skipBlank, dropBlank, blank, Utf8.size_cons, Nat.add_assoc]

theorem skipSeparator_cons {first : Char} (blank : isBlank first = true) (position : Nat) (rest : List Char) :
    (⟨position, first :: rest⟩ : Scope).skipSeparator = (⟨position + first.utf8Size, rest⟩ : Scope).skipSeparator := by
  rw [skipSeparator, skipSeparator, skipBlank_cons blank]

theorem opening_mark {first : Char} (mark : first = separator ∨ first = closer) (position : Nat)
    (rest : List Char) :
    (⟨position, first :: rest⟩ : Scope).opening = .error ⟨.unexpected first, position⟩ := by
  have solid : isBlank first = false := by rcases mark with rfl | rfl <;> decide
  rw [opening, skipBlank_of_stops (stops_cons_iff.mpr solid)]
  dsimp only
  rw [if_pos mark]

theorem opening_opener (position : Nat) (rest : List Char) :
    (⟨position, opener :: rest⟩ : Scope).opening =
      match splitClose 0 rest with
      | none => .error ⟨.unclosed, position⟩
      | some (inside, after) =>
        .ok (.group ⟨position + 1, inside⟩ ⟨position + 1 + Utf8.size inside + 1, after⟩) := by
  rw [opening, skipBlank_of_stops (stops_blank_of_inSymbol inSymbol_opener)]
  rfl

theorem opening_other {first : Char} (solid : isBlank first = false)
    (noMark : ¬ (first = separator ∨ first = closer)) (noOpener : first ≠ opener) (position : Nat)
    (rest : List Char) :
    (⟨position, first :: rest⟩ : Scope).opening =
      .ok (.symbol ((first :: rest).takeWhile inSymbol)
        ⟨position + Utf8.size ((first :: rest).takeWhile inSymbol), (first :: rest).dropWhile inSymbol⟩) := by
  rw [opening, skipBlank_of_stops (stops_cons_iff.mpr solid)]
  dsimp only
  rw [if_neg noMark, if_neg noOpener]

theorem skipSeparator_separator (position : Nat) (rest : List Char) :
    (⟨position, separator :: rest⟩ : Scope).skipSeparator =
      if rest.any fun later => later != separator && later != closer && !isBlank later then
        .ok ⟨position + 1, rest⟩
      else .error ⟨.missingConjunct, position⟩ := by
  have start : (⟨position, separator :: rest⟩ : Scope).skipBlank = ⟨position, separator :: rest⟩ :=
    skipBlank_of_stops (stops_cons_iff.mpr (by decide))
  have idle : (rest.all fun later => later == separator || later == closer || isBlank later) =
      !rest.any fun later => later != separator && later != closer && !isBlank later := by
    simp [List.not_any_eq_all_not, bne]
  rw [skipSeparator, start]
  dsimp only
  rw [if_neg (fun differs => differs rfl), idle]
  cases rest.any fun later => later != separator && later != closer && !isBlank later <;> rfl

theorem skipSeparator_other {first : Char} (solid : isBlank first = false) (differs : first ≠ separator)
    (position : Nat) (rest : List Char) :
    (⟨position, first :: rest⟩ : Scope).skipSeparator = .error ⟨.missingSeparator, position⟩ := by
  have start : (⟨position, first :: rest⟩ : Scope).skipBlank = ⟨position, first :: rest⟩ :=
    skipBlank_of_stops (stops_cons_iff.mpr solid)
  rw [skipSeparator, start]
  dsimp only
  rw [if_pos differs]

theorem atoms_cons {first : Char} (blank : isBlank first = true) (text : List Char) (position : Nat)
    (rest : List Char) :
    (⟨position, first :: rest⟩ : Scope).atoms text = (⟨position + first.utf8Size, rest⟩ : Scope).atoms text := by
  rw [atoms_eq, atoms_eq, opening, opening, skipBlank_cons blank]

end Scope

end HornLogic.Conjunction
