import HornLogic.ParseError
import HornLogic.SortedBy
import HornLogic.Text.Blank

/-!
# Atoms

The two truth constants and the atoms that have a name. Verum comes first in the order of atoms,
then falsum, then the named atoms by the code points of their symbols; the order has no logical
meaning and makes every listing of atoms definite.
-/
namespace HornLogic

set_option autoImplicit false

inductive Atom where
  | verum
  | falsum
  | named (symbol : String)
  deriving DecidableEq

instance : Inhabited Atom := ⟨.verum⟩

namespace Atom

def isConstant : Atom → Bool
  | .verum | .falsum => true
  | .named _ => false

/-- The constants have no symbol. -/
def symbol? : Atom → Option String
  | .verum | .falsum => none
  | .named symbol => some symbol

def render : Atom → String
  | .verum => "⊤"
  | .falsum => "⊥"
  | .named symbol => symbol

/-- The atom a symbol stands for, where `0` and `1` are reserved for the constants. Blanks around
other symbols belong to them. -/
def ofSymbol (symbol : String) : Except ParseError Atom :=
  if Text.allBlank symbol.toList then .error .emptySymbol
  else if symbol = "0" then .ok .falsum
  else if symbol = "1" then .ok .verum
  else .ok (.named symbol)

/-- The atom a text stands for when the blanks around it are dropped. -/
def parse (text : String) : Except ParseError Atom :=
  ofSymbol (String.ofList (Text.trim text.toList))

private def rank : Atom → Nat
  | .verum => 0
  | .falsum => 1
  | .named _ => 2

private def label : Atom → String
  | .verum | .falsum => ""
  | .named symbol => symbol

instance : Ord Atom where
  compare := compareLex (compareOn rank) (compareOn label)

instance : Std.TransOrd Atom :=
  inferInstanceAs (Std.TransCmp (compareLex (compareOn rank) (compareOn label)))

theorem eq_of_compare_eq {left right : Atom} (same : compare left right = .eq) : left = right := by
  have parts : compareLex (compareOn rank) (compareOn label) left right = .eq := same
  simp only [compareLex_eq_eq, compareOn, Std.LawfulEqCmp.compare_eq_iff_eq] at parts
  obtain ⟨ranks, labels⟩ := parts
  cases left <;> cases right <;> simp_all [rank, label]

instance : Std.LawfulEqOrd Atom where
  eq_of_compare := eq_of_compare_eq

theorem compare_named (left right : String) :
    compare (named left) (named right) = compare left right := rfl

end Atom

/-- A finite set of atoms, listed in the order of atoms. -/
abbrev AtomSet := SortedBy (id : Atom → Atom)

abbrev Valuation := Atom → Bool

/-- The valuation that makes exactly the atoms of a set true. -/
def AtomSet.valuation (marked : AtomSet) : Valuation :=
  fun atom => marked.contains atom

theorem AtomSet.valuation_eq_true_iff {marked : AtomSet} {atom : Atom} :
    marked.valuation atom = true ↔ atom ∈ marked :=
  SortedBy.contains_eq_true_iff

end HornLogic
