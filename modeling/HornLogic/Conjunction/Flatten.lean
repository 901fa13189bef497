import HornLogic.Conjunction.Grammar

/-!
# Conjunctions without parentheses

Parentheses group conjuncts for the reader's eye only, so they can be dropped from a text. This leaves a
conjunction if each parenthesis groups something: it must not be part of a symbol (`Plain`), nor one of a pair
around nothing (`Filled`), which would leave no conjunct between two separators.
-/
namespace HornLogic.Conjunction

set_option autoImplicit false

open Text

/-- The text without its parentheses. -/
def flatten (text : List Char) : List Char :=
  text.filter fun character => character != opener && character != closer

/-- None of the symbols holds a parenthesis. -/
def Plain (symbols : List (List Char)) : Prop :=
  ∀ symbol ∈ symbols, opener ∉ symbol ∧ closer ∉ symbol

instance (symbols : List (List Char)) : Decidable (Plain symbols) :=
  inferInstanceAs (Decidable (∀ symbol ∈ symbols, opener ∉ symbol ∧ closer ∉ symbol))

/-- Something that is not blank stands between the parentheses of every pair. -/
def Filled (text : List Char) : Prop :=
  ∀ inside, opener :: inside ++ [closer] <:+: text → allBlank inside = false

theorem flatten_append (left right : List Char) : flatten (left ++ right) = flatten left ++ flatten right :=
  List.filter_append left right

theorem flatten_of_plain {text : List Char} (noOpener : opener ∉ text) (noCloser : closer ∉ text) :
    flatten text = text := by
  rw [flatten, List.filter_eq_self]
  intro character member
  simp only [Bool.and_eq_true, bne_iff_ne]
  exact ⟨fun same => noOpener (same ▸ member), fun same => noCloser (same ▸ member)⟩

theorem flatten_group (inside : List Char) : flatten (opener :: inside ++ [closer]) = flatten inside := by
  rw [flatten_append]
  exact List.append_nil _

theorem Plain.of_append {symbols later : List (List Char)} (plain : Plain (symbols ++ later)) :
    Plain symbols ∧ Plain later :=
  List.forall_mem_append.mp plain

theorem Filled.of_part {part text : List Char} (filled : Filled text) (within : part <:+: text) : Filled part :=
  fun inside pair => filled inside (pair.trans within)

end HornLogic.Conjunction
