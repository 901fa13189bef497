import HornLogic.Conjunction.Flatten
import HornLogic.Proofs.Clause.Written
import Mathlib.Data.List.Infix

/-!
# Parentheses around conjunctions

A balanced conjunction in parentheses is one of the same symbols (`Derives.parenthesize`). Conversely the
parentheses of a conjunction can all be dropped if its symbols hold none and no pair is left with nothing
between its separators (`Derives.flattened`). No arrow comes about, because an arrow of a conjunction is always
within one of its symbols (`Derives.exists_arrow`).
-/
namespace HornLogic.Conjunction

set_option autoImplicit false

open Text

theorem hasArrow_group_iff {inside : List Char} :
    HasArrow (opener :: inside ++ [closer]) ↔ HasArrow inside := by
  have behind : HasArrow (inside ++ [closer] ++ []) ↔ HasArrow inside ∨ HasArrow [] :=
    hasArrow_apart_iff (List.cons_ne_nil _ _) (List.forall_mem_singleton.mpr (by decide))
  have ahead :
      HasArrow ([] ++ [opener] ++ (inside ++ [closer])) ↔ HasArrow [] ∨ HasArrow (inside ++ [closer]) :=
    hasArrow_apart_iff (List.cons_ne_nil _ _) (List.forall_mem_singleton.mpr (by decide))
  have none : ¬ HasArrow [] := by decide
  rw [List.append_nil] at behind
  rw [behind] at ahead
  simpa [none] using ahead

theorem hasArrow_separated_iff {left right : List Char} :
    HasArrow (left ++ separator :: right) ↔ HasArrow left ∨ HasArrow right := by
  rw [List.append_cons, hasArrow_apart_iff (List.cons_ne_nil _ _) (List.forall_mem_singleton.mpr (by decide))]

/-- A balanced conjunction in parentheses is a conjunction of the same symbols. -/
theorem Derives.parenthesize {inside : List Char} {symbols : List (List Char)}
    (derived : Derives inside symbols) (balanced : Balanced inside) : Derives (opener :: inside ++ [closer]) symbols :=
  (DerivesConjunct.group derived balanced).derives

theorem flatten_of_blank {text : List Char} (blank : allBlank text = true) : flatten text = text :=
  flatten_of_plain (not_mem_of_blank blank (by decide)) (not_mem_of_blank blank (by decide))

/-- Behind no opening parenthesis stand just blanks and a closing one. -/
theorem filled_iff {text : List Char} :
    Filled text ↔
      ∀ tail ∈ text.tails, tail.head? = some opener → (dropBlank tail.tail).head? ≠ some closer := by
  constructor
  · intro filled tail suffix opens closes
    rw [List.mem_tails] at suffix
    obtain ⟨rest, rfl⟩ := List.head?_eq_some_iff.mp opens
    obtain ⟨after, left⟩ := List.head?_eq_some_iff.mp closes
    have parts : rest = rest.takeWhile isBlank ++ closer :: after := by
      rw [← left]
      exact List.takeWhile_append_dropWhile.symm
    have pair : opener :: rest.takeWhile isBlank ++ [closer] <:+: text := by
      refine List.IsInfix.trans ⟨[], after, ?_⟩ suffix.isInfix
      rw [List.nil_append, List.append_assoc, List.singleton_append, List.cons_append, ← parts]
    have blank : allBlank (rest.takeWhile isBlank) = true := List.all_takeWhile
    rw [filled _ pair] at blank
    cases blank
  · intro checked inside pair
    rw [← Bool.not_eq_true]
    intro blank
    obtain ⟨before, after, parts⟩ := pair
    have stops : Stops isBlank (closer :: after) := stops_cons_iff.mpr (by decide)
    have left : dropBlank (inside ++ closer :: after) = closer :: after :=
      (run_eq_iff.mpr ⟨rfl, blank, stops⟩).2
    have suffix : opener :: (inside ++ closer :: after) ∈ text.tails := by
      rw [List.mem_tails]
      exact ⟨before, by simpa using parts⟩
    apply checked _ suffix rfl
    rw [List.tail_cons, left]
    rfl

instance (text : List Char) : Decidable (Filled text) :=
  decidable_of_iff _ filled_iff.symm

mutual

/-- What is left of a conjunction without its parentheses writes the same symbols, and is blank only if the
conjunction was. -/
theorem Derives.flattened {text : List Char} {symbols : List (List Char)} (derived : Derives text symbols)
    (plain : Plain symbols) (filled : Filled text) :
    Derives (flatten text) symbols ∧ (allBlank text = false → allBlank (flatten text) = false) := by
  match derived with
  | .blank blank =>
      rw [flatten_of_blank blank]
      exact ⟨.blank blank, id⟩
  | @Derives.last before conjunct after _ blankBefore part blankAfter =>
      obtain ⟨inner, present⟩ := part.flattened plain (filled.of_part (List.infix_append before conjunct after))
      rw [flatten_append, flatten_append, flatten_of_blank blankBefore, flatten_of_blank blankAfter]
      exact ⟨(inner.blank_append blankBefore).append_blank blankAfter,
        fun _ => allBlank_append_eq_false (.inl (allBlank_append_eq_false (.inr present)))⟩
  | @Derives.more before conjunct after rest _ _ blankBefore part blankAfter continues others =>
      obtain ⟨ownPlain, laterPlain⟩ := plain.of_append
      have within := conjunct_within before conjunct after rest
      obtain ⟨inner, present⟩ := part.flattened ownPlain (filled.of_part within)
      have behind := rest_within before conjunct after rest
      obtain ⟨laterInner, laterPresent⟩ := others.flattened laterPlain (filled.of_part behind)
      have frontPresent : allBlank (before ++ flatten conjunct ++ after) = false :=
        allBlank_append_eq_false (.inl (allBlank_append_eq_false (.inr present)))
      have parts : flatten (before ++ conjunct ++ after ++ separator :: rest) =
          before ++ flatten conjunct ++ after ++ separator :: flatten rest := by
        rw [flatten_append, flatten_append, flatten_append, flatten_of_blank blankBefore,
          flatten_of_blank blankAfter]
        rfl
      rw [parts]
      exact ⟨((inner.blank_append blankBefore).append_blank blankAfter).join laterInner frontPresent
          (laterPresent continues),
        fun _ => allBlank_append_eq_false (.inl frontPresent)⟩

theorem DerivesConjunct.flattened {conjunct : List Char} {symbols : List (List Char)}
    (part : DerivesConjunct conjunct symbols) (plain : Plain symbols) (filled : Filled conjunct) :
    Derives (flatten conjunct) symbols ∧ allBlank (flatten conjunct) = false := by
  match part with
  | .symbol shaped =>
      obtain ⟨noOpener, noCloser⟩ := List.forall_mem_singleton.mp plain
      rw [flatten_of_plain noOpener noCloser]
      exact ⟨(DerivesConjunct.symbol shaped).derives, shaped.not_blank⟩
  | @DerivesConjunct.group inside _ content balanced =>
      have within : inside <:+: opener :: inside ++ [closer] := List.infix_append [opener] inside [closer]
      obtain ⟨inner, present⟩ := content.flattened plain (filled.of_part within)
      rw [flatten_group]
      exact ⟨inner, present (filled inside (List.infix_refl _))⟩

end

mutual

/-- An arrow of a conjunction is within one of its symbols. -/
theorem Derives.exists_arrow {text : List Char} {symbols : List (List Char)} (derived : Derives text symbols)
    (arrow : HasArrow text) : ∃ symbol ∈ symbols, HasArrow symbol := by
  match derived with
  | .blank blank =>
      obtain ⟨before, after, rfl⟩ := arrow
      exact absurd (by simp) (not_mem_of_blank blank (by decide : isBlank '-' = false))
  | .last blankBefore part blankAfter =>
      obtain ⟨left, right, split⟩ := arrow
      obtain ⟨front, back, inner, _, _⟩ := arrow_of_padded blankBefore blankAfter split
      exact part.exists_arrow ⟨front, back, inner⟩
  | .more blankBefore part blankAfter continues others =>
      rcases hasArrow_separated_iff.mp arrow with ⟨left, right, split⟩ | later
      · obtain ⟨front, back, inner, _, _⟩ := arrow_of_padded blankBefore blankAfter split
        obtain ⟨symbol, member, found⟩ := part.exists_arrow ⟨front, back, inner⟩
        exact ⟨symbol, List.mem_append_left _ member, found⟩
      · obtain ⟨symbol, member, found⟩ := others.exists_arrow later
        exact ⟨symbol, List.mem_append_right _ member, found⟩

theorem DerivesConjunct.exists_arrow {conjunct : List Char} {symbols : List (List Char)}
    (part : DerivesConjunct conjunct symbols) (arrow : HasArrow conjunct) :
    ∃ symbol ∈ symbols, HasArrow symbol := by
  match part with
  | .symbol shaped => exact ⟨conjunct, List.mem_singleton_self _, arrow⟩
  | .group content balanced => exact content.exists_arrow (hasArrow_group_iff.mp arrow)

end

/-- No arrow comes about when parentheses are dropped. -/
theorem Derives.not_hasArrow_flatten {text : List Char} {symbols : List (List Char)}
    (derived : Derives text symbols) (plain : Plain symbols) (filled : Filled text)
    (noArrow : ¬ HasArrow text) : ¬ HasArrow (flatten text) := by
  intro arrow
  obtain ⟨symbol, member, found⟩ := (derived.flattened plain filled).1.exists_arrow arrow
  exact noArrow (found.of_part (derived.infix_of_mem symbol member))

end HornLogic.Conjunction
