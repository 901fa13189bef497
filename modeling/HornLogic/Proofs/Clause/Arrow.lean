import HornLogic.Clause.Grammar
import HornLogic.Clause.Parse

/-!
# The sole arrow of a line

Cutting at the first arrow leaves every other arrow whole in the second part, because an arrow
cannot overlap another. So a line has one arrow exactly when its second part has none.
-/
namespace HornLogic

set_option autoImplicit false

theorem arrow_cons_cases {first : Char} {rest before after : List Char}
    (split : first :: rest = before ++ '-' :: '>' :: after) :
    (before = [] ∧ first = '-' ∧ rest = '>' :: after) ∨
      ∃ others, before = first :: others ∧ rest = others ++ '-' :: '>' :: after := by
  cases before with
  | nil =>
      cases split
      exact .inl ⟨rfl, rfl, rfl⟩
  | cons head others =>
      cases split
      exact .inr ⟨others, rfl, rfl⟩

/-- An arrow of two texts put together is in one of them, unless its dash ends the first. -/
theorem arrow_append_cases {front rest before after : List Char}
    (split : front ++ rest = before ++ '-' :: '>' :: after) :
    (∃ others, front = before ++ '-' :: '>' :: others ∧ after = others ++ rest) ∨
      (front = before ++ ['-'] ∧ rest = '>' :: after) ∨
      ∃ others, before = front ++ others ∧ rest = others ++ '-' :: '>' :: after := by
  rcases List.append_eq_append_iff.mp split with ⟨others, behind, later⟩ | ⟨inner, ahead, later⟩
  · exact .inr (.inr ⟨others, behind, later⟩)
  · match inner with
    | [] =>
        rw [List.append_nil] at ahead
        exact .inr (.inr ⟨[], by rw [ahead, List.append_nil], later.symm⟩)
    | [dash] =>
        cases later
        exact .inr (.inl ⟨ahead, rfl⟩)
    | dash :: point :: others =>
        cases later
        exact .inl ⟨others, ahead, rfl⟩

theorem HasArrow.of_part {part text : List Char} (arrow : HasArrow part) (within : part <:+: text) :
    HasArrow text := by
  obtain ⟨before, after, rfl⟩ := arrow
  obtain ⟨front, back, rfl⟩ := within
  exact ⟨front ++ before, after ++ back, by simp⟩

theorem hasArrow_apart_iff {front between rest : List Char} (present : between ≠ [])
    (plain : ∀ character ∈ between, character ≠ '-' ∧ character ≠ '>') :
    HasArrow (front ++ between ++ rest) ↔ HasArrow front ∨ HasArrow rest := by
  constructor
  · intro ⟨before, after, split⟩
    rcases arrow_append_cases split with ⟨others, ahead, _⟩ | ⟨ahead, _⟩ | ⟨others, _, later⟩
    · rcases arrow_append_cases ahead with ⟨inner, ahead, _⟩ | ⟨_, point⟩ | ⟨inner, _, later⟩
      · exact .inl ⟨before, inner, ahead⟩
      · exact absurd rfl (plain '>' (by simp [point])).2
      · exact absurd rfl (plain '-' (by simp [later])).1
    · obtain ⟨init, last, parts⟩ := (List.eq_nil_or_concat between).resolve_left present
      rw [List.concat_eq_append] at parts
      rw [parts, ← List.append_assoc] at ahead
      cases (List.append_inj' ahead rfl).2
      exact absurd rfl (plain '-' (by simp [parts])).1
    · exact .inr ⟨others, after, later⟩
  · intro arrow
    rcases arrow with arrow | arrow
    · exact arrow.of_part ((List.prefix_append front between).trans (List.prefix_append _ rest)).isInfix
    · exact arrow.of_part (List.suffix_append _ rest).isInfix

theorem soleArrow_iff {line left right : List Char} :
    SoleArrow line left right ↔
      line = left ++ '-' :: '>' :: right ∧ ¬ HasArrow left ∧ ¬ HasArrow right := by
  constructor
  · intro sole
    refine ⟨sole.split, ?_, ?_⟩
    · intro ⟨before, after, leftSplit⟩
      have place := (sole.only before (after ++ '-' :: '>' :: right) (by simp [sole.split, leftSplit])).1
      simp [place] at leftSplit
    · intro ⟨before, after, rightSplit⟩
      have place := (sole.only (left ++ '-' :: '>' :: before) after (by simp [sole.split, rightSplit])).1
      simp at place
  · intro ⟨parts, leftPlain, rightPlain⟩
    refine ⟨parts, ?_⟩
    intro before after split
    rw [parts] at split
    rcases arrow_append_cases split with ⟨others, ahead, _⟩ | ⟨_, point⟩ | ⟨others, place, later⟩
    · exact absurd ⟨before, others, ahead⟩ leftPlain
    · cases point
    · rcases arrow_cons_cases later with ⟨none, _, rest⟩ | ⟨inner, _, later⟩
      · cases rest
        exact ⟨by rw [place, none, List.append_nil], rfl⟩
      · rcases arrow_cons_cases later with ⟨_, dash, _⟩ | ⟨beyond, _, later⟩
        · cases dash
        · exact absurd ⟨beyond, after, later⟩ rightPlain

theorem no_arrow_of_splitArrow {text : List Char} (found : splitArrow text = none)
    (before after : List Char) : text ≠ before ++ '-' :: '>' :: after := by
  fun_induction splitArrow text generalizing before with
  | case1 rest => cases found
  | case2 first rest notFirst ih =>
      intro split
      rcases arrow_cons_cases split with ⟨_, begins, continues⟩ | ⟨others, _, later⟩
      · exact notFirst after begins continues
      · exact ih (Option.map_eq_none_iff.mp found) others later
  | case3 => simp

theorem split_of_splitArrow {text left right : List Char}
    (found : splitArrow text = some (left, right)) : text = left ++ '-' :: '>' :: right := by
  fun_induction splitArrow text generalizing left with
  | case1 rest =>
      cases found
      rfl
  | case2 first rest notFirst ih =>
      obtain ⟨⟨others, tail⟩, found, parts⟩ := Option.map_eq_some_iff.mp found
      cases parts
      rw [ih found, List.cons_append]
  | case3 => cases found

instance (text : List Char) : Decidable (HasArrow text) :=
  decidable_of_iff ((splitArrow text).isSome = true) <| by
    cases found : splitArrow text with
    | none =>
        simp only [Option.isSome_none, Bool.false_eq_true, false_iff]
        intro ⟨before, after, split⟩
        exact no_arrow_of_splitArrow found before after split
    | some parts =>
        simp only [Option.isSome_some, true_iff]
        exact ⟨parts.1, parts.2, split_of_splitArrow found⟩

theorem arrow_places_of_splitArrow {text left right before after : List Char}
    (found : splitArrow text = some (left, right)) (split : text = before ++ '-' :: '>' :: after) :
    (before = left ∧ after = right) ∨
      ∃ between, before = left ++ '-' :: '>' :: between ∧
        right = between ++ '-' :: '>' :: after := by
  fun_induction splitArrow text generalizing before left with
  | case1 rest =>
      cases found
      rcases arrow_cons_cases split with ⟨here, _, restSplit⟩ | ⟨others, place, later⟩
      · cases restSplit
        exact .inl ⟨here, rfl⟩
      · rcases arrow_cons_cases later with ⟨_, impossible, _⟩ | ⟨between, inner, rightSplit⟩
        · exact absurd impossible (by decide)
        · rw [place, inner]
          exact .inr ⟨between, rfl, rightSplit⟩
  | case2 first rest notFirst ih =>
      obtain ⟨⟨others, tail⟩, found, parts⟩ := Option.map_eq_some_iff.mp found
      cases parts
      rcases arrow_cons_cases split with ⟨_, begins, continues⟩ | ⟨front, place, later⟩
      · exact (notFirst after begins continues).elim
      · rw [place]
        rcases ih found later with ⟨here, ends⟩ | ⟨between, beyond, rightSplit⟩
        · rw [here]
          exact .inl ⟨rfl, ends⟩
        · rw [beyond]
          exact .inr ⟨between, rfl, rightSplit⟩
  | case3 => cases found

theorem soleArrow_eq_some_iff {line left right : List Char} :
    soleArrow line = some (left, right) ↔ SoleArrow line left right := by
  constructor
  · intro sole
    cases found : splitArrow line with
    | none =>
        rw [soleArrow, found] at sole
        cases sole
    | some parts =>
        rw [soleArrow, found] at sole
        dsimp only at sole
        split at sole
        · cases sole
        · rename_i noOther
          cases sole
          rw [Bool.not_eq_true, Option.isSome_eq_false_iff, Option.isNone_iff_eq_none] at noOther
          constructor
          · exact split_of_splitArrow found
          · intro before after split
            rcases arrow_places_of_splitArrow found split with same | ⟨between, _, later⟩
            · exact same
            · exact (no_arrow_of_splitArrow noOther between after later).elim
  · intro sole
    cases found : splitArrow line with
    | none => exact (no_arrow_of_splitArrow found left right sole.split).elim
    | some parts =>
        obtain ⟨before, after⟩ := parts
        obtain ⟨rfl, rfl⟩ := sole.only before after (split_of_splitArrow found)
        have noOther : splitArrow after = none := by
          cases later : splitArrow after with
          | none => rfl
          | some others =>
              have second : line = (before ++ '-' :: '>' :: others.1) ++ '-' :: '>' :: others.2 := by
                rw [sole.split, split_of_splitArrow later]
                simp
              have same := (sole.only _ _ second).1
              simp at same
        rw [soleArrow, found]
        dsimp only
        rw [noOther]
        rfl

end HornLogic
