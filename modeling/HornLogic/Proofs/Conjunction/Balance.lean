import HornLogic.Conjunction.Grammar

/-!
# The closing parenthesis that fits

Counting from an opening parenthesis finds a closing one exactly where the text between the two is
balanced (`splitClose_eq_some_iff`). While the count is above zero the text still to come has to
close more parentheses than it opens, so the induction is over texts that close a number of
parentheses besides their own.
-/
namespace HornLogic.Conjunction

set_option autoImplicit false

/-- A text that closes its own parentheses and as many more as the depth says, none too early. -/
structure Closes (depth : Nat) (text : List Char) : Prop where
  neverBelow : ∀ front, front <+: text → front.count closer ≤ depth + front.count opener
  evened : text.count closer = depth + text.count opener

theorem closes_iff {depth : Nat} {text : List Char} :
    Closes depth text ↔
      (∀ front, front <+: text → front.count closer ≤ depth + front.count opener) ∧
      text.count closer = depth + text.count opener := by
  constructor
  · intro closes
    exact ⟨closes.neverBelow, closes.evened⟩
  · intro ⟨neverBelow, evened⟩
    exact ⟨neverBelow, evened⟩

theorem closes_zero_iff {text : List Char} : Closes 0 text ↔ Balanced text := by
  constructor
  · intro closes
    exact ⟨by simpa using closes.neverBelow, by simpa using closes.evened⟩
  · intro balanced
    exact ⟨by simpa using balanced.neverBelow, by simpa using balanced.evened⟩

theorem never_below_cons_iff {depth : Nat} {first : Char} {rest : List Char} :
    (∀ front, front <+: first :: rest → front.count closer ≤ depth + front.count opener) ↔
      ∀ front, front <+: rest → (first :: front).count closer ≤ depth + (first :: front).count opener := by
  constructor
  · intro neverBelow front leads
    exact neverBelow _ (List.cons_prefix_cons.mpr ⟨rfl, leads⟩)
  · intro neverBelow front leads
    rcases List.prefix_cons_iff.mp leads with rfl | ⟨others, rfl, within⟩
    · exact Nat.zero_le _
    · exact neverBelow others within

namespace Closes

theorem nil_iff {depth : Nat} : Closes depth [] ↔ depth = 0 := by
  constructor
  · intro closes
    simpa using closes.evened.symm
  · intro even
    subst even
    exact closes_zero_iff.mpr ⟨by simp, rfl⟩

theorem cons_iff {depth : Nat} {first : Char} {rest : List Char} :
    Closes depth (first :: rest) ↔
      (∀ front, front <+: rest →
        (first :: front).count closer ≤ depth + (first :: front).count opener) ∧
      (first :: rest).count closer = depth + (first :: rest).count opener := by
  rw [closes_iff, never_below_cons_iff]

theorem opener_iff {depth : Nat} {rest : List Char} :
    Closes depth (opener :: rest) ↔ Closes (depth + 1) rest := by
  rw [cons_iff]
  have own : ∀ text : List Char, (opener :: text).count closer = text.count closer ∧
      depth + (opener :: text).count opener = depth + 1 + text.count opener := by
    intro text
    constructor
    · exact List.count_cons_of_ne (by decide)
    · rw [List.count_cons_self]
      omega
  simp only [own]
  exact closes_iff.symm

theorem closer_iff {depth : Nat} {rest : List Char} :
    Closes (depth + 1) (closer :: rest) ↔ Closes depth rest := by
  rw [cons_iff]
  have own : ∀ text : List Char, (closer :: text).count closer = text.count closer + 1 ∧
      depth + 1 + (closer :: text).count opener = depth + text.count opener + 1 := by
    intro text
    constructor
    · exact List.count_cons_self
    · rw [List.count_cons_of_ne (by decide)]
      omega
  simp only [own, Nat.add_le_add_iff_right, Nat.add_right_cancel_iff]
  exact closes_iff.symm

theorem not_closer {rest : List Char} : ¬ Closes 0 (closer :: rest) := by
  intro closes
  have early := closes.neverBelow [closer] (List.cons_prefix_cons.mpr ⟨rfl, List.nil_prefix⟩)
  revert early
  decide

theorem other_iff {depth : Nat} {first : Char} {rest : List Char} (notOpener : first ≠ opener)
    (notCloser : first ≠ closer) : Closes depth (first :: rest) ↔ Closes depth rest := by
  rw [cons_iff]
  simp only [List.count_cons_of_ne notOpener, List.count_cons_of_ne notCloser]
  exact closes_iff.symm

end Closes

/-- A text that is cut at the parenthesis that fits begins with that parenthesis, or with the first
character of what is inside. -/
theorem cut_cons_iff {depth : Nat} {first : Char} {rest inside after : List Char} :
    first :: rest = inside ++ closer :: after ∧ Closes depth inside ↔
      (first = closer ∧ depth = 0 ∧ inside = [] ∧ rest = after) ∨
      ∃ others, inside = first :: others ∧ rest = others ++ closer :: after ∧
        Closes depth (first :: others) := by
  constructor
  · intro ⟨split, closes⟩
    cases inside with
    | nil =>
        cases split
        exact .inl ⟨rfl, Closes.nil_iff.mp closes, rfl, rfl⟩
    | cons head others =>
        cases split
        exact .inr ⟨others, rfl, rfl, closes⟩
  · intro begins
    rcases begins with ⟨rfl, rfl, rfl, rfl⟩ | ⟨others, rfl, rfl, closes⟩
    · exact ⟨rfl, Closes.nil_iff.mpr rfl⟩
    · exact ⟨rfl, closes⟩

theorem splitClose_opener (depth : Nat) (rest : List Char) :
    splitClose depth (opener :: rest) =
      (splitClose (depth + 1) rest).map fun (inside, after) => (opener :: inside, after) := by
  rw [splitClose.eq_def depth (opener :: rest)]
  dsimp only
  rw [if_pos rfl]

theorem splitClose_closer_zero (rest : List Char) :
    splitClose 0 (closer :: rest) = some ([], rest) := rfl

theorem splitClose_closer_succ (depth : Nat) (rest : List Char) :
    splitClose (depth + 1) (closer :: rest) =
      (splitClose depth rest).map fun (inside, after) => (closer :: inside, after) := rfl

theorem splitClose_other (depth : Nat) {first : Char} (rest : List Char)
    (notOpener : first ≠ opener) (notCloser : first ≠ closer) :
    splitClose depth (first :: rest) =
      (splitClose depth rest).map fun (inside, after) => (first :: inside, after) := by
  rw [splitClose.eq_def depth (first :: rest)]
  dsimp only
  rw [if_neg notOpener, if_neg notCloser]

theorem map_extend_eq_some_iff {first : Char} {inside after : List Char}
    {found : Option (List Char × List Char)} :
    found.map (fun (inside, after) => (first :: inside, after)) = some (inside, after) ↔
      ∃ others, inside = first :: others ∧ found = some (others, after) := by
  constructor
  · intro extended
    obtain ⟨⟨others, left⟩, found, parts⟩ := Option.map_eq_some_iff.mp extended
    cases parts
    exact ⟨others, rfl, found⟩
  · intro ⟨others, front, shorter⟩
    rw [front, shorter]
    rfl

theorem splitClose_eq_some_iff {depth : Nat} {text inside after : List Char} :
    splitClose depth text = some (inside, after) ↔
      text = inside ++ closer :: after ∧ Closes depth inside := by
  induction text generalizing depth inside with
  | nil => simp [splitClose]
  | cons first rest ih =>
      rw [cut_cons_iff]
      by_cases opens : first = opener
      · subst opens
        have apart : opener ≠ closer := by decide
        simp only [splitClose_opener, map_extend_eq_some_iff, ih, Closes.opener_iff, apart,
          false_and, false_or]
      · by_cases closes : first = closer
        · subst closes
          cases depth with
          | zero =>
              simp only [splitClose_closer_zero, Closes.not_closer, Option.some.injEq,
                Prod.mk.injEq, true_and, and_false, exists_false, or_false]
              exact and_congr_left' eq_comm
          | succ depth =>
              simp only [splitClose_closer_succ, map_extend_eq_some_iff, ih, Closes.closer_iff,
                Nat.succ_ne_zero, false_and, and_false, false_or]
        · simp only [splitClose_other depth rest opens closes, map_extend_eq_some_iff, ih,
            Closes.other_iff opens closes, closes, false_and, false_or]

/-- No closing parenthesis fits exactly where none comes before the parentheses to close are all open. -/
theorem splitClose_eq_none_iff {depth : Nat} {text : List Char} :
    splitClose depth text = none ↔
      ∀ front, front <+: text → front.count closer ≤ depth + front.count opener := by
  induction text generalizing depth with
  | nil => simp [splitClose]
  | cons first rest ih =>
      rw [never_below_cons_iff]
      by_cases opens : first = opener
      · subst opens
        have apart : ∀ front : List Char, (opener :: front).count closer = front.count closer :=
          fun front => List.count_cons_of_ne (by decide)
        simp only [splitClose_opener, Option.map_eq_none_iff, ih, apart, List.count_cons_self]
        exact forall₂_congr fun front leads => by omega
      · by_cases closes : first = closer
        · subst closes
          have apart : ∀ front : List Char, (closer :: front).count opener = front.count opener :=
            fun front => List.count_cons_of_ne (by decide)
          simp only [apart, List.count_cons_self]
          cases depth with
          | zero =>
              rw [splitClose_closer_zero]
              refine iff_of_false (by simp) fun neverBelow => ?_
              have early := neverBelow [] List.nil_prefix
              simp at early
          | succ depth =>
              simp only [splitClose_closer_succ, Option.map_eq_none_iff, ih]
              exact forall₂_congr fun front leads => by omega
        · simp only [splitClose_other depth rest opens closes, Option.map_eq_none_iff, ih,
            List.count_cons_of_ne opens, List.count_cons_of_ne closes]

/-- A text is balanced exactly when a closing parenthesis behind it is the first that fits. -/
theorem balanced_iff_splitClose {text : List Char} :
    Balanced text ↔ splitClose 0 (text ++ [closer]) = some (text, []) := by
  rw [splitClose_eq_some_iff, ← closes_zero_iff]
  exact (and_iff_right rfl).symm

instance (text : List Char) : Decidable (Balanced text) :=
  decidable_of_iff _ balanced_iff_splitClose.symm

/-- What follows an opening parenthesis in a balanced text closes more parentheses than it opens. -/
theorem Balanced.count_lt {front rest : List Char} (balanced : Balanced (front ++ opener :: rest)) :
    rest.count opener < rest.count closer := by
  have evened := balanced.evened
  have ahead := balanced.neverBelow front (List.prefix_append front _)
  have apart : (opener :: rest).count closer = rest.count closer := List.count_cons_of_ne (by decide)
  rw [List.count_append, List.count_append, apart, List.count_cons_self] at evened
  omega

end HornLogic.Conjunction
