import HornLogic.Text.Lines
import HornLogic.Text.Rows

/-!
# The rows of a text

A row of elements is cut into rows in one way only (`AreRows.rows_flatten`), since each row shows where it ends. What
is kept of the rows when some are left out are again the rows of a text.
-/
namespace HornLogic.Text

set_option autoImplicit false

variable {Item : Type} {isEnd : Item → Bool}

theorem rows_ended {line : List Item} {mark : Item} (plain : ∀ item ∈ line, isEnd item = false)
    (ends : isEnd mark = true) (rest : List Item) :
    rows isEnd (line ++ mark :: rest) = (line ++ [mark]) :: rows isEnd rest := by
  induction line with
  | nil => rw [List.nil_append, rows, if_pos ends, List.nil_append]
  | cons first others ih =>
      have inner := List.forall_mem_cons.mp plain
      rw [List.cons_append, rows, inner.1, if_neg Bool.false_ne_true, ih inner.2]
      rfl

theorem rows_unended {row : List Item} (present : row ≠ [])
    (plain : ∀ item ∈ row, isEnd item = false) : rows isEnd row = [row] := by
  induction row with
  | nil => exact absurd rfl present
  | cons first others ih =>
      have inner := List.forall_mem_cons.mp plain
      rw [rows, inner.1, if_neg Bool.false_ne_true]
      by_cases empty : others = []
      · rw [empty]
        rfl
      · rw [ih empty inner.2]

namespace AreRows

variable {lines : List (List Item)}

/-- An element that ends nothing can stand in front of the first row. -/
theorem extend {item : Item} {row : List Item} {later : List (List Item)}
    (are : AreRows isEnd (row :: later)) (continues : isEnd item = false) :
    AreRows isEnd ((item :: row) :: later) := by
  cases are with
  | unended present plain =>
      exact .unended (List.cons_ne_nil item row) (List.forall_mem_cons.mpr ⟨continues, plain⟩)
  | ended plain ends others => exact .ended (List.forall_mem_cons.mpr ⟨continues, plain⟩) ends others

theorem filter (are : AreRows isEnd lines) (keep : List Item → Bool) :
    AreRows isEnd (lines.filter keep) := by
  induction are with
  | none => exact .none
  | @unended row present plain =>
      rw [List.filter_cons, List.filter_nil]
      split
      · exact .unended present plain
      · exact .none
  | ended plain ends others ih =>
      rw [List.filter_cons]
      split
      · exact .ended plain ends ih
      · exact ih

end AreRows

variable [DecidableEq Item]

theorem beq_eq_false_of_plain {mark : Item} {line : List Item} (plain : mark ∉ line) :
    ∀ item ∈ line, (item == mark) = false := by
  intro item member
  exact beq_false_of_ne fun same => plain (same ▸ member)

theorem rows_eq_cut (mark : Item) (values : List Item) :
    rows (· == mark) values =
      (cut (· == mark) values).ended.map (· ++ [mark]) ++
        if (cut (· == mark) values).rest.isEmpty then [] else [(cut (· == mark) values).rest] := by
  induction values with
  | nil => rfl
  | cons item rest ih =>
      rw [rows, ih, cut_cons, Cut.extend]
      by_cases ends : (item == mark) = true
      · rw [if_pos ends, if_pos ends, eq_of_beq ends]
        rfl
      · rw [if_neg ends, if_neg ends]
        cases ended : (cut (· == mark) rest).ended with
        | cons line later => rfl
        | nil =>
            cases (cut (· == mark) rest).rest with
            | nil => rfl
            | cons first others => rfl

theorem plain_cut (mark : Item) (values : List Item) :
    (∀ line ∈ (cut (· == mark) values).ended, mark ∉ line) ∧
      mark ∉ (cut (· == mark) values).rest := by
  induction values with
  | nil => simp [cut_nil]
  | cons item rest ih =>
      rw [cut_cons, Cut.extend]
      by_cases ends : (item == mark) = true
      · rw [if_pos ends]
        exact ⟨List.forall_mem_cons.mpr ⟨List.not_mem_nil, ih.1⟩, ih.2⟩
      · rw [if_neg ends]
        have differs : mark ≠ item := fun same => ends (beq_iff_eq.mpr same.symm)
        cases ended : (cut (· == mark) rest).ended with
        | nil =>
            have plainRest := List.not_mem_cons_of_ne_of_not_mem differs ih.2
            exact ⟨List.forall_mem_nil _, plainRest⟩
        | cons line later =>
            rw [ended] at ih
            have inner := List.forall_mem_cons.mp ih.1
            have plainLine := List.not_mem_cons_of_ne_of_not_mem differs inner.1
            exact ⟨List.forall_mem_cons.mpr ⟨plainLine, inner.2⟩, ih.2⟩

/-! ## Texts that end with a line

Behind such a text the rows of another one begin anew. -/

theorem exists_lines_of_ended {mark : Item} {values : List Item}
    (ended : values = [] ∨ values.getLast? = some mark) :
    ∃ lines : List (List Item), (∀ line ∈ lines, mark ∉ line) ∧
      values = lines.flatMap (· ++ [mark]) := by
  obtain ⟨plainLines, plainRest⟩ := plain_cut mark values
  have whole := Cut.join_cut mark values
  rw [Cut.join] at whole
  cases left : (cut (· == mark) values).rest with
  | nil =>
      rw [left, List.append_nil] at whole
      exact ⟨_, plainLines, whole.symm⟩
  | cons first others =>
      rw [left] at whole plainRest
      rcases ended with none | last
      · rw [none, List.append_eq_nil_iff] at whole
        cases whole.2
      · rw [← whole, List.getLast?_append, List.getLast?_cons, Option.some_or,
          ← List.getLast?_cons] at last
        exact absurd (List.mem_of_getLast? last) plainRest

theorem rows_lines_append {mark : Item} {lines : List (List Item)}
    (plain : ∀ line ∈ lines, mark ∉ line) (rest : List Item) :
    rows (· == mark) (lines.flatMap (· ++ [mark]) ++ rest) =
      lines.map (· ++ [mark]) ++ rows (· == mark) rest := by
  induction lines with
  | nil => rfl
  | cons line later ih =>
      have inner := List.forall_mem_cons.mp plain
      have first := rows_ended (beq_eq_false_of_plain inner.1) (beq_self_eq_true mark)
        (later.flatMap (· ++ [mark]) ++ rest)
      rw [List.flatMap_cons, List.append_assoc, List.append_assoc, List.singleton_append, first,
        ih inner.2, List.map_cons, List.cons_append]

theorem count_lines {mark : Item} {lines : List (List Item)}
    (plain : ∀ line ∈ lines, mark ∉ line) :
    (lines.flatMap (· ++ [mark])).count mark = lines.length := by
  induction lines with
  | nil => rfl
  | cons line later ih =>
      have inner := List.forall_mem_cons.mp plain
      rw [List.flatMap_cons, List.count_append, List.count_append, ih inner.2,
        List.count_eq_zero.mpr inner.1, List.count_singleton_self, List.length_cons]
      omega

end HornLogic.Text
