import HornLogic.Proofs.Formula.Concatenation
import HornLogic.Source.Terminators

/-!
# The lines of a source

The lines of a source are those up to some line feed and then those behind it, so they are found one by one from
the front. Carriage returns behind a line are no part of its text, and if the line is not UTF-8 then it is not
with them either (`lineText_append_carriageReturns`).
-/
namespace HornLogic

set_option autoImplicit false

open Text

namespace Text

/-- What is left of a row of elements behind the last of some marks. -/
theorem exists_last_line {Item : Type} [DecidableEq Item] (mark : Item) (values : List Item) :
    ∃ front rest, values = front ++ rest ∧ (front = [] ∨ front.getLast? = some mark) ∧ mark ∉ rest := by
  refine ⟨(cut (· == mark) values).ended.flatMap (· ++ [mark]), (cut (· == mark) values).rest,
    (Cut.join_cut mark values).symm, ?_, (plain_cut mark values).2⟩
  rcases List.eq_nil_or_concat (cut (· == mark) values).ended with none | ⟨earlier, last, parts⟩
  · exact .inl (by rw [none]; rfl)
  · exact .inr (by simp [parts])

theorem Utf8.isSingle_carriageReturn : IsSingle '\r' Source.carriageReturn :=
  ⟨by decide, by decide⟩

end Text

namespace Source

theorem lines_append {front : List UInt8} (ended : front = [] ∨ front.getLast? = some lineFeed)
    (back : List UInt8) :
    (ofBytes (front ++ back)).lines = (ofBytes front).lines ++ (ofBytes back).lines := by
  have together := map_rowText_append ended back false
  rw [lines_of_ends rfl, lines_of_ends rfl, lines_of_ends rfl]
  exact together

theorem lines_line {line : List UInt8} (plain : lineFeed ∉ line) (rest : List UInt8) :
    (ofBytes (line ++ lineFeed :: rest)).lines = lineText line :: (ofBytes rest).lines := by
  have rows : (ofBytes (line ++ lineFeed :: rest)).rows = (line ++ [lineFeed]) :: (ofBytes rest).rows :=
    rows_ended (beq_eq_false_of_plain plain) (beq_self_eq_true lineFeed) rest
  rw [lines_of_ends rfl, lines_of_ends rfl, rows, List.map_cons, rowText_ended _ plain]
  rfl

theorem lines_unended {line : List UInt8} (present : line ≠ []) (plain : lineFeed ∉ line) :
    (ofBytes line).lines = [lineText line] := by
  have rows : (ofBytes line).rows = [line] := rows_unended present (beq_eq_false_of_plain plain)
  rw [lines_of_ends rfl, rows, List.map_singleton, rowText_unended plain]
  rfl

theorem lineText_carriageReturn (line : List UInt8) : lineText (line ++ [carriageReturn]) = lineText line := by
  rw [lineText, lineText, Utf8.isSingle_carriageReturn.decode?_concat]
  cases Utf8.decode? line with
  | none => rfl
  | some text =>
      have longer : (text ++ String.singleton '\r').toList = text.toList ++ ['\r'] := by simp
      simp only [Option.map_some, longer, dropTrailing_concat, beq_self_eq_true, if_true]

/-- Carriage returns at the end of a line change neither its text nor whether it has one. -/
theorem lineText_append_carriageReturns (line : List UInt8) (count : Nat) :
    lineText (line ++ List.replicate count carriageReturn) = lineText line := by
  induction count with
  | zero => rw [List.replicate_zero, List.append_nil]
  | succ count ih => rw [List.replicate_succ', ← List.append_assoc, lineText_carriageReturn, ih]

end Source
end HornLogic
