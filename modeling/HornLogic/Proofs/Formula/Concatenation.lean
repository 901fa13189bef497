import HornLogic.Proofs.Formula.Reading
import Mathlib.Control.Monad.Basic

/-!
# Reading on

Lines are read one after the other, so a row of lines may be broken anywhere and the reading resumed with the
formula and the counts that were reached (`readLines_append_eq`). What is counted before has no effect on what
is done with the lines, only on the counts and the line numbers that are reported (`readLines_add`). For bytes
this means that a source may be broken where a line ends (`readInto_append`).
-/
namespace HornLogic

set_option autoImplicit false

open Text

namespace Tally

theorem add_zero (tally : Tally) : tally.add zero = tally := rfl

theorem count_add (before tally : Tally) (new : Bool) :
    (before.add tally).count new = before.add (tally.count new) := by
  cases new with
  | false => simp [add, count, Nat.add_assoc]
  | true => simp [add, count, Nat.add_assoc]

end Tally

theorem LineFault.report_add (before linesBefore : Nat) (fault : LineFault) :
    fault.report (before + linesBefore) = (fault.report linesBefore).after before := by
  cases fault with
  | unreadable => rfl
  | malformed error => rfl

/-- The result of a reading as it is where something was counted before. -/
def Tally.resume (before : Tally) : Except InputError Tally → Except InputError Tally
  | .ok tally => .ok (before.add tally)
  | .error error => .error (error.after before.lines)

namespace Formula

theorem readLines_add (formula : Formula) (before tally : Tally) (lines : List (Option String)) :
    formula.readLines (before.add tally) lines =
      ((formula.readLines tally lines).1, before.resume (formula.readLines tally lines).2) := by
  induction lines generalizing formula tally with
  | nil => rfl
  | cons line rest ih =>
      cases given : clauseOfLine line with
      | error fault =>
          rw [readLines_fault formula _ given, readLines_fault formula _ given, Tally.resume,
            ← LineFault.report_add]
          rfl
      | ok clause =>
          rw [readLines_clause formula _ given, readLines_clause formula _ given, Tally.count_add, ih]

theorem readLines_append_eq (formula : Formula) (tally : Tally) (front back : List (Option String)) :
    formula.readLines tally (front ++ back) =
      match formula.readLines tally front with
      | (reached, .error error) => (reached, .error error)
      | (reached, .ok counted) => reached.readLines counted back := by
  induction front generalizing formula tally with
  | nil => rfl
  | cons line others ih =>
      rw [List.cons_append]
      cases given : clauseOfLine line with
      | error fault => rw [readLines_fault formula _ given, readLines_fault formula _ given]
      | ok clause => rw [readLines_clause formula _ given, readLines_clause formula _ given, ih]

/-- The reader itself starts with nothing counted. -/
theorem readLines_eq_resume (formula : Formula) (before : Tally) (source : Source) :
    formula.readLines before (source.rows.map source.rowText ++ if source.fails then [none] else []) =
      ((formula.readInto source).1, before.resume (formula.readInto source).2) := by
  rw [readInto_eq_readLines_rows, ← readLines_add, Tally.add_zero]

theorem readInto_ofBytes (formula : Formula) (bytes : List UInt8) :
    formula.readInto (.ofBytes bytes) =
      formula.readLines .zero ((Source.ofBytes bytes).rows.map (Source.ofBytes bytes).rowText) := by
  rw [readInto_eq_readLines_rows]
  simp [Source.ofBytes]

theorem lines_of_readInto {formula reached : Formula} {source : Source} {tally : Tally}
    (read : formula.readInto source = (reached, .ok tally)) :
    tally.lines = source.rows.length := by
  obtain ⟨result, reads⟩ := formula.readsTo_total source
  rw [readInto_of_readsTo reads] at read
  rw [read] at reads
  cases reads with
  | ended _ _ lines _ _ => exact lines

end Formula

namespace Source

theorem rows_ofBytes_lines {lines : List (List UInt8)} (plain : ∀ line ∈ lines, lineFeed ∉ line) :
    (ofBytes (lines.flatMap (· ++ [lineFeed]))).rows = lines.map (· ++ [lineFeed]) := by
  have alone := rows_lines_append plain ([] : List UInt8)
  simpa [rows, ofBytes, Text.rows] using alone

theorem map_rowText_lines (source : Source) {lines : List (List UInt8)}
    (plain : ∀ line ∈ lines, lineFeed ∉ line) :
    (lines.map (· ++ [lineFeed])).map source.rowText = lines.map lineText := by
  rw [List.map_map]
  exact List.map_congr_left fun line member => source.rowText_ended (plain line member)

/-- The rows of a text that ends with a line have the same texts whatever comes behind it. -/
theorem map_rowText_append {front : List UInt8} (ended : front = [] ∨ front.getLast? = some lineFeed)
    (back : List UInt8) (fails : Bool) :
    (Source.mk (front ++ back) fails).rows.map (Source.mk (front ++ back) fails).rowText =
      (ofBytes front).rows.map (ofBytes front).rowText ++
        (Source.mk back fails).rows.map (Source.mk back fails).rowText := by
  obtain ⟨lines, plain, rfl⟩ := exists_lines_of_ended ended
  have together : (Source.mk (lines.flatMap (· ++ [lineFeed]) ++ back) fails).rows =
      lines.map (· ++ [lineFeed]) ++ (Source.mk back fails).rows := rows_lines_append plain back
  rw [together, rows_ofBytes_lines plain, List.map_append, map_rowText_lines _ plain,
    map_rowText_lines _ plain]
  rfl

theorem length_rows_of_ended {front : List UInt8}
    (ended : front = [] ∨ front.getLast? = some lineFeed) :
    (ofBytes front).rows.length = front.count lineFeed := by
  obtain ⟨lines, plain, rfl⟩ := exists_lines_of_ended ended
  rw [rows_ofBytes_lines plain, List.length_map, count_lines plain]

end Source

namespace Formula

/-- Reading two texts as one is reading the second behind the first, unless the first has an error. -/
theorem readInto_append {front : List UInt8}
    (ended : front = [] ∨ front.getLast? = some Source.lineFeed) (formula : Formula)
    (back : List UInt8) (fails : Bool) :
    formula.readInto ⟨front ++ back, fails⟩ =
      match formula.readInto (.ofBytes front) with
      | (reached, .error error) => (reached, .error error)
      | (reached, .ok tally) =>
        match reached.readInto ⟨back, fails⟩ with
        | (last, .ok other) => (last, .ok (tally.add other))
        | (last, .error error) => (last, .error (error.after (front.count Source.lineFeed))) := by
  rw [readInto_eq_readLines_rows, Source.map_rowText_append ended, List.append_assoc,
    readLines_append_eq, ← readInto_ofBytes]
  cases read : formula.readInto (.ofBytes front) with
  | mk reached result =>
      cases result with
      | error error => rfl
      | ok tally =>
          have lines : tally.lines = front.count Source.lineFeed := by
            rw [lines_of_readInto read, Source.length_rows_of_ended ended]
          have resumed := reached.readLines_eq_resume tally ⟨back, fails⟩
          dsimp only at resumed ⊢
          rw [resumed, ← lines]
          cases reached.readInto ⟨back, fails⟩ with
          | mk last other =>
              cases other with
              | error error => rfl
              | ok counted => rfl

/-- The second text has a clause that the first one has and then a line that is none. The other way round
nothing of the text behind is read. -/
theorem readInto_append_duplicate :
    let formula := ofList [.fact (.named "p")]
    let front := Utf8.encode "-> p\r\np & (q) -> r\n"
    let back := Utf8.encode "q & p & q -> r\n \n"
    front.getLast? = some Source.lineFeed ∧ back.getLast? = some Source.lineFeed ∧
      (formula.readInto (.ofBytes front)).2 = .ok ⟨2, 1, 1⟩ ∧
      ((formula.readInto (.ofBytes front)).1.readInto ⟨back, true⟩).2 = .error (.line 2 .blankClause) ∧
      (formula.readInto ⟨front ++ back, true⟩).2 = .error (.line 4 .blankClause) ∧
      (formula.readInto ⟨front ++ back, true⟩).1.size = 2 ∧
      formula.readInto ⟨back ++ front, true⟩ = formula.readInto (.ofBytes back) := by
  intro formula front back
  have frontEnded : front.getLast? = some Source.lineFeed := by decide +kernel
  have backEnded : back.getLast? = some Source.lineFeed := by decide +kernel
  have stopped : (formula.readInto (.ofBytes back)).2 = .error (.line 2 .blankClause) := by
    decide +kernel
  refine ⟨frontEnded, backEnded, by decide +kernel, by decide +kernel, ?_, ?_, ?_⟩
  · rw [readInto_append (.inr frontEnded)]
    decide +kernel
  · rw [readInto_append (.inr frontEnded)]
    decide +kernel
  · rw [readInto_append (.inr backEnded)]
    cases read : formula.readInto (.ofBytes back) with
    | mk reached result =>
        rw [read] at stopped
        cases stopped
        rfl

end Formula
end HornLogic
