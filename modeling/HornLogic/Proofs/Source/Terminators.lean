import HornLogic.Proofs.Source.Lines
import Mathlib.Control.Monad.Basic
import Mathlib.Logic.Relation

/-!
# Reading whatever ends the lines

However its lines are ended, a source has the same lines (`lines_of_reends`), and nothing else of it is read. So
the formula, the counts and the errors are the same with carriage returns in front of line feeds and without,
and with a line feed behind the last line and without (`Formula.read_reended`). Each line counts once, as an
end that is put to the last line makes no new one.
-/
namespace HornLogic

set_option autoImplicit false

open Text

namespace Source

/-- The last line of a source that does not end with a line feed. -/
theorem OpenEnded.exists_last_line {bytes : List UInt8} (openEnded : OpenEnded bytes) :
    ∃ front line, bytes = front ++ line ∧ (front = [] ∨ front.getLast? = some lineFeed) ∧
      lineFeed ∉ line ∧ line ≠ [] := by
  obtain ⟨last, ends, differs⟩ := openEnded
  obtain ⟨front, line, rfl, ended, plain⟩ := Text.exists_last_line lineFeed bytes
  refine ⟨front, line, rfl, ended, plain, ?_⟩
  rintro rfl
  rw [List.append_nil] at ends
  rcases ended with rfl | ended
  · cases ends
  · rw [ended] at ends
    exact differs (Option.some.inj ends).symm

theorem carriageReturns_plain {line : List UInt8} (plain : lineFeed ∉ line) (count : Nat) :
    lineFeed ∉ line ++ List.replicate count carriageReturn := by
  rw [List.mem_append, not_or]
  exact ⟨plain, fun member => absurd (List.eq_of_mem_replicate member) (by decide)⟩

theorem lines_of_reends {bytes other : List UInt8} (reends : Reends bytes other) :
    (ofBytes other).lines = (ofBytes bytes).lines := by
  cases reends with
  | beforeLineFeed before after count =>
      obtain ⟨front, line, rfl, ended, plain⟩ := Text.exists_last_line lineFeed before
      have otherParts : front ++ line ++ List.replicate count carriageReturn ++ lineFeed :: after =
          front ++ ((line ++ List.replicate count carriageReturn) ++ lineFeed :: after) := by simp
      rw [otherParts, List.append_assoc front line, lines_append ended, lines_append ended,
        lines_line (carriageReturns_plain plain count), lines_line plain, lineText_append_carriageReturns]
  | atEnd openEnded count =>
      obtain ⟨front, line, rfl, ended, plain, present⟩ := openEnded.exists_last_line
      have longer : line ++ List.replicate count carriageReturn ≠ [] := List.append_ne_nil_of_left_ne_nil present _
      rw [List.append_assoc, lines_append ended, lines_append ended,
        lines_unended longer (carriageReturns_plain plain count), lines_unended present plain,
        lineText_append_carriageReturns]
  | lineFeed openEnded =>
      obtain ⟨front, line, rfl, ended, plain, present⟩ := openEnded.exists_last_line
      rw [List.append_assoc, lines_append ended, lines_append ended, lines_line plain, lines_unended present plain]
      rfl

end Source

namespace Formula

/-- A text is read to the same answer, whether formula and counts or error, when its lines are ended in other
ways. -/
theorem read_reended {bytes other : List UInt8} (steps : Relation.ReflTransGen Source.Reends bytes other) :
    read (.ofBytes other) = read (.ofBytes bytes) := by
  induction steps with
  | refl => rfl
  | tail _ reends same =>
      rw [← same, read, read, readInto, readInto, Source.lines_of_reends reends]

/-- The error shows the last line, which is the second one also when it is ended. -/
theorem read_reended_shown :
    let bytes := Utf8.encode "-> p\nβ"
    let other := Utf8.encode "-> p\r\r\nβ\r\n"
    Relation.ReflTransGen Source.Reends bytes other ∧
      (read (.ofBytes bytes)).map Prod.snd = .error (.line 2 (.arrowCount "β")) ∧
      read (.ofBytes other) = read (.ofBytes bytes) := by
  intro bytes other
  have first : Source.Reends bytes (Utf8.encode "-> p\r\r\nβ") :=
    .beforeLineFeed (Utf8.encode "-> p") (Utf8.encode "β") 2
  have second : Source.Reends (Utf8.encode "-> p\r\r\nβ") (Utf8.encode "-> p\r\r\nβ\r") :=
    .atEnd ⟨0xB2, by decide +kernel, by decide⟩ 1
  have third : Source.Reends (Utf8.encode "-> p\r\r\nβ\r") other :=
    .lineFeed ⟨Source.carriageReturn, by decide +kernel, by decide⟩
  have steps : Relation.ReflTransGen Source.Reends bytes other := .tail (.tail (.single first) second) third
  exact ⟨steps, by decide +kernel, read_reended steps⟩

end Formula
end HornLogic
