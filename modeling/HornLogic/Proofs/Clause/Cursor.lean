import HornLogic.Clause.Cursor
import HornLogic.Proofs.Conjunction.Cursor

/-!
# A clause is read in bounds

Reading a clause in place gives what reading it by scopes does, and all positions on the way are sound.
-/
namespace HornLogic

set_option autoImplicit false

open Text Conjunction

theorem Clause.gives_readInPlace (line : String) : Gives (readInPlace line) (parse line) := by
  rw [readInPlace, parse]
  split
  · exact gives_throw _
  · cases soleArrow line.toList with
    | none => exact gives_throw _
    | some sides =>
      obtain ⟨left, right⟩ := sides
      refine (Conjunction.gives_readInPlace (trim left)).bind fun premise _ => ?_
      exact (gives_liftExcept _).bind fun conclusion _ => gives_pure _

/-- For every line the reading has a result, which is that of `parse`. Each part of the reader is called with
positions in the text, in order and at characters, each pass moves the cursor on in its scope, and scopes are
read inside of larger ones. -/
theorem Clause.parse_in_bounds (line : String) :
    ∃ events, (readInPlace line).run.run [] = some (parse line, events) ∧ ∀ event ∈ events, event.Sound := by
  obtain ⟨noted, sound, run⟩ := gives_readInPlace line
  exact ⟨noted, run [], sound⟩

end HornLogic
