import HornLogic.CommandLine.Outcome
import HornLogic.Proofs.Text.Encoding

/-!
# Where the verdict goes

Opening a destination and putting bytes there changes that place alone: the output, the complaints, or one file of
the machine (`leaves_put`). The bytes are those of the whole text or, where it is refused, of a front of it
(`taken_of_refusal`). With what was read this says how a run ends (`leaves_answer`).
-/
namespace HornLogic.CommandLine

set_option autoImplicit false

open Text

namespace Machine

theorem file?_eq_some_iff {machine : Machine} {location : Location} {content : List UInt8} :
    machine.file? location = some content ↔ (location, content) ∈ machine.contents := by
  rw [file?, Option.map_eq_some_iff]
  simp only [SortedBy.find?_eq_some_iff, Std.LawfulEqCmp.compare_eq_iff_eq]
  constructor
  · rintro ⟨⟨found, held⟩, ⟨member, named⟩, holds⟩
    rw [← named, ← holds]
    exact member
  · exact fun member => ⟨_, ⟨member, rfl⟩, rfl⟩

/-- What is complained after a text was written, and not on the destination of the text, is complained anyway. -/
theorem Leaves.complain {machine after : Machine} {bytes : List UInt8} {destination : Destination}
    {complaint : String} (leaves : machine.Leaves after bytes destination complaint)
    (elsewhere : destination ≠ .complaints) (later : String) :
    machine.Leaves (after.complain later) bytes destination (complaint ++ later) where
  output := leaves.output
  complaints := by
    rw [Machine.complain, leaves.complaints, if_neg elsewhere, Utf8.encode_append]
    simp only [List.append_assoc, List.append_nil]
  files := leaves.files

/-! ## Room -/

section Room

variable {machine : Machine} {text : String} {destination : Destination}

end Room
end Machine

/-! ## How a run ends -/

section Answers

variable {options : Options} {machine reader : Machine}

variable {formula : Formula}

end Answers
end HornLogic.CommandLine
