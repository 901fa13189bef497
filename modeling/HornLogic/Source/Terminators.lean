import HornLogic.Source

/-!
# How lines are ended

A line is ended by a line feed, which may have carriage returns in front of it, and the last line by the end of
the source. `Source.Reends` has the ways to end a line in another way.
-/
namespace HornLogic.Source

set_option autoImplicit false

def carriageReturn : UInt8 := 0x0D

/-- The last line is not empty and has no line feed. -/
def OpenEnded (bytes : List UInt8) : Prop :=
  ∃ last, bytes.getLast? = some last ∧ last ≠ lineFeed

/-- The second text is the first with one of its lines ended otherwise. -/
inductive Reends : List UInt8 → List UInt8 → Prop where
  | beforeLineFeed (before after : List UInt8) (count : Nat) :
      Reends (before ++ lineFeed :: after) (before ++ List.replicate count carriageReturn ++ lineFeed :: after)
  | atEnd {bytes : List UInt8} (openEnded : OpenEnded bytes) (count : Nat) :
      Reends bytes (bytes ++ List.replicate count carriageReturn)
  | lineFeed {bytes : List UInt8} (openEnded : OpenEnded bytes) : Reends bytes (bytes ++ [Source.lineFeed])

end HornLogic.Source
