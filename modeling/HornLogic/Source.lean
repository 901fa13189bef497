import HornLogic.Text.Lines
import HornLogic.Text.Utf8

/-!
# Sources of text

A source gives bytes and then either ends or fails. What a reader gets of it is a row of lines
(`Source.lines`): a line that is not UTF-8, or during which the source fails, is not readable.
-/
namespace HornLogic

set_option autoImplicit false

open Text

structure Source where
  bytes : List UInt8
  /-- Whether the source fails after its bytes instead of ending. -/
  fails : Bool

namespace Source

def ofBytes (bytes : List UInt8) : Source :=
  ⟨bytes, false⟩

/-- The source of a text always ends. -/
def ofText (text : String) : Source :=
  .ofBytes (Utf8.encode text)

def lineFeed : UInt8 := 0x0A

/-- The text of a line, without the carriage returns at its end. -/
def lineText (bytes : List UInt8) : Option String :=
  (Utf8.decode? bytes).map fun text => String.ofList (dropTrailing (· == '\r') text.toList)

/-- The lines as they are read, where one that is not readable has no text. A source that fails
has such a line at its end in place of whatever was not ended. -/
def lines (source : Source) : List (Option String) :=
  let pieces := cut (· == lineFeed) source.bytes
  if source.fails then pieces.ended.map lineText ++ [none]
  else pieces.lines.map lineText

end Source
end HornLogic
