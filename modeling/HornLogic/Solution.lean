import HornLogic.Assignment

/-!
# Solutions

The answer to whether a formula can be made true, with an assignment that does so if it can.
-/
namespace HornLogic

set_option autoImplicit false

inductive Verdict where
  | satisfiable
  | unsatisfiable
  deriving DecidableEq

def Verdict.render : Verdict → String
  | .satisfiable => "SAT"
  | .unsatisfiable => "UNSAT"

inductive Solution where
  | unsatisfiable
  | satisfiable (model : Assignment)
  deriving DecidableEq

namespace Solution

def verdict : Solution → Verdict
  | .unsatisfiable => .unsatisfiable
  | .satisfiable _ => .satisfiable

def model? : Solution → Option Assignment
  | .unsatisfiable => none
  | .satisfiable model => some model

def isSatisfiable (solution : Solution) : Bool :=
  solution.model?.isSome

end Solution
end HornLogic
