import HornLogic.Formula

/-!
# Models

A model of a formula is a valuation that makes every clause true and gives the truth constants
their meaning. The meaning of the constants is asked for here alone: a clause by itself takes them
as the valuation has them.
-/
namespace HornLogic

set_option autoImplicit false

def Valuation.IsStandard (valuation : Valuation) : Prop :=
  valuation .verum = true ∧ valuation .falsum = false

structure Formula.IsModel (formula : Formula) (valuation : Valuation) : Prop where
  standard : valuation.IsStandard
  holds : formula.holds valuation = true

def Formula.Satisfiable (formula : Formula) : Prop :=
  ∃ valuation, formula.IsModel valuation

end HornLogic
