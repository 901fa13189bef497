import HornLogic.Clause.Grammar

/-!
# Blanks that have no meaning

Blanks can be put in at the ends of a line, around an arrow, and around the separators in front of the only
arrow (`Clause.Gap`). Elsewhere they may end a symbol, or be part of the symbol of a conclusion. The kind of an
error is what it says without what changes with the blanks: the line or conjunction it shows and the place.
-/
namespace HornLogic

set_option autoImplicit false

open Text

/-- What is wrong with a line, whatever its text. -/
inductive ParseError.Kind where
  | blankClause
  | emptySymbol
  | arrowCount
  | conjunction (fault : Fault)
  deriving DecidableEq

def ParseError.kind : ParseError → Kind
  | .blankClause => .blankClause
  | .emptySymbol => .emptySymbol
  | .arrowCount _ => .arrowCount
  | .conjunction fault _ _ => .conjunction fault

namespace Clause

/-- A place of a line, by what is in front of it and behind it, where blanks have no meaning. -/
inductive Gap : List Char → List Char → Prop where
  | start {line : List Char} : Gap [] line
  | finish {line : List Char} : Gap line []
  | beforeArrow {before after : List Char} : Gap before ('-' :: '>' :: after)
  | afterArrow {before after : List Char} : Gap (before ++ ['-', '>']) after
  | beforeSeparator {before after right : List Char}
      (sole : SoleArrow (before ++ Conjunction.separator :: after ++ '-' :: '>' :: right)
        (before ++ Conjunction.separator :: after) right) :
      Gap before (Conjunction.separator :: after ++ '-' :: '>' :: right)
  | afterSeparator {before after right : List Char}
      (sole : SoleArrow (before ++ Conjunction.separator :: after ++ '-' :: '>' :: right)
        (before ++ Conjunction.separator :: after) right) :
      Gap (before ++ [Conjunction.separator]) (after ++ '-' :: '>' :: right)

/-- The second line is the first with some blanks more at one place. -/
inductive Spaces : String → String → Prop where
  | insert {before blanks after : List Char} (gap : Gap before after) (blank : allBlank blanks = true) :
      Spaces (String.ofList (before ++ after)) (String.ofList (before ++ blanks ++ after))

end Clause
end HornLogic
