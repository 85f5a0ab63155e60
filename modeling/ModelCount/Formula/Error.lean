/-
What is wrong with a clause that a formula refuses.
-/

namespace ModelCount.Formula

/-- the first offence of a refused clause -/
inductive Error where
  /-- the clause has no literal -/
  | emptyClause
  /-- 0 stands among the literals -/
  | zeroLiteral
  /-- a literal names a variable that the formula does not have -/
  | variableOutOfRange (lit : Int) (var numVars : Nat)
  /-- two literals name the same variable -/
  | repeatedVariable (var : Nat)
  deriving DecidableEq, Repr

def Error.message : Error → String
  | emptyClause => "empty clause"
  | zeroLiteral => "literal 0 is reserved as the clause terminator"
  | variableOutOfRange lit var numVars =>
    s!"literal {lit} refers to variable {var}, but the formula has only {numVars} variables"
  | repeatedVariable var => s!"variable {var} occurs more than once in a clause"

end ModelCount.Formula
