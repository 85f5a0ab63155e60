/-
Models: the truth assignments that satisfy a list of clauses.

Clauses are lists of signed numbers, as they are given from outside.
-/
import ModelCount.Fault

namespace ModelCount.Models

/-- a signed number under a total assignment -/
def literalHolds (value : Nat → Bool) (n : Int) : Bool :=
  if 0 < n then value n.natAbs else !value n.natAbs

def clauseHolds (value : Nat → Bool) (clause : List Int) : Bool :=
  clause.any (literalHolds value)

def holds (value : Nat → Bool) (clauses : List (List Int)) : Bool :=
  clauses.all (clauseHolds value)

/-- the assignment whose value of variable `v` is bit `v - 1` of a number -/
def ofBits (bits v : Nat) : Bool := bits.testBit (v - 1)

/-- the number of models over the variables 1 to `numVars`, by trying every assignment -/
def count (numVars : Nat) (clauses : List (List Int)) : Nat :=
  Nat.fold (Nat.pow 2 numVars)
    (fun bits _ found => if holds (ofBits bits) clauses then found + 1 else found) 0

/-- the same, as long as an assignment fits a machine word -/
def bruteForce (numVars : Nat) (clauses : List (List Int)) : Except Fault Nat :=
  if numVars < 64 then .ok (count numVars clauses) else .error .overflow

end ModelCount.Models
