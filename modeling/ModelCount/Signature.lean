/-
Signatures: what a component is remembered by.

A signature is packed like a component. It leaves out every clause whose literals are all still
active: all variables of such a clause are members, so the variable list determines it. Two
signatures are equal exactly if both lists are.
-/
import ModelCount.Component
import ModelCount.Hash

namespace ModelCount

/-- the packed lists; equality of signatures is equality of their words -/
structure Signature where
  words : List Nat
  deriving DecidableEq, Repr, Inhabited

namespace Signature

def ofParts (vars : List Var) (clauses : List ClauseId) : Signature :=
  ⟨vars.map Var.id ++ 0 :: (clauses.map ClauseId.id ++ [0])⟩

/-- the signature of a component without the clauses whose literals are all active -/
def ofComponent (comp : Component) (allActive : ClauseId → Bool) : Signature :=
  ofParts comp.vars (comp.clauses.filter fun c => !allActive c)

/-- the length of the variable list: the place of the first 0 -/
def numVars (s : Signature) : Nat :=
  match s.words.findIdx? (· == 0) with
  | some i => i
  | none => 0

/-- the length of the clause list -/
def numClauses (s : Signature) : Nat := s.words.length - s.numVars - 2

/-- the words and the two machine words that refer to them -/
def sizeInBytes (s : Signature) : Nat := 16 + 4 * s.words.length

def hash (s : Signature) : UInt64 := Hash.ofWords s.words

end Signature

end ModelCount
