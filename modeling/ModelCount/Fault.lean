/-
Faults: the ways in which an operation is refused.

A fault ends the run that meets it. Some faults are worded for the caller; the others (an index
past the end of a table, a counter that leaves its word, a call outside an operation's contract)
carry no text.
-/
import ModelCount.Ident

namespace ModelCount

inductive Fault where
  /-- variable 0 was asked for -/
  | zeroVariable
  /-- clause 0 was asked for -/
  | zeroClause
  /-- literal 0 was asked for -/
  | zeroLiteral
  /-- the scratch marks have no cells yet -/
  | marksEmpty
  /-- the scratch marks serve no super-component yet -/
  | marksUnbound
  /-- the scratch marks serve another super-component -/
  | marksBoundElsewhere
  /-- more than 31 bits were asked for the bucket table -/
  | tableBits
  /-- the store holds no such entry -/
  | noEntry (id : EntryId)
  /-- the root entry was to be erased -/
  | rootErased
  /-- the father of an entry that is to be taken out of the tree is gone -/
  | noLiveFather (id : EntryId)
  /-- the component stack is not that high -/
  | stackIndex (index : Nat)
  /-- the component stack does not hold the root component alone -/
  | notFresh
  /-- the node has no component left to solve -/
  | noRemaining
  /-- the node is on its second branch already -/
  | secondBranch
  /-- a component without variables has no variable to branch on -/
  | emptyComponent
  /-- an index lies past the end of a table -/
  | outOfRange
  /-- a score has reached the end of its machine word -/
  | scoreFull
  /-- the entry ids are used up: `next`, the one to mint next, is the last of its machine word -/
  | idsSpent (next : Nat)
  /-- a number does not fit its machine word -/
  | overflow
  /-- a buffer was asked for that no memory can hold -/
  | noRoom
  /-- an operation was called outside its contract -/
  | contract
  /-- a loop has used up the steps it was given -/
  | stepsSpent
  deriving DecidableEq, Repr

def Fault.message : Fault → Option String
  | zeroVariable => some "Variable IDs must be >= 1"
  | zeroClause => some "Clause IDs must be >= 1"
  | zeroLiteral => some "DIMACS literal must be non-zero"
  | marksEmpty => some "Archetype is not initialized"
  | marksUnbound => some "Archetype is not bound to a super-component"
  | marksBoundElsewhere => some "Archetype is bound to another super-component"
  | tableBits => some "Cache bits should be in the range 0..=31"
  | noEntry id => some s!"No cache entry {id.text}"
  | rootErased => some "The root entry is never erased"
  | noLiveFather id => some s!"Entry {id.text} has no live father"
  | stackIndex index => some s!"Stack index {index} out of bounds"
  | notFresh => some "Manager is not freshly initialized"
  | noRemaining => some "No remaining component"
  | secondBranch => some "Already on the second branch"
  | emptyComponent => some "components are never empty"
  | outOfRange | scoreFull | idsSpent _ | overflow | noRoom | contract | stepsSpent => none

/-- refuse unless a condition holds -/
def require (p : Prop) [Decidable p] (fault : Fault) : Except Fault Unit :=
  if p then .ok () else .error fault

def Var.checked (n : Nat) : Except Fault Var :=
  if n = 0 then .error .zeroVariable else .ok ⟨n⟩

def ClauseId.checked (n : Nat) : Except Fault ClauseId :=
  if n = 0 then .error .zeroClause else .ok ⟨n⟩

end ModelCount
