/-
Entries: what the store remembers of one component.

An entry is a node of the tree of entries (its father is the entry of the component it was split
off from) and, once its count is known, a link in the chain of its bucket.
-/
import ModelCount.Signature

namespace ModelCount

/-- what is remembered of one component, with its place in the tree and in its bucket -/
structure Entry where
  signature : Signature
  /-- the model count, once known -/
  count : Option Nat
  /-- when the entry was made or last given a count -/
  time : Nat
  /-- its component has left the component stack -/
  deletable : Bool
  father : EntryId
  descendants : List EntryId
  /-- the next entry in the same bucket -/
  next : EntryId
  deriving DecidableEq, Repr, Inhabited

/-- the bytes of a count in binary; 0 takes none -/
def countBytes (n : Nat) : Nat := if n = 0 then 0 else (n.log2 + 8) / 8

/-- take one element out of a list; the last element takes its place -/
def swapRemove {α : Type} [DecidableEq α] (x : α) : List α → List α
  | [] => []
  | y :: rest =>
    if y = x then
      match rest.getLast? with
      | none => []
      | some z => z :: rest.dropLast
    else y :: swapRemove x rest

namespace Entry

/-- a fresh entry, without count, not deletable, outside all buckets -/
def fresh (signature : Signature) (father : EntryId) (time : Nat) : Entry :=
  ⟨signature, none, time, false, father, [], .none⟩

def hash (e : Entry) : UInt64 := e.signature.hash

def hasCount (e : Entry) : Bool := e.count.isSome

/-- the fixed part, the words of the signature and the bytes of the count. The descendants are left
out, so that the size changes only when a count is attached. -/
def sizeInBytes (e : Entry) : Nat :=
  96 + 4 * e.signature.words.length + (e.count.map countBytes).getD 0

/-- its component has left the component stack -/
def setDeletable (e : Entry) : Entry := { e with deletable := true }

end Entry

end ModelCount
