/-
The bucket table: how a count is found again.

An entry becomes visible when a count is attached to it; it then stands at the head of the chain
of its bucket, which runs through the `next` links. The table doubles when there are more live
entries than buckets, and shrinks after an eviction; either way it is built anew, the visible
entries being linked by ascending id. A chain holds a live entry at most once, so a walk along a
chain is at its end after as many steps as there are live entries.
-/
import ModelCount.Store.Basic
import ModelCount.Node
import ModelCount.Traced

namespace ModelCount.Store

def bucketOf (s : Store) (hash : UInt64) : Nat := hash.toNat &&& s.mask

def head (s : Store) (bucket : Nat) : EntryId := s.heads[bucket]?.getD .none

/-- let the chain of a bucket start at an entry -/
def setHead (s : Store) (bucket : Nat) (id : EntryId) : Store :=
  { s with heads := s.heads.insert bucket id }

/-! ## Linking and unlinking -/

/-- put an entry at the head of its bucket -/
def link (s : Store) (id : EntryId) (e : Entry) : Store :=
  let bucket := s.bucketOf e.hash
  (s.put id { e with next := s.head bucket }).setHead bucket id

/-- from `place` on, the link that leads to `id` leads to `next` instead -/
def bypass (s : Store) (id next : EntryId) : Nat → EntryId → Except Fault Store
  | 0, _ => .error .stepsSpent
  | steps + 1, place =>
    if place.isNone then .ok s
    else do
      let e ← s.entry place
      if e.next = id then return s.put place { e with next := next }
      else bypass s id next steps e.next

/-- in a bucket, whatever leads to `id` leads to `next` instead -/
def skip (s : Store) (id next : EntryId) (bucket : Nat) : Except Fault Store :=
  if s.head bucket = id then .ok (s.setHead bucket next)
  else s.bypass id next (s.size + 1) (s.head bucket)

/-- take an entry out of the chain of its bucket -/
def unlink (s : Store) (id : EntryId) : Except Fault Store := do
  let e ← s.entry id
  let bucket := s.bucketOf e.hash
  let s ← s.skip id e.next bucket
  s.update id fun e => { e with next := .none }

/-- take an entry out of its bucket if it stands in one -/
def hide (s : Store) (id : EntryId) (e : Entry) : Except Fault Store :=
  if e.hasCount then s.unlink id else .ok s

/-! ## The size of the table -/

/-- build the table anew with the given number of buckets -/
def rebuild (s : Store) (buckets : Nat) : Traced Store := do
  Traced.emit (.rehashed s.buckets buckets)
  let visible := s.live.filter fun p => p.2.hasCount
  return visible.foldl (fun s p => s.link p.1 p.2) { s with buckets := buckets, mask := buckets - 1, heads := ∅ }

def grow (s : Store) : Traced Store :=
  if s.buckets < s.size then s.rebuild (2 * s.buckets) else return s

/-- halve `buckets` while it is above `least` and more than four times `entries` -/
def shrunk (least entries buckets : Nat) : Nat :=
  if h : least < buckets ∧ 4 * entries < buckets then shrunk least entries (buckets / 2)
  else buckets
termination_by buckets
decreasing_by omega

/-- shrink the table if it is too large for the live entries -/
def shrink (s : Store) : Traced Store :=
  let buckets := shrunk s.minBuckets s.size s.buckets
  if buckets < s.buckets then s.rebuild buckets else return s

/-! ## Counts -/

/-- the count of a signature among the entries of a chain -/
def findFrom (s : Store) (signature : Signature) : Nat → EntryId → Except Fault (Option Nat)
  | 0, _ => .error .stepsSpent
  | steps + 1, place =>
    if place.isNone then .ok none
    else do
      let e ← s.entry place
      match e.count with
      | some count =>
        if e.signature = signature then return some count
        else findFrom s signature steps e.next
      | none => findFrom s signature steps e.next

/-- the count of a signature, if a visible entry has it -/
def find (s : Store) (signature : Signature) : Except Fault (Option Nat) :=
  s.findFrom signature (s.size + 1) (s.head (s.bucketOf signature.hash))

/-- look a signature up; a count that is found becomes a factor of the node -/
def lookup (s : Store) (node : Node) (signature : Signature) :
    Except Fault (Bool × Store × Node) := do
  let found ← s.find signature
  let s := { s with lookups := s.lookups + 1 }
  match found with
  | some count => return (true, { s with hits := s.hits + 1 }, node.times count)
  | none => return (false, s, node)

/-- attach a count to an entry, which becomes visible -/
def attach (s : Store) (id : EntryId) (count : Nat) : Traced Store := do
  let s ← s.grow
  let e ← s.entry id
  let s ← s.hide id e
  let counted := { e with count := some count, time := s.time }
  let s := s.link id counted
  let s ← s.release e.sizeInBytes
  return { s with entryBytes := s.entryBytes + counted.sizeInBytes }

end ModelCount.Store
