/-
The store of solved components: entries by id, the bucket table that lookups go through, and the
clock, counters and memory figures.

Ids are minted in order and never used twice; an erased entry leaves nothing behind. Entry 1 is
the root. Of the bucket table only the heads of the chains that were ever used are kept, the
other buckets being empty.
-/
import Std.Data.TreeMap
import ModelCount.Store.Entry

namespace ModelCount

structure Store where
  /-- the live entries by id -/
  entries : Std.TreeMap Nat Entry
  /-- the next id to mint -/
  nextId : Nat
  /-- number of buckets, a power of two -/
  buckets : Nat
  /-- the bits of a hash that choose its bucket -/
  mask : Nat
  /-- the first entry of each bucket; a bucket without one is empty -/
  heads : Std.TreeMap Nat EntryId
  /-- the table never shrinks below this -/
  minBuckets : Nat
  /-- the clock; every minted entry advances it -/
  time : Nat
  /-- signatures looked up so far -/
  lookups : Nat
  /-- lookups that found a count -/
  hits : Nat
  /-- the sizes of all live entries together -/
  entryBytes : Nat
  /-- the memory estimate, as last refreshed -/
  memory : Nat
  deriving Inhabited

namespace Store

/-! ## Entries -/

def size (s : Store) : Nat := s.entries.size

def get? (s : Store) (id : EntryId) : Option Entry := s.entries[id.id]?

def has (s : Store) (id : EntryId) : Bool := (s.get? id).isSome

/-- the live entry of an id that must have one -/
def entry (s : Store) (id : EntryId) : Except Fault Entry :=
  match s.get? id with
  | some e => .ok e
  | none => .error (.noEntry id)

/-- write an entry without accounting for its size -/
def put (s : Store) (id : EntryId) (e : Entry) : Store :=
  { s with entries := s.entries.insert id.id e }

/-- change a live entry without changing its size -/
def update (s : Store) (id : EntryId) (f : Entry → Entry) : Except Fault Store := do
  return s.put id (f (← s.entry id))

/-- the live entries by ascending id -/
def live (s : Store) : List (EntryId × Entry) :=
  s.entries.toList.map fun p => (⟨p.1⟩, p.2)

/-- give a number of bytes back -/
def release (s : Store) (bytes : Nat) : Except Fault Store :=
  if bytes ≤ s.entryBytes then .ok { s with entryBytes := s.entryBytes - bytes }
  else .error .overflow

/-- a new entry with its size -/
def incorporate (s : Store) (id : EntryId) (e : Entry) : Store :=
  { s.put id e with entryBytes := s.entryBytes + e.sizeInBytes }

/-! ## Memory -/

/-- four bytes for each bucket and for each live entry's id, and the entries themselves -/
def estimate (s : Store) : Nat := 4 * s.buckets + 4 * s.size + s.entryBytes

def refresh (s : Store) : Store := { s with memory := s.estimate }

/-! ## Beginning -/

/-- the store with 2^bits empty buckets and nothing in it -/
def empty (bits : Nat) : Except Fault Store :=
  if bits ≤ 31 then
    .ok (refresh
      { entries := ∅, nextId := 1, buckets := Nat.pow 2 bits, mask := Nat.pow 2 bits - 1, heads := ∅,
        minBuckets := Nat.pow 2 bits, time := 0, lookups := 0, hits := 0, entryBytes := 0, memory := 0 })
  else .error .tableBits

/-- forget all entries and begin with the root; the size of the table and the counters stay -/
def plant (s : Store) (signature : Signature) : Store :=
  let bare := { s with entries := ∅, heads := ∅, entryBytes := 0, time := 1 }
  { bare.incorporate .root (.fresh signature .none 1) with nextId := 2 }.refresh

/-! ## Minting and flagging -/

/-- a fresh entry for a component split off from `father` -/
def mint (s : Store) (signature : Signature) (father : EntryId) :
    Except Fault (EntryId × Store) := do
  require (s.has father) (.noEntry father)
  require (s.nextId + 1 < 4294967296) (.idsSpent s.nextId)
  let id : EntryId := ⟨s.nextId⟩
  let s := { s with time := s.time + 1, nextId := s.nextId + 1 }
  let s := s.incorporate id (.fresh signature father s.time)
  let s ← s.update father fun e => { e with descendants := e.descendants ++ [id] }
  return (id, s)

def setDeletable (s : Store) (id : EntryId) : Except Fault Store :=
  s.update id Entry.setDeletable

end Store

end ModelCount
