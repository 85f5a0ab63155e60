/-
Eviction: making room by erasing old entries.

A round erases, of the entries flagged deletable, those that are no younger than their median.
Rounds follow each other until the memory estimate is within the budget or nothing is deletable.
Every round erases an entry, so there are no more rounds than live entries.
-/
import ModelCount.Store.Tree

namespace ModelCount.Store

/-- the deletable entries other than the root, by ascending id -/
def candidates (s : Store) : List (EntryId × Entry) :=
  s.live.filter fun p => p.1 != .root && p.2.deletable

/-- the time that half of the given times do not exceed -/
def median (times : List Nat) : Nat :=
  (times.mergeSort (· ≤ ·))[times.length / 2]?.getD 0

/-- the candidates that one round erases -/
def victims (s : Store) : List EntryId :=
  let cutoff := median (s.candidates.map fun p => p.2.time)
  (s.candidates.filter fun p => decide (p.2.time ≤ cutoff)).map Prod.fst

/-- one round; the answer is the number of entries erased -/
def evictRound (s : Store) : Traced (Nat × Store) := do
  if s.candidates.isEmpty then return (0, s)
  let deletable := s.candidates.length
  let victims := s.victims
  let s ← victims.foldlM (fun s id => Traced.quiet (s.eraseAlone id)) s
  let s ← s.shrink
  let s := s.refresh
  Traced.emit (.roundDone victims.length deletable s.size s.memory)
  return (victims.length, s)

/-- at most so many rounds until the estimate is within the budget, after `erased` entries were erased -/
def evictRounds (budget : Nat) : Nat → Nat → Store → Traced (Nat × Store)
  | 0, _, _ => Traced.quiet (.error .stepsSpent)
  | rounds + 1, erased, s => do
    let s := s.refresh
    if s.memory ≤ budget then return (erased, s)
    let (n, s) ← s.evictRound
    if n = 0 then return (erased, s)
    evictRounds budget rounds (erased + n) s

/-- evict until the estimate is within the budget; the answer is the number of entries erased -/
def evict (s : Store) (budget : Nat) : Traced (Nat × Store) := do
  let (erased, s) ← evictRounds budget (s.size + 1) 0 s
  if 0 < erased then Traced.emit (.evicted erased s.memory)
  return (erased, s)

end ModelCount.Store
