/-
The tree of entries: erasing.

The father of an entry is the entry of the component it was split off from, and every entry lists
its children. An entry is erased either with everything below it (`eraseBelow`) or alone, its
children going to its father (`eraseAlone`). The root is never erased.
-/
import ModelCount.Store.Table

namespace ModelCount.Store

/-- erase one entry: out of its bucket, then out of the store -/
def erase (s : Store) (id : EntryId) : Except Fault Store := do
  require (id ≠ .root) .rootErased
  let e ← s.entry id
  let s ← s.hide id e
  { s with entries := s.entries.erase id.id }.release e.sizeInBytes

def disown (s : Store) (father id : EntryId) : Except Fault Store :=
  s.update father fun f => { f with descendants := swapRemove id f.descendants }

/-! ## With everything below -/

/-- an entry and the entries below it, which are not deeper than `depth` -/
def subtree (s : Store) : Nat → EntryId → Except Fault (List EntryId)
  | 0, _ => .error .stepsSpent
  | depth + 1, id =>
    match s.get? id with
    | none => .ok []
    | some e => do
      let below ← e.descendants.mapM (subtree s depth)
      return id :: below.flatten

/-- erase an entry and everything below it; no branch is longer than there are entries -/
def eraseBelow (s : Store) (id : EntryId) : Except Fault Store := do
  let e ← s.entry id
  if s.has e.father then
    let s ← s.disown e.father id
    (← s.subtree s.size id).foldlM erase s
  else (← s.subtree s.size id).foldlM erase s

/-! ## Alone -/

def adopt (father : EntryId) (s : Store) (child : EntryId) : Except Fault Store := do
  let s ← s.update child fun e => { e with father := father }
  s.update father fun e => { e with descendants := e.descendants ++ [child] }

/-- the children of an entry go to its father, and the entry itself leaves the tree -/
def detach (s : Store) (id : EntryId) : Except Fault Store := do
  let e ← s.entry id
  require (s.has e.father) (.noLiveFather id)
  let s ← s.disown e.father id
  let s ← s.update id fun e => { e with descendants := [] }
  e.descendants.foldlM (adopt e.father) s

/-- erase an entry and nothing below it -/
def eraseAlone (s : Store) (id : EntryId) : Except Fault Store := do
  (← s.detach id).erase id

end ModelCount.Store
