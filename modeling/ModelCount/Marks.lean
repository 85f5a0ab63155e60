/-
Marks: the scratch state of one decomposition.

Every number up to the larger of the last variable and the last long clause owns a slot, with a
mark for the variable and a mark for the clause of that number. The two halves never meet. The
marks serve one super-component at a time: `bind` clears them for it, a traversal marks what it
reaches as seen, and `claim` takes the seen members out as a component and its signature.
-/
import ModelCount.Signature

namespace ModelCount

/-- how far a decomposition has come with a variable -/
inductive VarMark where
  /-- not a candidate: outside the super-component, or assigned -/
  | outside
  /-- a candidate, not reached yet -/
  | unseen
  /-- reached by the running traversal -/
  | seen
  /-- member of a component found before -/
  | claimed
  deriving DecidableEq, Repr, Inhabited

/-- how far a decomposition has come with a clause -/
inductive ClauseMark where
  /-- outside the super-component, or excluded as satisfied -/
  | outside
  /-- listed, not reached yet -/
  | unseen
  /-- reached by the running traversal, with or without an assigned literal -/
  | seen (allActive : Bool)
  /-- member of a component found before -/
  | claimed
  deriving DecidableEq, Repr, Inhabited

/-- the marks of the variable and of the clause of one number -/
structure Slot where
  var : VarMark
  clause : ClauseMark
  deriving DecidableEq, Repr, Inhabited

/-- the slot of a number that no super-component mentions -/
def Slot.clear : Slot := ⟨.outside, .outside⟩

/-- a slot for every number, and the super-component that the slots speak about -/
structure Marks where
  slots : Array Slot
  /-- stack index and entry of the super-component that is served -/
  binding : Option (Nat × EntryId)
  deriving Inhabited

namespace Marks

def blank : Marks := ⟨#[], none⟩

/-- cleared slots for all variables and long clauses, serving no super-component -/
def sized (maxVar : Var) (maxClause : ClauseId) : Marks :=
  ⟨Array.replicate (max maxVar.index maxClause.index + 1) Slot.clear, none⟩

/-- how many slots there are, that of the sentinel included -/
def numSlots (m : Marks) : Nat := m.slots.size

def clear (m : Marks) : Marks :=
  { m with slots := Array.replicate m.slots.size Slot.clear }

/-- clear every slot and serve the given super-component -/
def bind (m : Marks) (index : Nat) (comp : Component) : Except Fault Marks :=
  if m.slots.isEmpty then .error .marksEmpty
  else .ok { m.clear with binding := some (index, comp.id) }

/-- the stack index of the super-component that is served -/
def boundIndex (m : Marks) : Option Nat := m.binding.map Prod.fst

/-! ## Single marks -/

def var (m : Marks) (v : Var) : Except Fault VarMark :=
  match m.slots[v.index]? with
  | some s => .ok s.var
  | none => .error .outOfRange

def clause (m : Marks) (c : ClauseId) : Except Fault ClauseMark :=
  match m.slots[c.index]? with
  | some s => .ok s.clause
  | none => .error .outOfRange

/-- mark a variable; one that has no slot is left out -/
def putVar (m : Marks) (v : Var) (x : VarMark) : Marks :=
  { m with slots := m.slots.modify v.index fun s => { s with var := x } }

/-- mark a clause; one that has no slot is left out -/
def putClause (m : Marks) (c : ClauseId) (x : ClauseMark) : Marks :=
  { m with slots := m.slots.modify c.index fun s => { s with clause := x } }

/-- mark a variable that has a slot -/
def setVar (m : Marks) (v : Var) (x : VarMark) : Except Fault Marks :=
  if v.index < m.slots.size then .ok (m.putVar v x) else .error .outOfRange

/-- mark a clause that has a slot -/
def setClause (m : Marks) (c : ClauseId) (x : ClauseMark) : Except Fault Marks :=
  if c.index < m.slots.size then .ok (m.putClause c x) else .error .outOfRange

def setVars (m : Marks) (vars : List Var) (x : VarMark) : Except Fault Marks :=
  vars.foldlM (fun m v => m.setVar v x) m

def setClauses (m : Marks) (clauses : List ClauseId) (x : ClauseMark) : Except Fault Marks :=
  clauses.foldlM (fun m c => m.setClause c x) m

/-! ## Taking a component out -/

/-- what a sweep fills side by side: a component, and the words of its signature -/
structure Parcel where
  part : Component
  buffer : Array Nat

namespace Parcel

/-- a component with nothing in it yet; of the buffer only its room is used again -/
def fresh (buffer : Array Nat) : Parcel := ⟨.blank, buffer.shrink 0⟩

def addVar (p : Parcel) (v : Var) : Parcel := ⟨p.part.addVar v, p.buffer.push v.id⟩

def addClause (p : Parcel) (c : ClauseId) (allActive : Bool) : Parcel :=
  ⟨p.part.addClause c, if allActive then p.buffer else p.buffer.push c.id⟩

def closeVars (p : Parcel) : Parcel := ⟨p.part.closeVars, p.buffer.push 0⟩

def closeClauses (p : Parcel) : Parcel := ⟨p.part.closeClauses, p.buffer.push 0⟩

end Parcel

/-- pack the seen variables of a list, which become claimed -/
def claimVars (m : Marks) (p : Parcel) : List Var → Except Fault (Parcel × Marks)
  | [] => .ok (p, m)
  | v :: rest => do
    if (← m.var v) = .seen then claimVars (m.putVar v .claimed) (p.addVar v) rest
    else claimVars m p rest

/-- pack the seen clauses of a list, which become claimed -/
def claimClauses (m : Marks) (p : Parcel) : List ClauseId → Except Fault (Parcel × Marks)
  | [] => .ok (p, m)
  | c :: rest => do
    match ← m.clause c with
    | .seen allActive => claimClauses (m.putClause c .claimed) (p.addClause c allActive) rest
    | _ => claimClauses m p rest

/-- pack the seen members of the super-component, in its order, into a buffer that may be in use
since earlier sweeps -/
def claimInto (buffer : Array Nat) (m : Marks) (comp : Component) : Except Fault (Parcel × Marks) :=
  match m.binding with
  | none => .error .marksUnbound
  | some (_, id) =>
    if id ≠ comp.id then .error .marksBoundElsewhere
    else do
      let (p, m) ← m.claimVars (.fresh buffer) comp.vars
      let (p, m) ← m.claimClauses p.closeVars comp.clauses
      return (p.closeClauses, m)

/-- the seen members of the super-component, in its order, as a component and its signature -/
def claim (m : Marks) (comp : Component) : Except Fault (Component × Signature × Marks) := do
  let (p, m) ← claimInto #[] m comp
  return (p.part, ⟨p.buffer.toList⟩, m)

end Marks

end ModelCount
