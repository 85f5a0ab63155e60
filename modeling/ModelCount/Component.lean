/-
Components: connected parts of a formula, as variables and long clauses.

Both lists stand in one buffer, each ended by the sentinel, with the start of the clause list
beside them:

    v v v 0 | c c 0
              clausesStart

A component is filled variables first (`addVar`, `closeVars`, `addClause`, `closeClauses`);
`ofParts` does all of it. One that is to be filled step by step may ask for room beforehand
(`withRoom`); the room bounds nothing that is added later.
-/
import ModelCount.Fault

namespace ModelCount

/-- a component: its variables and its long clauses, packed -/
structure Component where
  /-- its entry in the store, once it has one -/
  id : EntryId
  words : Array Nat
  /-- where the clause list starts; 0 while the variable list is open -/
  clausesStart : Nat
  deriving DecidableEq, Repr, Inhabited

namespace Component

/-! ## Filling -/

/-- nothing filled in yet -/
def blank : Component := ⟨.none, #[], 0⟩

/-- the longest buffer: a word takes four bytes, and no buffer takes 2^63 bytes -/
def maxWords : Nat := 2305843009213693951

/-- nothing filled in yet, with room for so many variables and clauses and the two sentinels -/
def withRoom (numVars numClauses : Nat) : Except Fault Component := do
  require (numVars + numClauses + 2 ≤ maxWords) .noRoom
  return blank

def addVar (comp : Component) (v : Var) : Component :=
  { comp with words := comp.words.push v.id }

/-- end the variable list; the clause list starts here -/
def closeVars (comp : Component) : Component :=
  { comp with words := comp.words.push 0, clausesStart := comp.words.size + 1 }

def addClause (comp : Component) (c : ClauseId) : Component :=
  { comp with words := comp.words.push c.id }

def closeClauses (comp : Component) : Component :=
  { comp with words := comp.words.push 0 }

/-- the same members under another entry -/
def withId (comp : Component) (id : EntryId) : Component := { comp with id := id }

def ofParts (vars : List Var) (clauses : List ClauseId) : Component :=
  (clauses.foldl addClause (vars.foldl addVar blank).closeVars).closeClauses

def empty : Component := ofParts [] []

/-- all variables and all long clauses up to the given ones -/
def whole (maxVar : Var) (maxClause : ClauseId) : Component :=
  ofParts ((List.range maxVar.id).map fun i => ⟨i + 1⟩)
    ((List.range maxClause.id).map fun i => ⟨i + 1⟩)

/-! ## Reading -/

def numVars (comp : Component) : Nat := comp.clausesStart - 1

/-- the length of the clause list -/
def numClauses (comp : Component) : Nat := comp.words.size - comp.clausesStart - 1

def isEmpty (comp : Component) : Bool := comp.numVars == 0

/-- the variables, in the order they were added -/
def vars (comp : Component) : List Var :=
  (comp.words.toList.take comp.numVars).map Var.mk

/-- the long clauses, in the order they were added -/
def clauses (comp : Component) : List ClauseId :=
  ((comp.words.toList.drop comp.clausesStart).take comp.numClauses).map ClauseId.mk

def varAt (comp : Component) (i : Nat) : Except Fault Var :=
  if i < comp.numVars then
    match comp.words[i]? with
    | some w => .ok ⟨w⟩
    | none => .error .outOfRange
  else .error .contract

def containsVar (comp : Component) (v : Var) : Bool := comp.vars.contains v

end Component

end ModelCount
