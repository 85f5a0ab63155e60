/-
Partial truth assignments.

The table holds a value for every literal, so that each question is one look-up: making a literal
true also makes its negation false.
-/
import ModelCount.Literal

namespace ModelCount

inductive Value where
  | isFalse
  | isTrue
  | unassigned
  deriving DecidableEq, Repr, Inhabited

/-- values of the literals of the variables 1 to some number -/
structure Assignment where
  values : Array Value
  deriving Inhabited

namespace Assignment

/-- the assignment of `numVars` variables in which none has a value -/
def empty (numVars : Nat) : Assignment :=
  ⟨Array.replicate (2 * (numVars + 1)) .unassigned⟩

def numVars (a : Assignment) : Nat := a.values.size / 2 - 1

def value (a : Assignment) (l : Lit) : Except Fault Value :=
  match a.values[l.index]? with
  | some x => .ok x
  | none => .error .outOfRange

/-- the literal has no value -/
def isActive (a : Assignment) (l : Lit) : Except Fault Bool :=
  return (← a.value l) == .unassigned

def isSatisfied (a : Assignment) (l : Lit) : Except Fault Bool :=
  return (← a.value l) == .isTrue

/-- the literal is false -/
def isResolved (a : Assignment) (l : Lit) : Except Fault Bool :=
  return (← a.value l) == .isFalse

def eitherSatisfied (a : Assignment) (l m : Lit) : Except Fault Bool := do
  if ← a.isSatisfied l then return true else a.isSatisfied m

def bothActive (a : Assignment) (l m : Lit) : Except Fault Bool := do
  if ← a.isActive l then a.isActive m else return false

def isVarActive (a : Assignment) (v : Var) : Except Fault Bool := a.isActive v.pos

/-- the cells of both literals -/
def write (a : Assignment) (l m : Lit) (x y : Value) : Except Fault Assignment :=
  if l.index < a.values.size ∧ m.index < a.values.size then
    .ok ⟨(a.values.setIfInBounds l.index x).setIfInBounds m.index y⟩
  else .error .outOfRange

/-- make a literal true and its negation false -/
def assign (a : Assignment) (l : Lit) : Except Fault Assignment :=
  a.write l (-l) .isTrue .isFalse

def unassign (a : Assignment) (v : Var) : Except Fault Assignment :=
  a.write v.pos v.neg .unassigned .unassigned

def assignAll (a : Assignment) (lits : List Lit) : Except Fault Assignment :=
  lits.foldlM assign a

/-- the variables without a value, ascending -/
def activeVars (a : Assignment) : List Var :=
  ((List.range a.numVars).map fun i => Var.mk (i + 1)).filter fun v =>
    a.values[v.pos.index]? == some .unassigned

end Assignment

end ModelCount
