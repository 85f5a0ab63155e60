/-
Nodes of the search.

A node refers to the component stack by index only. `superIndex` is the component that the node
decides; the stack from `base` on holds the components that the node found in it, and those from
`base` up to `cursor` are not solved yet. They are taken from the top.

A node has two branches. A branch multiplies the factors it is given; its count 0 says that no
factor has come yet, until the branch is found unsatisfiable and 0 becomes final.
-/
import ModelCount.Fault

namespace ModelCount

structure Branch where
  count : Nat
  unsat : Bool
  deriving DecidableEq, Repr, Inhabited

namespace Branch

/-- no factor yet, not found unsatisfiable -/
def start : Branch := ⟨0, false⟩

/-- take a factor in: the first is stored, a zero settles the branch, later ones are then ignored -/
def times (b : Branch) (factor : Nat) : Branch :=
  if b.unsat then b
  else
    { count := if b.count = 0 then factor else b.count * factor
      unsat := factor == 0 }

/-- a branch settled as unsatisfiable; whatever it had counted is dropped -/
def settled : Branch := ⟨0, true⟩

end Branch

structure Node where
  superIndex : Nat
  base : Nat
  cursor : Nat
  onSecond : Bool
  first : Branch
  second : Branch
  deriving DecidableEq, Repr, Inhabited

namespace Node

/-- a node for the component at `superIndex`, whose own components will stand from `base` on -/
def start (superIndex base : Nat) : Node :=
  ⟨superIndex, base, base, false, Branch.start, Branch.start⟩

/-! ## The cursor -/

/-- let the cursor start at `stop` -/
def setEnd (node : Node) (stop : Nat) : Except Fault Node :=
  if node.base ≤ stop then .ok { node with cursor := stop } else .error .contract

/-- some component is not solved yet -/
def hasUnprocessed (node : Node) : Bool := decide (node.base < node.cursor)

def next (node : Node) : Except Fault Node :=
  if node.hasUnprocessed then .ok { node with cursor := node.cursor - 1 } else .error .contract

/-- no component is left -/
def resetCursor (node : Node) : Node := { node with cursor := node.base }

/-- stack index of the component to solve now -/
def current (node : Node) : Except Fault Nat :=
  if node.hasUnprocessed then .ok (node.cursor - 1) else .error .noRemaining

/-! ## The branches -/

/-- the branch that is being counted -/
def active (node : Node) : Branch := if node.onSecond then node.second else node.first

def setActive (node : Node) (b : Branch) : Node :=
  if node.onSecond then { node with second := b } else { node with first := b }

def foundUnsat (node : Node) : Bool := node.active.unsat

def changeBranch (node : Node) : Except Fault Node :=
  if node.onSecond then .error .secondBranch else .ok { node with onSecond := true }

def markUnsat (node : Node) : Node := node.setActive .settled

/-- give the active branch a factor -/
def times (node : Node) (factor : Nat) : Node := node.setActive (node.active.times factor)

/-- the active branch may still be satisfiable and has a component left -/
def anotherProcessible (node : Node) : Bool := !node.foundUnsat && node.hasUnprocessed

def branchCount (node : Node) (branch : Nat) : Except Fault Nat :=
  match branch with
  | 0 => .ok node.first.count
  | 1 => .ok node.second.count
  | _ => .error .outOfRange

def total (node : Node) : Nat := node.first.count + node.second.count

end Node

end ModelCount
