/-
The model counter: branch, propagate, decompose, recurse.

A component is counted by deciding one of its variables both ways. After each decision unit
clauses are propagated over the whole formula and what is left of the component is decomposed; the
counts of the parts multiply, the counts of the two branches add up. Every decision gives a
variable a value, so there are at most as many open decisions as variables.
-/
import ModelCount.Decomposer

namespace ModelCount

structure Counter where
  /-- the clauses of the formula, which propagation goes through -/
  clauses : List (List Lit)
  decomposer : Decomposer
  values : Assignment
  /-- the variables that have a value, last first -/
  trail : List Var
  /-- evict after every solved component -/
  evicting : Bool
  /-- decide the smallest variable instead of the one with the best score -/
  lowestFirst : Bool
  deriving Inhabited

namespace Counter

/-- the counter of a list of clauses that makes the given formula -/
def new (f : Formula) (clauses : List (List Int)) (config : Config) : Traced Counter := do
  let d ← Decomposer.new config
  let d ← d.load f
  return ⟨clauses.map (·.map Lit.ofInt), d, .empty f.numVars, [], false, false⟩

/-! ## Assigning and propagating -/

/-- make a literal true and put its variable on the trail -/
def assign (c : Counter) (l : Lit) : Except Fault Counter := do
  return { c with values := ← c.values.assign l, trail := l.var :: c.trail }

/-- take back the values given since the trail had `mark` variables -/
def backtrack (c : Counter) (mark : Nat) : Except Fault Counter := do
  let n := c.trail.length - mark
  let values ← (c.trail.take n).foldlM Assignment.unassign c.values
  return { c with values := values, trail := c.trail.drop n }

/-- what a clause asks for under an assignment -/
inductive Demand where
  /-- nothing: it is satisfied or still has two active literals -/
  | nothing
  /-- its last active literal -/
  | unit (l : Lit)
  /-- the impossible: all its literals are false -/
  | conflict
  deriving DecidableEq, Repr

def anySatisfied (values : Assignment) : List Lit → Except Fault Bool
  | [] => .ok false
  | l :: rest => do
    if ← values.isSatisfied l then return true else anySatisfied values rest

def activeOf (values : Assignment) : List Lit → Except Fault (List Lit)
  | [] => .ok []
  | l :: rest => do
    let active ← values.isActive l
    let others ← activeOf values rest
    return if active then l :: others else others

/-- what a clause asks for: one true literal satisfies it, and only a single active one is forced -/
def demand (values : Assignment) (clause : List Lit) : Except Fault Demand := do
  if ← anySatisfied values clause then return .nothing
  match ← activeOf values clause with
  | [] => return .conflict
  | [l] => return .unit l
  | _ => return .nothing

/-- one pass over the clauses; the answer says whether a value was given, and is `none` on a
conflict -/
def pass : List (List Lit) → Bool → Counter → Except Fault (Option Bool × Counter)
  | [], changed, c => .ok (some changed, c)
  | clause :: rest, changed, c => do
    match ← demand c.values clause with
    | .nothing => pass rest changed c
    | .unit l => pass rest true (← c.assign l)
    | .conflict => return (none, c)

/-- at most so many passes until nothing changes; the answer is false on a conflict -/
def passes : Nat → Counter → Except Fault (Bool × Counter)
  | 0, _ => .error .stepsSpent
  | n + 1, c => do
    match ← pass c.clauses false c with
    | (none, c) => return (false, c)
    | (some false, c) => return (true, c)
    | (some true, c) => passes n c

/-- propagate unit clauses; every pass but the last gives a variable a value -/
def propagate (c : Counter) : Except Fault (Bool × Counter) :=
  passes (c.values.numVars + 1) c

/-! ## Choosing a variable -/

def lowest : List Var → Option Var
  | [] => none
  | v :: rest => some (rest.foldl (fun best w => if w.id < best.id then w else best) v)

/-- the variable with the best score; of several the last -/
def best (d : Decomposer) : List Var → Except Fault (Option Var)
  | [] => .ok none
  | v :: rest => do
    let start := (v, ← d.score v)
    let (v, _) ← rest.foldlM (fun (top : Var × Nat) w => do
      let s ← d.score w
      return if top.2 ≤ s then (w, s) else top) start
    return some v

def prefer (c : Counter) (vars : List Var) : Except Fault (Option Var) :=
  if c.lowestFirst then .ok (lowest vars) else best c.decomposer vars

def choose (c : Counter) (comp : Component) : Except Fault Var := do
  match ← c.prefer comp.vars with
  | some v => return v
  | none => throw .emptyComponent

/-! ## Counting -/

def evict (c : Counter) : Traced Counter := do
  if c.evicting then
    let (_, d) ← c.decomposer.evict
    return { c with decomposer := d }
  else return c

/-- the count of the component that a node solves now: attach it, give it to the node as a factor,
and go on to the next component -/
def record (c : Counter) (node : Node) (index count : Nat) : Traced (Node × Counter) := do
  let d ← c.decomposer.cacheCount index count
  let node ← (node.times count).next
  let c ← { c with decomposer := d }.evict
  return (node, c)

/-- solve the components of a node one after the other, with `solve` for one of them -/
def solveWith (solve : Nat → Counter → Traced (Nat × Counter)) :
    Nat → Node → Counter → Traced (Node × Counter)
  | 0, _, _ => Traced.quiet (.error .stepsSpent)
  | parts + 1, node, c => do
    let (found, d, node) ← c.decomposer.findNext node c.values
    let c := { c with decomposer := d }
    if !found then return (node, c)
    let index ← node.current
    let (count, c) ← solve index c
    let (node, c) ← c.record node index count
    if node.foundUnsat then
      let d ← c.decomposer.removePollutions node
      return (node, { c with decomposer := d })
    solveWith solve parts node c

/-- count what is left of the component of `node` if the values are consistent, with `solve` for
its parts -/
def conquer (solve : Node → Counter → Traced (Node × Counter)) (consistent : Bool) (node : Node)
    (c : Counter) : Traced (Node × Counter) :=
  if consistent then solve node c else return (node.markUnsat, c)

/-- decide a literal, propagate and count the branch, then take everything back -/
def branchWith (solve : Node → Counter → Traced (Node × Counter)) (l : Lit) (node : Node)
    (c : Counter) : Traced (Node × Counter) := do
  let mark := c.trail.length
  let c ← c.assign l
  let (consistent, c) ← Traced.quiet c.propagate
  let (node, c) ← conquer solve consistent node c
  let d ← c.decomposer.clean node
  let c ← { c with decomposer := d }.backtrack mark
  return (node.resetCursor, c)

/-- count the component at a stack index, with `solve` for the parts of its branches -/
def countWith (solve : Node → Counter → Traced (Node × Counter)) (index : Nat) (c : Counter) :
    Traced (Nat × Counter) := do
  let v ← c.choose (← c.decomposer.component index)
  let node := Node.start index c.decomposer.stackSize
  let (node, c) ← branchWith solve v.pos node c
  let (node, c) ← branchWith solve v.neg (← node.changeBranch) c
  return (node.total, c)

/-- Solve the components of a node with at most `depth` open decisions below it. A node has no more
components than there are variables. -/
def solve : Nat → Node → Counter → Traced (Node × Counter)
  | 0, _, _ => Traced.quiet (.error .stepsSpent)
  | depth + 1, node, c =>
    solveWith (countWith (solve depth)) (c.values.numVars + 1) node c

def count (c : Counter) : Traced (Nat × Counter) := do
  let (consistent, c) ← Traced.quiet c.propagate
  if !consistent then return (0, c)
  let node ← c.decomposer.rootNode
  let (node, c) ← solve (c.values.numVars + 1) node c
  return (node.total, c)

end Counter

/-! ## The parts on the stack -/

/-- the components from stack index `start` up, each as its sorted variables and clauses, sorted -/
def Decomposer.partsFrom (d : Decomposer) (start : Nat) : List (List Nat × List Nat) :=
  let parts := (d.stack.drop start).map fun comp =>
    ((comp.vars.map Var.id).mergeSort (· ≤ ·), (comp.clauses.map ClauseId.id).mergeSort (· ≤ ·))
  parts.mergeSort fun a b => decide (a.1 < b.1) || (a.1 == b.1 && !decide (b.2 < a.2))

end ModelCount
