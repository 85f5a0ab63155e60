/-
The explorer finds the component of a variable inside a super-component.

It is a breadth-first walk over the links: variables are nodes, binary clauses and clauses that
are not excluded join them. The list of reached variables grows at its end while it is walked
from its start. On the way every variable is scored by the clauses and binary links that were
used at it.

A ternary clause is excluded if one of its other literals is true. A longer clause is excluded if
one of its other literals belongs to a variable outside the candidates and is not false, since
then it may be satisfied from outside; whatever the visit did before it met that literal is undone.
-/
import ModelCount.Assignment
import ModelCount.Node
import ModelCount.Adjacency
import ModelCount.Marks
import ModelCount.Traced

namespace ModelCount

/-- the links of a formula and the scratch state of walks over them -/
structure Explorer where
  maxVar : Var
  maxClause : ClauseId
  adjacency : Adjacency
  /-- for each variable, how often the last walks used it -/
  scores : Array Nat
  /-- the variables of the last walk, in the order they were reached -/
  reached : Array Var
  marks : Marks
  deriving Inhabited

namespace Explorer

def blank : Explorer := ⟨.sentinel, .sentinel, ⟨#[], #[]⟩, #[], #[], .blank⟩

def ofFormula (f : Formula) : Explorer where
  maxVar := f.maxVar
  maxClause := f.maxClause
  adjacency := .ofFormula f
  scores := Array.replicate (f.maxVar.index + 1) 0
  reached := #[]
  marks := .sized f.maxVar f.maxClause

def score (e : Explorer) (v : Var) : Except Fault Nat :=
  match e.scores[v.index]? with
  | some s => .ok s
  | none => .error .outOfRange

/-! ## Starting at a super-component -/

/-- an unassigned variable becomes a candidate and its score starts over -/
def offer (values : Assignment) (e : Explorer) (v : Var) : Except Fault Explorer := do
  if ← values.isVarActive v then
    if v.index < e.marks.numSlots ∧ v.index < e.scores.size then
      return { e with
        marks := e.marks.putVar v .unseen
        scores := e.scores.setIfInBounds v.index 0 }
    else throw .outOfRange
  else return e

/-- serve the super-component at a stack index: its unassigned variables and all its clauses become
unseen -/
def prepare (e : Explorer) (index : Nat) (comp : Component) (values : Assignment) :
    Except Fault Explorer := do
  let marks ← e.marks.bind index comp
  let e ← comp.vars.foldlM (offer values) { e with marks := marks }
  let marks ← e.marks.setClauses comp.clauses .unseen
  return { e with marks := marks }

/-- a walk may start at the variable -/
def isCandidate (e : Explorer) (v : Var) (values : Assignment) : Except Fault Bool := do
  require (v.id ≤ e.maxVar.id) .contract
  if (← e.marks.var v) = .unseen then values.isVarActive v else return false

/-! ## Steps of a walk -/

def raise (e : Explorer) (v : Var) : Except Fault Explorer := do
  let s ← e.score v
  if s + 1 < 4294967296 then return { e with scores := e.scores.setIfInBounds v.index (s + 1) }
  else throw .scoreFull

def lower (e : Explorer) (v : Var) : Except Fault Explorer := do
  let s ← e.score v
  if 0 < s then return { e with scores := e.scores.setIfInBounds v.index (s - 1) }
  else throw .overflow

def reach (e : Explorer) (v : Var) : Explorer :=
  { e with marks := e.marks.putVar v .seen, reached := e.reached.push v }

/-- a variable is reached unless it was before or is no candidate -/
def touch (e : Explorer) (v : Var) : Except Fault Explorer := do
  if (← e.marks.var v) = .unseen then return e.reach v else return e

/-- a literal of a visited clause: it scores if it is active, and its variable is reached -/
def meet (values : Assignment) (e : Explorer) (l : Lit) : Except Fault Explorer := do
  if ← values.isActive l then
    let e ← e.raise l.var
    e.touch l.var
  else e.touch l.var

def visitBinary (v w : Var) (e : Explorer) : Except Fault Explorer := do
  if (← e.marks.var w) = .unseen then
    let e ← (e.reach w).raise w
    e.raise v
  else return e

def visitTernary (values : Assignment) (v : Var) (c : ClauseId) (a b : Lit) (e : Explorer) :
    Except Fault Explorer := do
  if (← e.marks.clause c) ≠ .unseen then return e
  if ← values.eitherSatisfied a b then
    return { e with marks := e.marks.putClause c .outside }
  let e ← e.raise v
  let e ← e.meet values a
  let e ← e.meet values b
  let allActive ← values.bothActive a b
  return { e with marks := e.marks.putClause c (.seen allActive) }

/-- give a point back if the literal is active -/
def unmeet (values : Assignment) (e : Explorer) (l : Lit) : Except Fault Explorer := do
  if ← values.isActive l then e.lower l.var else return e

/-- exclude a clause and undo its visit: the variables reached since `height` are candidates
again, and the literals met give their points back -/
def undo (values : Assignment) (c : ClauseId) (height : Nat) (met : List Lit) (e : Explorer) :
    Except Fault Explorer := do
  let released := (e.reached.extract height e.reached.size).toList
  let marks ← e.marks.setVars released .unseen
  let e := { e with
    marks := marks.putClause c .outside
    reached := e.reached.shrink height }
  met.foldlM (unmeet values) e

/-- meet the literals of a longer clause one by one, those already met (last first) at hand. The
answer says whether all were candidates, and is `none` if the clause had to be excluded. -/
def scan (values : Assignment) (c : ClauseId) (height : Nat) :
    List Lit → List Lit → Bool → Explorer → Traced (Option Bool × Explorer)
  | _, [], allActive, e => return (some allActive, e)
  | met, l :: rest, allActive, e => do
    if (← e.marks.var l.var) ≠ .outside then
      let e ← e.meet values l
      scan values c height (l :: met) rest allActive e
    else if ← values.isResolved l then
      scan values c height (l :: met) rest false e
    else
      Traced.emit (.clauseExcluded c l)
      let e ← e.undo values c height met
      return (none, e)

def visitLong (values : Assignment) (v : Var) (c : ClauseId) (lits : List Lit) (e : Explorer) :
    Traced Explorer := do
  if (← e.marks.clause c) ≠ .unseen then return e
  let height := e.reached.size
  match ← scan values c height [] lits true e with
  | (some allActive, e) =>
    let e ← e.raise v
    return { e with marks := e.marks.putClause c (.seen allActive) }
  | (none, e) => return e

def follow (values : Assignment) (v : Var) (e : Explorer) : Link → Traced Explorer
  | .binary w => e.visitBinary v w
  | .ternary c a b => e.visitTernary values v c a b
  | .long c lits => e.visitLong values v c lits

/-- follow the links of the reached variables from place `i` on, of which there are fewer than `steps` -/
def walk (values : Assignment) : Nat → Nat → Explorer → Traced Explorer
  | 0, _, _ => Traced.quiet (.error .stepsSpent)
  | steps + 1, i, e =>
    match e.reached[i]? with
    | none => return e
    | some v => do
      let links ← e.adjacency.linksOf v
      let e ← links.foldlM (follow values v) e
      walk values steps (i + 1) e

/-! ## Whole walks -/

/-- reach the component of a variable; no walk reaches more variables than there are slots -/
def collect (e : Explorer) (v : Var) (values : Assignment) : Traced Explorer :=
  walk values e.marks.numSlots 0
    { e with marks := e.marks.putVar v .seen, reached := #[v] }

/-- Explore the component of a candidate. A variable that is alone is free: the node takes the
factor 2, the variable is claimed at once, and the answer is false. -/
def explore (e : Explorer) (node : Node) (v : Var) (values : Assignment) :
    Traced (Bool × Explorer × Node) := do
  require ((← e.marks.var v) = .unseen) .contract
  let e ← e.collect v values
  if e.reached.size = 1 then
    return (false, { e with marks := e.marks.putVar v .claimed }, node.times 2)
  else return (true, e, node)

end Explorer

end ModelCount
