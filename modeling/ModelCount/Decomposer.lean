/-
The decomposer: what a search loop talks to.

It owns the component stack, shared by all open nodes of the search. Index 0 is a dummy, index 1
the whole formula, and above that stand the components of the open nodes, each node's in one
slice. A node's slice is filled when its first component is asked for (`findNext`) and given back
when the node is left (`clean`).
-/
import ModelCount.Config
import ModelCount.Explorer
import ModelCount.Store.Evict

namespace ModelCount

/-- the settings and everything that changes while a formula is decomposed -/
structure Decomposer where
  config : Config
  explorer : Explorer
  store : Store
  /-- the component stack, from the bottom up -/
  stack : List Component
  deriving Inhabited

namespace Decomposer

/-! ## Beginning -/

/-- a decomposer without a formula -/
def new (config : Config) : Except Fault Decomposer := do
  return ⟨config, .blank, ← Store.empty config.tableBits, []⟩

/-- take a formula: build its links, and let the whole formula be the root -/
def load (d : Decomposer) (f : Formula) : Traced Decomposer := do
  let explorer := Explorer.ofFormula f
  let root := Component.whole f.maxVar f.maxClause
  let store := d.store.plant (.ofParts root.vars root.clauses)
  Traced.emit (.loaded f.numVars f.numLong explorer.adjacency.numWords)
  return { d with
    explorer := explorer
    store := store
    stack := [.empty, root.withId .root] }

/-- the node of the whole formula, while nothing else is on the stack -/
def rootNode (d : Decomposer) : Except Fault Node :=
  if d.stack.length = 2 then .ok (Node.start 1 2) else .error .notFresh

/-! ## Questions -/

/-- how many components are on the stack, the dummy and the root included -/
def stackSize (d : Decomposer) : Nat := d.stack.length

def component (d : Decomposer) (index : Nat) : Except Fault Component :=
  match d.stack[index]? with
  | some comp => .ok comp
  | none => .error (.stackIndex index)

def held (d : Decomposer) (index : Nat) : Except Fault Component :=
  match d.stack[index]? with
  | some comp => .ok comp
  | none => .error .contract

/-- the component that a node decides -/
def superOf (d : Decomposer) (node : Node) : Except Fault Component := d.held node.superIndex

/-- the component that a node solves now -/
def currentOf (d : Decomposer) (node : Node) : Except Fault Component := do
  d.held (← node.current)

def score (d : Decomposer) (v : Var) : Except Fault Nat := d.explorer.score v

/-! ## The order of a slice -/

/-- exchange the components at two places of a slice if the one at the second place is larger -/
def exchange (slice : Array Component) (i j : Nat) : Array Component :=
  match slice[i]?, slice[j]? with
  | some x, some y =>
    if x.numVars < y.numVars then (slice.setIfInBounds i y).setIfInBounds j x else slice
  | _, _ => slice

/-- compare a place of a slice with every later one in turn; what it holds may change meanwhile -/
def exchangeFrom (slice : Array Component) (i : Nat) : Array Component :=
  (List.range' (i + 1) (slice.size - (i + 1))).foldl (fun slice j => exchange slice i j) slice

/-- compare all places of a slice with the later ones -/
def exchangeAll (slice : Array Component) : Array Component :=
  (List.range slice.size).foldl exchangeFrom slice

/-- a slice by number of variables, the largest first; most slices have one or two components -/
def ordered : List Component → List Component
  | [] => []
  | [x] => [x]
  | [x, y] => if x.numVars < y.numVars then [y, x] else [x, y]
  | slice => (exchangeAll slice.toArray).toList

def sortRange (d : Decomposer) (start stop : Nat) : Except Fault Decomposer :=
  if start ≤ stop ∧ stop ≤ d.stack.length then
    .ok { d with stack :=
      d.stack.take start ++ ordered ((d.stack.take stop).drop start) ++ d.stack.drop stop }
  else .error .contract

/-! ## Splitting a node -/

/-- what a pass over the variables of a super-component carries along -/
structure Sweep where
  explorer : Explorer
  store : Store
  node : Node
  /-- the components to push, last first -/
  found : List Component
  hits : Nat

/-- the count of a component, if counts are looked up and the store has it -/
def consult (caching : Bool) (store : Store) (node : Node) (signature : Signature) :
    Except Fault (Bool × Store × Node) :=
  if caching then store.lookup node signature else .ok (false, store, node)

/-- deal with the component that a walk has marked: a count that is found goes into the node,
otherwise the component gets an entry and is one more to push -/
def settlePart (caching : Bool) (comp : Component) (s : Sweep) : Traced Sweep := do
  let (part, signature, marks) ← Traced.quiet (s.explorer.marks.claim comp)
  let (hit, store, node) ← Traced.quiet (consult caching s.store s.node signature)
  let s := { s with explorer := { s.explorer with marks := marks }, store := store, node := node }
  if hit then
    Traced.emit (.componentHit part.numVars)
    return { s with hits := s.hits + 1 }
  else
    let (id, store) ← Traced.quiet (s.store.mint signature comp.id)
    Traced.emit (.componentNew id part.numVars part.numClauses)
    return { s with store := store, found := part.withId id :: s.found }

/-- deal with one variable: unless it is settled already, explore its component -/
def sweepVar (caching : Bool) (comp : Component) (values : Assignment) (s : Sweep) (v : Var) :
    Traced Sweep := do
  let ⟨explorer, store, node, found, hits⟩ := s
  if ← explorer.isCandidate v values then
    let (several, explorer, node) ← explorer.explore node v values
    let s : Sweep := ⟨explorer, store, node, found, hits⟩
    if several then settlePart caching comp s else return s
  else return s

/-- Split the super-component of a node. Counts that are found go into the node; the other
components are pushed, largest first, and the node's cursor starts above them. -/
def split (d : Decomposer) (node : Node) (values : Assignment) : Traced (Decomposer × Node) := do
  let comp ← d.superOf node
  let explorer ← d.explorer.prepare node.superIndex comp values
  let s ← comp.vars.foldlM (sweepVar d.config.caching comp values) ⟨explorer, d.store, node, [], 0⟩
  Traced.emit (.split comp.id comp.numVars s.found.length s.hits)
  let stack := d.stack ++ s.found.reverse
  let node ← s.node.setEnd stack.length
  let d ← sortRange ⟨d.config, s.explorer, s.store, stack⟩ d.stack.length stack.length
  return (d, node)

/-- find the components of a node unless they stand on the stack already -/
def enumerate (d : Decomposer) (node : Node) (values : Assignment) : Traced (Decomposer × Node) :=
  if d.stack.length ≤ node.base then d.split node values else return (d, node)

/-- Whether a node has a component left to solve; its components are found on the first call. When
there is none, the node is satisfiable as it stands and takes the factor 1, unless it was found
unsatisfiable meanwhile. -/
def findNext (d : Decomposer) (node : Node) (values : Assignment) :
    Traced (Bool × Decomposer × Node) := do
  require (node.foundUnsat = false) .contract
  let (d, node) ← d.enumerate node values
  if node.foundUnsat then return (false, d, node)
  if node.hasUnprocessed then return (true, d, node)
  return (false, d, node.times 1)

/-! ## Counts and leaving a node -/

def cacheCount (d : Decomposer) (index count : Nat) : Traced Decomposer := do
  if d.config.caching then
    let comp ← d.component index
    return { d with store := ← d.store.attach comp.id count }
  else return d

/-- flag the entry of a component that leaves the stack -/
def flagLeft (s : Store) (comp : Component) : Except Fault Store :=
  if s.has comp.id then s.setDeletable comp.id else .ok s

/-- pop the components of a node, whose entries become deletable -/
def clean (d : Decomposer) (node : Node) : Except Fault Decomposer := do
  require (node.base ≤ d.stack.length) .contract
  let store ← (d.stack.drop node.base).reverse.foldlM flagLeft d.store
  return { d with store := store, stack := d.stack.take node.base }

/-- erase the entry of a component and all below it, if it is still there -/
def eraseLeft (s : Store) (comp : Component) : Except Fault Store :=
  if s.has comp.id then s.eraseBelow comp.id else .ok s

/-- Erase the entries of a node's components and all below them. For a node that is abandoned with
some of its components solved and others not. -/
def removePollutions (d : Decomposer) (node : Node) : Except Fault Decomposer := do
  require (node.base ≤ d.stack.length) .contract
  require (node.superIndex ≠ 0) .contract
  require (d.store.has (← d.superOf node).id) .contract
  let store ← (d.stack.drop node.base).foldlM eraseLeft d.store
  return { d with store := store }

def refresh (d : Decomposer) : Decomposer := { d with store := d.store.refresh }

def evict (d : Decomposer) : Traced (Nat × Decomposer) := do
  let (erased, store) ← d.store.evict d.config.budget
  return (erased, { d with store := store })

end Decomposer

end ModelCount
