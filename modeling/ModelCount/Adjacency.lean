/-
Adjacency: for every variable, what it is connected to.

All links of a formula live in one flat pool of words, built once. The run of a variable has
four sections:

    w w w 0 | c a b  c a b  0 | c r  c r  0 | l l 0  l l l 0
    binary    ternary           long          literals of the long clauses

A binary link is the other variable of a binary clause (those of the negative literal first), a
ternary link a clause of length three with its two other literals. A longer clause is a pair: the
clause and the distance `r` from the word that holds it to the first of the clause's other
literals. `linksOf` walks a run and gives its links back.
-/
import ModelCount.Formula.Basic

namespace ModelCount

inductive Link where
  /-- through a binary clause to its other variable -/
  | binary (var : Var)
  /-- through a clause of length three to its other literals -/
  | ternary (clause : ClauseId) (a b : Lit)
  /-- through a longer clause to its other literals -/
  | long (clause : ClauseId) (lits : List Lit)
  deriving DecidableEq, Repr

/-- the links of all variables -/
structure Adjacency where
  /-- the pool -/
  words : Array Nat
  /-- start of each variable's run; cell 0 is unused -/
  starts : Array Nat
  deriving Inhabited

namespace Adjacency

/-! ## Writing -/

/-- the long clauses of each variable, in clause order -/
def occurrences (f : Formula) : Array (List (ClauseId × List Lit)) :=
  f.longClauses.foldr
    (fun clause table => clause.2.foldl (fun table lit => table.modify lit.var.index (clause :: ·)) table)
    (Array.replicate (f.numVars + 1) [])

/-- the words of a clause's literals other than those of `v` -/
def others (v : Var) (lits : List Lit) : List Nat :=
  (lits.filter fun l => l.var != v).map Lit.raw

/-- the ternary section without its end -/
def ternarySection (v : Var) (occurs : List (ClauseId × List Lit)) : List Nat :=
  occurs.flatMap fun c => if c.2.length = 3 then c.1.id :: others v c.2 else []

def longRuns (v : Var) (occurs : List (ClauseId × List Lit)) : List (ClauseId × List Nat) :=
  (occurs.filter fun c => c.2.length != 3).map fun c => (c.1, others v c.2)

/-- the long section without its end; `before` words of literals precede those of the first clause.
The literals start after the words of the pairs still to come and the end of the section. -/
def longSection (before : Nat) : List (ClauseId × List Nat) → List Nat
  | [] => []
  | (c, lits) :: rest =>
    c.id :: (before + 2 * (rest.length + 1)) :: longSection (before + lits.length + 1) rest

def runOf (f : Formula) (v : Var) (occurs : List (ClauseId × List Lit)) : List Nat :=
  let runs := longRuns v occurs
  (f.partnersOf v.neg ++ f.partnersOf v.pos).map (fun l => l.var.id) ++ 0 ::
    (ternarySection v occurs ++ 0 ::
      (longSection 0 runs ++ 0 :: runs.flatMap fun r => r.2 ++ [0]))

def addRun (f : Formula) (a : Adjacency) (v : Var) (occurs : List (ClauseId × List Lit)) :
    Adjacency :=
  let start := a.words.size
  { words := a.words ++ runOf f v occurs, starts := a.starts.push start }

/-- the links of a formula; no run starts in the first two words -/
def ofFormula (f : Formula) : Adjacency :=
  let occurs := occurrences f
  (List.range f.numVars).foldl
    (fun a i => addRun f a ⟨i + 1⟩ (occurs[i + 1]?.getD []))
    { words := #[0, 0], starts := #[0] }

/-! ## Reading -/

/-- the words from `pos` up to the next 0 -/
def wordsFrom (words : Array Nat) (pos : Nat) : Except Fault (List Nat) :=
  if h : pos < words.size then
    if words[pos] = 0 then .ok []
    else do return words[pos] :: (← wordsFrom words (pos + 1))
  else .error .outOfRange
termination_by words.size - pos

def wordAt (words : Array Nat) (pos : Nat) : Except Fault Nat :=
  match words[pos]? with
  | some w => .ok w
  | none => .error .outOfRange

/-- the links of the long section at `pos` -/
def readLong (words : Array Nat) (pos : Nat) : Except Fault (List Link) :=
  if h : pos < words.size then
    if words[pos] = 0 then .ok []
    else do
      let lits ← wordsFrom words (pos + 1 + (← wordAt words (pos + 1)))
      return .long ⟨words[pos]⟩ (lits.map Lit.mk) :: (← readLong words (pos + 2))
  else .error .outOfRange
termination_by words.size - pos

/-- the links of the ternary section at `pos` and all after it -/
def readTernary (words : Array Nat) (pos : Nat) : Except Fault (List Link) :=
  if h : pos < words.size then
    if words[pos] = 0 then readLong words (pos + 1)
    else do
      let a ← wordAt words (pos + 1)
      let b ← wordAt words (pos + 2)
      return .ternary ⟨words[pos]⟩ ⟨a⟩ ⟨b⟩ :: (← readTernary words (pos + 3))
  else .error .outOfRange
termination_by words.size - pos

/-- the links of the run that starts at `pos` -/
def readRun (words : Array Nat) (pos : Nat) : Except Fault (List Link) := do
  let vars ← wordsFrom words pos
  return vars.map (fun w => .binary ⟨w⟩) ++ (← readTernary words (pos + vars.length + 1))

/-- the links of a variable, in the order of its run -/
def linksOf (a : Adjacency) (v : Var) : Except Fault (List Link) :=
  match a.starts[v.index]? with
  | some start => readRun a.words start
  | none => .error .outOfRange

/-- the number of words, with the two in front of the first run -/
def numWords (a : Adjacency) : Nat := a.words.size

def numVars (a : Adjacency) : Nat := a.starts.size - 1

end Adjacency

end ModelCount
