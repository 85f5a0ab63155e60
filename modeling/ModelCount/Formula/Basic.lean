/-
Formulas in conjunctive normal form, stored by the length of their clauses.

Unit clauses are kept in a plain list and binary clauses as symmetric links between literals.
A long clause (three literals or more) lives in one pool of words:

    0 | id length 0 | lit lit lit 0 | id length 0 | lit lit lit lit 0 | ...

A clause's offset is the place of its first literal; the three words before it are its header,
and a 0 follows its last literal. Long clauses are numbered 1, 2, ... in pool order.
-/
import ModelCount.Formula.Error
import ModelCount.Event

namespace ModelCount

/-- a formula over the variables 1 to `numVars` -/
structure Formula where
  numVars : Nat
  /-- the literal pool -/
  pool : Array Nat
  /-- offset of each long clause, by clause id; cell 0 is unused -/
  offsets : Array Nat
  /-- for each literal, the other literals of its binary clauses -/
  partners : Array (List Lit)
  /-- the unit clauses, each once -/
  units : List Lit
  /-- the number of binary clauses, each counted once -/
  numBinary : Nat

namespace Formula

/-- number of words in front of each long clause -/
def headerSize : Nat := 3

def empty (numVars : Nat) : Formula where
  numVars := numVars
  pool := #[0]
  offsets := #[0]
  partners := Array.replicate (2 * (numVars + 1)) []
  units := []
  numBinary := 0

/-! ## Adding a clause -/

/-- the literals of a clause after the ones already read, or its first offence -/
def readLits (numVars : Nat) : List Lit → List Int → Except Error (List Lit)
  | read, [] => .ok read
  | read, n :: rest =>
    if n = 0 then .error .zeroLiteral
    else if numVars < n.natAbs then .error (.variableOutOfRange n n.natAbs numVars)
    else
      let lit := Lit.ofInt n
      if read.any (fun l => l.var == lit.var) then .error (.repeatedVariable n.natAbs)
      else readLits numVars (read ++ [lit]) rest

def validate (numVars : Nat) (clause : List Int) : Except Error (List Lit) :=
  if clause.isEmpty then .error .emptyClause else readLits numVars [] clause

/-- a unit clause; a known one changes nothing -/
def addUnit (f : Formula) (a : Lit) : Formula :=
  if f.units.contains a then f else { f with units := f.units ++ [a] }

/-- the other literals of the binary clauses of `a` -/
def partnersOf (f : Formula) (a : Lit) : List Lit := f.partners[a.index]?.getD []

/-- a binary clause; a known one, also with its literals exchanged, changes nothing -/
def addBinary (f : Formula) (a b : Lit) : Formula :=
  if (f.partnersOf a).contains b then f
  else
    { f with
      partners := (f.partners.modify a.index (· ++ [b])).modify b.index (· ++ [a])
      numBinary := f.numBinary + 1 }

/-- the words of a long clause: its header, its literals and the terminator -/
def clauseWords (id : ClauseId) (lits : List Lit) : List Nat :=
  id.id :: lits.length :: 0 :: (lits.map Lit.raw ++ [0])

/-- a long clause, at the end of the pool -/
def addLong (f : Formula) (lits : List Lit) : Formula × ClauseId :=
  let id : ClauseId := ⟨f.offsets.size⟩
  let offset := f.pool.size + headerSize
  ({ f with
     pool := f.pool ++ clauseWords id lits
     offsets := f.offsets.push offset }, id)

def addClause (f : Formula) (clause : List Int) : Except Error (Formula × Option ClauseId) := do
  match ← validate f.numVars clause with
  | [a] => return (f.addUnit a, none)
  | [a, b] => return (f.addBinary a b, none)
  | lits =>
    let (f, id) := f.addLong lits
    return (f, some id)

/-- more clauses in turn, up to the first that is refused -/
def addClauses (f : Formula) : List (List Int) → Formula × Option Error
  | [] => (f, none)
  | clause :: rest =>
    match f.addClause clause with
    | .ok (f, _) => f.addClauses rest
    | .error e => (f, some e)

def ofClauses (numVars : Nat) (clauses : List (List Int)) : Except Error Formula :=
  match (empty numVars).addClauses clauses with
  | (f, none) => .ok f
  | (_, some e) => .error e

/-! ## Reading the formula -/

def maxVar (f : Formula) : Var := ⟨f.numVars⟩

def numLong (f : Formula) : Nat := f.offsets.size - 1

/-- the last long clause, or the sentinel -/
def maxClause (f : Formula) : ClauseId := ⟨f.numLong⟩

/-- the place of a long clause's first literal in the pool -/
def offsetOf (f : Formula) (c : ClauseId) : Except Fault Nat :=
  if c.isSentinel then .error .contract
  else match f.offsets[c.index]? with
    | some offset => .ok offset
    | none => .error .contract

/-- the header of the long clause at an offset: its id and its length -/
def headerAt (f : Formula) (offset : Nat) : ClauseId × Nat :=
  (⟨f.pool[offset - headerSize]?.getD 0⟩, f.pool[offset - headerSize + 1]?.getD 0)

def clauseAt (f : Formula) (offset : Nat) : List Lit :=
  (f.pool.extract offset (offset + (f.headerAt offset).2)).toList.map Lit.mk

def longClauses (f : Formula) : List (ClauseId × List Lit) :=
  (f.offsets.toList.drop 1).map fun offset => ((f.headerAt offset).1, f.clauseAt offset)

/-- what was reported while the clauses were added: one event for each long clause -/
def events (f : Formula) : List Event :=
  (f.offsets.toList.drop 1).map fun offset => .clauseAdded (f.headerAt offset).1 offset

end Formula

end ModelCount
