/-
The names that a model counter hands out: variables, long clauses and store entries.

Each kind counts from 1 and keeps 0 for "none", so that 0 can end a packed list. The kinds are
separate types: a variable and a clause of the same number are never compared, although both
index the same scratch table.
-/

namespace ModelCount

/-- a variable of the formula; 0 is the sentinel that ends packed variable lists -/
structure Var where
  id : Nat
  deriving DecidableEq, Repr, Inhabited

/-- a clause of three or more literals, numbered in the order of acceptance; 0 ends clause lists -/
structure ClauseId where
  id : Nat
  deriving DecidableEq, Repr, Inhabited

/-- an entry of the component store; 0 says "no entry" and is the father of the root -/
structure EntryId where
  id : Nat
  deriving DecidableEq, Repr, Inhabited

/-! ## Sentinels and texts -/

namespace Var

/-- the end of a packed variable list -/
def sentinel : Var := ⟨0⟩

def isSentinel (v : Var) : Bool := v.id == 0

/-- place of the variable in tables that hold one cell per variable -/
def index (v : Var) : Nat := v.id

def text (v : Var) : String := s!"x{v.id}"

end Var

namespace ClauseId

/-- the end of a packed clause list -/
def sentinel : ClauseId := ⟨0⟩

def isSentinel (c : ClauseId) : Bool := c.id == 0

/-- place of the clause in tables that hold one cell per long clause -/
def index (c : ClauseId) : Nat := c.id

def text (c : ClauseId) : String := s!"c{c.id}"

end ClauseId

namespace EntryId

def none : EntryId := ⟨0⟩

def isNone (e : EntryId) : Bool := e.id == 0

/-- place of the entry in the store -/
def index (e : EntryId) : Nat := e.id

/-- the entry of the whole formula -/
def root : EntryId := ⟨1⟩

def text (e : EntryId) : String := s!"#{e.id}"

end EntryId

end ModelCount
