/-
Literals, packed in one 32-bit word each.

The word holds the variable shifted left by one and the sign in the lowest bit, 1 for positive.
The shift is done in 32 bits: a variable of 2^31 or more loses its top bit. Below that bound the
packing is exact, a literal and its negation are neighbours, and only the sentinel has word 0.
-/
import ModelCount.Fault

namespace ModelCount

/-- a literal as its packed word -/
structure Lit where
  raw : Nat
  deriving DecidableEq, Repr, Inhabited

namespace Lit

/-- ends a clause in the literal pool -/
def sentinel : Lit := ⟨0⟩

/-- the literal of a variable with a sign -/
def of (v : Var) (positive : Bool) : Lit :=
  ⟨(2 * v.id + positive.toNat) % 4294967296⟩

/-- the literal that a non-zero signed number names; the number and the literal agree in sign -/
def ofInt (n : Int) : Lit := of ⟨n.natAbs⟩ (decide (0 < n))

/-- the literal that a signed number names; 0 names none -/
def checked (n : Int) : Except Fault Lit :=
  if n = 0 then .error .zeroLiteral else .ok (ofInt n)

def var (l : Lit) : Var := ⟨l.raw / 2⟩

/-- the literal is true when its variable is -/
def isPositive (l : Lit) : Bool := l.raw % 2 == 1

def isSentinel (l : Lit) : Bool := l.raw == 0

/-- place of the literal in tables that hold one cell per literal -/
def index (l : Lit) : Nat := l.raw

/-- the signed number that names the literal -/
def toInt (l : Lit) : Int :=
  if l.isPositive then (l.var.id : Int) else -(l.var.id : Int)

/-- the opposite literal: the other value of the lowest bit -/
def negate (l : Lit) : Lit :=
  if l.raw % 2 = 0 then ⟨l.raw + 1⟩ else ⟨l.raw - 1⟩

instance : Neg Lit := ⟨negate⟩

def text (l : Lit) : String :=
  if l.isPositive then l.var.text else s!"~{l.var.text}"

/-- literals are ordered by their words -/
instance : Ord Lit := ⟨fun a b => compare a.raw b.raw⟩

end Lit

namespace Var

def pos (v : Var) : Lit := Lit.of v true

def neg (v : Var) : Lit := Lit.of v false

end Var

end ModelCount
