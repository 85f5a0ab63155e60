/-
Settings of a decomposer.
-/
import ModelCount.Fault

namespace ModelCount

/-- what a decomposer may be told: whether to look counts up, and how large its store may grow -/
structure Config where
  /-- look components up and attach their counts; without it entries are minted all the same -/
  caching : Bool
  /-- the bucket table starts with 2^tableBits buckets -/
  tableBits : Nat
  /-- eviction aims at this many bytes -/
  budget : Nat
  deriving DecidableEq, Repr, Inhabited

namespace Config

/-- caching on, 65536 buckets, one gibibyte -/
def standard : Config := ⟨true, 16, 1073741824⟩

def withCaching (c : Config) (caching : Bool) : Config := { c with caching := caching }

def withTableBits (c : Config) (bits : Nat) : Except Fault Config :=
  if bits ≤ 31 then .ok { c with tableBits := bits } else .error .tableBits

def withBudget (c : Config) (bytes : Nat) : Config := { c with budget := bytes }

end Config

end ModelCount
