/-
The hash that picks a bucket for a packed list of ids.

Words are mixed one by one into a 64-bit state by rotation, exclusive or and multiplication; the
state starts at the length of the list, and its high bits are folded down at the end because the
buckets are taken from the low bits. The hash only ever picks a bucket: what a lookup finds is
decided by comparing the lists.
-/

namespace ModelCount.Hash

/-- an odd multiplier that spreads low bits upwards -/
def multiplier : UInt64 := 0x9E3779B97F4A7C15

def rotateLeft5 (h : UInt64) : UInt64 := (h <<< 5) ||| (h >>> 59)

/-- one more word in the running state -/
def mix (h word : UInt64) : UInt64 := (rotateLeft5 h ^^^ word) * multiplier

/-- the states after each word, from a given start -/
def mixes (h : UInt64) : List Nat → List UInt64
  | [] => []
  | w :: ws => let next := mix h w.toUInt64; next :: mixes next ws

def ofWords (words : List Nat) : UInt64 :=
  let h := words.foldl (fun h w => mix h w.toUInt64) words.length.toUInt64
  h ^^^ (h >>> 29)

end ModelCount.Hash
