/-
What a look-up finds.

The table is an index: whatever operations came before, with whatever collisions, doublings, shrinks and erasures, the
chain of a bucket leads through the live entries of that bucket that have a count, each once and no others, and a
look-up finds what a search through all live entries would find (`Faithful`, `ofOps_faithful`).
-/
import Mathlib.Tactic
import ModelCount.Proofs.Operations

namespace ModelCount

namespace Store

variable {s : Store} {bits : ℕ}

def Counts (s : Store) (signature : Signature) (count : ℕ) : Prop :=
  ∃ i e, s.get? i = some e ∧ e.signature = signature ∧ e.count = some count

/-- the table of a store, which began with 2^bits buckets, finds what a search through its live entries would find -/
structure Faithful (bits : ℕ) (s : Store) : Prop where
  /-- the table has grown by doublings -/
  size : ∃ k, s.buckets = 2 ^ bits * 2 ^ k
  mask : s.mask = s.buckets - 1
  /-- every hash has a bucket in the table -/
  bucket : ∀ hash, s.bucketOf hash < s.buckets
  /-- the chain of a bucket ends, and lists exactly its live entries with a count, each once -/
  chain : ∀ b < s.buckets, ∃ ids, s.Chain b (s.head b) ids ∧ ids.Nodup ∧
    ∀ i, i ∈ ids ↔ ∃ e, s.get? i = some e ∧ e.hasCount = true ∧ s.bucketOf e.hash = b
  /-- a look-up is a hit or a miss; it changes the counters of look-ups only, and a hit gives the node the factor -/
  lookup : ∀ node signature,
    (∃ count, s.Counts signature count ∧ s.lookup node signature =
      .ok (true, { s with lookups := s.lookups + 1, hits := s.hits + 1 }, node.times count)) ∨
    (¬ ∃ count, s.Counts signature count) ∧
      s.lookup node signature = .ok (false, { s with lookups := s.lookups + 1 }, node)

/-- the chain of a bucket lists exactly its live entries with a count -/
theorem Tabled.chain (h : s.Tabled bits .none) (hc : s.Chained) (hne : ∀ i e, s.get? i = some e → i ≠ .none) (b : ℕ) :
    ∃ ids, s.Chain b (s.head b) ids ∧ ids.Nodup ∧
      ∀ i, i ∈ ids ↔ ∃ e, s.get? i = some e ∧ e.hasCount = true ∧ s.bucketOf e.hash = b := by
  obtain ⟨ids, hnd, -, hchain⟩ := hc b
  refine ⟨ids, hchain, hnd, fun i => ⟨fun hi => (hchain.mem hi).2, fun hex => ?_⟩⟩
  obtain ⟨e, he, hcount, hb⟩ := hex
  obtain ⟨b', ids', hchain', hi⟩ := h.shown i e he hcount (hne i e he)
  obtain ⟨-, e', he', -, hb'⟩ := hchain'.mem hi
  rw [he] at he'
  cases he'
  rw [← hb', hb] at hchain'
  rw [hchain.unique hchain']
  exact hi

/-- a look-up that misses has missed no live entry -/
theorem Tabled.lookup (h : s.Tabled bits .none) (hc : s.Chained) (hne : ∀ i e, s.get? i = some e → i ≠ .none)
    (node : Node) (signature : Signature) :
    (∃ count, s.Counts signature count ∧ s.lookup node signature =
      .ok (true, { s with lookups := s.lookups + 1, hits := s.hits + 1 }, node.times count)) ∨
    (¬ ∃ count, s.Counts signature count) ∧
      s.lookup node signature = .ok (false, { s with lookups := s.lookups + 1 }, node) := by
  obtain ⟨ids, hchain, hnd, hmem⟩ := h.chain hc hne (s.bucketOf signature.hash)
  have hfind : s.find signature = .ok (ids.findSome? (s.countOf signature)) :=
    findFrom_eq hchain (Nat.lt_succ_of_le (hchain.length_le hnd))
  rw [Store.lookup, hfind, Except.ok_bind]
  cases hfound : ids.findSome? (s.countOf signature) with
  | some count =>
    obtain ⟨i, -, hi⟩ := List.exists_of_findSome?_eq_some hfound
    exact Or.inl ⟨count, ⟨i, countOf_eq_some.1 hi⟩, rfl⟩
  | none =>
    refine Or.inr ⟨fun hex => ?_, rfl⟩
    obtain ⟨count, i, e, he, hsig, hcount⟩ := hex
    have hi : i ∈ ids := (hmem i).2 ⟨e, he, by rw [Entry.hasCount, hcount]; rfl, by rw [Entry.hash, hsig]⟩
    have hnone := List.findSome?_eq_none_iff.1 hfound i hi
    rw [countOf_eq_some.2 ⟨e, he, hsig, hcount⟩] at hnone
    cases hnone

theorem Tabled.faithful (h : s.Tabled bits .none) (hc : s.Chained) (hne : ∀ i e, s.get? i = some e → i ≠ .none) :
    s.Faithful bits :=
  ⟨h.size, h.mask, h.bucketOf_lt, fun b _ => h.chain hc hne b, h.lookup hc hne⟩

end Store

namespace Ledger

open Store

/-- **The table refines a search.** After any operations on a new store the table finds exactly the live entries that
have a count. The next operation fails if and only if it is refused, and a look-up is never refused. -/
theorem ofOps_faithful {bits : ℕ} {ops : List Op} {l : Ledger} (hrun : ofOps bits ops = .ok l) :
    l.store.Faithful bits ∧ ∀ op, (∃ l', l.step op = .ok l') ↔ l.store.refusal op = none := by
  obtain ⟨hkept, htabled⟩ := ofOps_kept hrun
  refine ⟨htabled.faithful hkept.chained hkept.ne_none, fun op => ⟨fun hex => ?_, fun hr => ?_⟩⟩
  · obtain ⟨l', hstep⟩ := hex
    refine Option.eq_none_iff_forall_not_mem.2 fun fault hr => ?_
    rw [step_refused hkept hr] at hstep
    cases hstep
  · obtain ⟨l', hstep, -⟩ := step_leads hkept hr
    exact ⟨l', hstep⟩

/-- three counts in a table that starts with one bucket; the first is replaced, and the third entry is erased -/
def crowded : List Op :=
  [.plant ⟨[1, 2, 0]⟩, .mint ⟨[1, 0]⟩ .root, .mint ⟨[2, 0]⟩ .root, .mint ⟨[3, 0]⟩ ⟨2⟩, .attach ⟨2⟩ 5, .attach ⟨3⟩ 7,
    .attach ⟨4⟩ 2, .attach ⟨2⟩ 6, .eraseBelow ⟨4⟩]

/-- the crowded table has four buckets in the end, and is faithful -/
theorem ofOps_faithful_crowded : ∃ l, ofOps 0 crowded = .ok l ∧ l.store.Faithful 0 ∧ l.store.buckets = 4 := by
  have hbuckets : (ofOps 0 crowded).toOption.map (fun l => l.store.buckets) = some 4 := by rfl
  cases hrun : ofOps 0 crowded with
  | error fault =>
    rw [hrun] at hbuckets
    cases hbuckets
  | ok l =>
    rw [hrun] at hbuckets
    exact ⟨l, rfl, (ofOps_faithful hrun).1, Option.some.inj hbuckets⟩

end Ledger

end ModelCount
