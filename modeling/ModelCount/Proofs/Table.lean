/-
The bucket table as a whole.

The number of buckets is the least one times a power of two, the mask takes a hash to a bucket, and every live entry
that has a count stands in the chain of its bucket (`Tabled`). One entry may be away while it is moved. Whatever leaves
the chains alone keeps this (`Tabled.congr`), taking an entry out sends it away, and linking it or erasing it brings
the table to rest again.
-/
import Mathlib.Tactic
import ModelCount.Proofs.Chains

namespace ModelCount.Store

variable {s s' : Store} {id i away away' : EntryId} {e e' : Entry} {bits : ℕ}

/-- a table of 2^bits buckets, doubled some number of times, in which every counted entry stands but `away` -/
structure Tabled (bits : ℕ) (away : EntryId) (s : Store) : Prop where
  size : ∃ k, s.buckets = 2 ^ bits * 2 ^ k
  mask : s.mask = s.buckets - 1
  least : s.minBuckets = 2 ^ bits
  shown : ∀ i e, s.get? i = some e → e.hasCount = true → i ≠ away → Shown s i

/-- the table at rest stays so -/
def KeepsTable (s s' : Store) : Prop := ∀ bits, s.Tabled bits .none → s'.Tabled bits .none

theorem KeepsTable.refl (s : Store) : KeepsTable s s := fun _ h => h

theorem KeepsTable.trans {s'' : Store} (h : KeepsTable s s') (h' : KeepsTable s' s'') : KeepsTable s s'' :=
  fun bits hs => h' bits (h bits hs)

/-! ## The size of the table -/

/-- a mask of ones takes the remainder -/
theorem Tabled.bucketOf_eq (h : Tabled bits away s) (hash : UInt64) : s.bucketOf hash = hash.toNat % s.buckets := by
  obtain ⟨k, hk⟩ := h.size
  rw [bucketOf, h.mask, hk, ← Nat.pow_add, Nat.and_two_pow_sub_one_eq_mod]

/-- every hash has a bucket of the table -/
theorem Tabled.bucketOf_lt (h : Tabled bits away s) (hash : UInt64) : s.bucketOf hash < s.buckets := by
  rw [h.bucketOf_eq]
  obtain ⟨k, hk⟩ := h.size
  exact Nat.mod_lt _ (by rw [hk]; positivity)

/-- halving stops at the least number of buckets at the latest -/
theorem shrunk_pow (bits entries k : ℕ) : ∃ k', shrunk (2 ^ bits) entries (2 ^ bits * 2 ^ k) = 2 ^ bits * 2 ^ k' := by
  induction k with
  | zero =>
    refine ⟨0, ?_⟩
    rw [shrunk, dif_neg (by simp)]
  | succ k ih =>
    rw [shrunk]
    split_ifs
    · rw [Nat.pow_succ, ← Nat.mul_assoc, Nat.mul_div_cancel _ (by decide)]
      exact ih
    · exact ⟨k + 1, rfl⟩

/-! ## What leaves the chains alone -/

/-- where entries in chains keep their signatures, counts and links, and no count is new -/
theorem Tabled.congr (h : Tabled bits away s) (hh : s'.heads = s.heads) (hb : s'.buckets = s.buckets)
    (hm : s'.mask = s.mask) (hl : s'.minBuckets = s.minBuckets)
    (hc : ∀ i, ¬ Loose s i → ∀ e, s.get? i = some e → ∃ e', s'.get? i = some e' ∧
      e'.signature = e.signature ∧ e'.count = e.count ∧ e'.next = e.next)
    (hold : ∀ i e', s'.get? i = some e' → e'.hasCount = true → i ≠ away' →
      i ≠ away ∧ ∃ e, s.get? i = some e ∧ e.hasCount = true) : Tabled bits away' s' := by
  refine ⟨by rw [hb]; exact h.size, by rw [hm, hb]; exact h.mask, by rw [hl]; exact h.least,
    fun i e' he' hcount hi => ?_⟩
  obtain ⟨hia, e, he, hcount'⟩ := hold i e' he' hcount hi
  exact (h.shown i e he hcount' hia).congr hh hm hc

/-- an entry that keeps its signature, count and link -/
theorem Tabled.amend (h : Tabled bits away s) (hid : s.get? id = some e) (hsig : e'.signature = e.signature)
    (hcount : e'.count = e.count) (hnext : e'.next = e.next) : Tabled bits away (s.put id e') := by
  refine h.congr rfl rfl rfl rfl (fun i _ x hx => ?_) fun i x hx hx' hi => ⟨hi, ?_⟩
  · rw [get?_put]
    split_ifs with hii
    · rw [hii, hid] at hx
      cases hx
      exact ⟨e', rfl, hsig, hcount, hnext⟩
    · exact ⟨x, hx, rfl, rfl, rfl⟩
  · rw [get?_put] at hx
    split_ifs at hx with hii
    · cases hx
      refine ⟨e, hii ▸ hid, ?_⟩
      unfold Entry.hasCount at hx' ⊢
      rw [← hcount]; exact hx'
    · exact ⟨x, hx, hx'⟩

theorem keepsTable_put (hid : s.get? id = some e) (hsig : e'.signature = e.signature) (hcount : e'.count = e.count)
    (hnext : e'.next = e.next) : KeepsTable s (s.put id e') := fun _ h => h.amend hid hsig hcount hnext

/-- a fresh entry has no count -/
theorem keepsTable_minted {father : EntryId} {f : Entry} (hf : s.get? father = some f) (hnew : s.get? ⟨s.nextId⟩ = none)
    (signature : Signature) : KeepsTable s (s.minted signature father f) := by
  intro bits h
  refine h.congr rfl rfl rfl rfl (fun i _ x hx => ?_) fun i x hx hx' hi => ⟨hi, ?_⟩
  · obtain ⟨l, hl⟩ := live_minted hf hnew hx
    exact ⟨_, hl, rfl, rfl, rfl⟩
  · rcases of_minted hf hx with ⟨-, rfl⟩ | ⟨e, l, he, rfl⟩
    · cases hx'
    · exact ⟨e, he, hx'⟩

/-- the clock, the counters and the memory figures do not matter -/
theorem keepsTable_of_same (he : s'.entries = s.entries) (hh : s'.heads = s.heads) (hb : s'.buckets = s.buckets)
    (hm : s'.mask = s.mask) (hl : s'.minBuckets = s.minBuckets) : KeepsTable s s' := by
  have hget : ∀ i, s'.get? i = s.get? i := fun i => by unfold get?; rw [he]
  intro bits h
  refine h.congr hh hb hm hl (fun i _ x hx => ⟨x, (hget i).trans hx, rfl, rfl, rfl⟩)
    fun i x hx hx' hi => ⟨hi, x, ?_, hx'⟩
  rw [← hget]; exact hx

/-! ## Beginning -/

/-- a table without entries -/
theorem tabled_empty (hbits : bits ≤ 31) :
    ∃ s, Store.empty bits = .ok s ∧ s.Tabled bits .none ∧ Chained s ∧ ∀ i, s.get? i = none := by
  have hnone : ∀ i : EntryId, ((∅ : Std.TreeMap ℕ Entry)[i.id]?) = none := fun i => Std.TreeMap.getElem?_emptyc
  refine ⟨_, if_pos hbits, ⟨⟨0, by simp [refresh]⟩, rfl, rfl, fun i e he => ?_⟩, fun b => ?_, hnone⟩
  · have hi : ((∅ : Std.TreeMap ℕ Entry)[i.id]?) = some e := he
    rw [hnone] at hi
    cases hi
  · refine ⟨[], List.nodup_nil, by simp, ?_⟩
    show ((∅ : Std.TreeMap ℕ EntryId)[b]?).getD .none = .none
    rw [Std.TreeMap.getElem?_emptyc]
    rfl

theorem keepsTable_plant (s : Store) (signature : Signature) : KeepsTable s (s.plant signature) := by
  intro bits h
  refine ⟨h.size, h.mask, h.least, fun i e he hcount => ?_⟩
  rw [get?_plant] at he
  split_ifs at he
  cases he
  cases hcount

/-! ## Moving an entry -/

theorem Tabled.rebuilt (h : Tabled bits away s) (hr : Rebuilt s s') (hsize : ∃ k, s'.buckets = 2 ^ bits * 2 ^ k) :
    Tabled bits away' s' :=
  ⟨hsize, hr.mask, hr.least.trans h.least, fun i e he hcount _ => hr.shown i e he hcount⟩

theorem keepsTable_grow (h : s' = s ∨ Rebuilt s s' ∧ s'.buckets = 2 * s.buckets) : KeepsTable s s' := by
  intro bits hs
  rcases h with rfl | ⟨hr, hb⟩
  · exact hs
  · obtain ⟨k, hk⟩ := hs.size
    exact hs.rebuilt hr ⟨k + 1, by rw [hb, hk]; ring⟩

theorem keepsTable_shrink (h : s' = s ∨ Rebuilt s s' ∧ s'.buckets = shrunk s.minBuckets s.size s.buckets) :
    KeepsTable s s' := by
  intro bits hs
  rcases h with rfl | ⟨hr, hb⟩
  · exact hs
  · obtain ⟨k, hk⟩ := hs.size
    rw [hs.least, hk] at hb
    exact hs.rebuilt hr (hb ▸ shrunk_pow bits s.size k)

/-- an entry that was taken out of its chain is away -/
theorem Tabled.without (h : Tabled bits .none s) (hne : ∀ i e, s.get? i = some e → i ≠ .none) (hrel : Relinked s s')
    (hw : Without id s s') : Tabled bits id s' := by
  refine ⟨by rw [hw.buckets]; exact h.size, by rw [hw.mask, hw.buckets]; exact h.mask,
    by rw [hw.least]; exact h.least, fun i e' he' hcount hi => hw.shown i hi ?_⟩
  obtain ⟨e, he, hcore⟩ := hrel.symm.get? he'
  have hcount' : e.core.hasCount = true := by rw [hcore]; exact hcount
  exact h.shown i e he hcount' (hne i e he)

/-- linking the entry that is away -/
theorem Tabled.link (h : Tabled bits id s) (hc : Chained s) (hl : Loose s id) (hne : id ≠ .none)
    (hcount : e.hasCount = true) : Tabled bits .none (s.link id e) := by
  refine ⟨h.size, h.mask, h.least, fun i x hx hx' _ => shown_link hc hl hne hcount ?_⟩
  by_cases hi : i = id
  · exact Or.inl hi
  · rw [get?_link, if_neg hi] at hx
    exact Or.inr (h.shown i x hx hx' hi)

/-- erasing the entry that is away -/
theorem Tabled.erased (h : Tabled bits id s) (hl : Loose s id) (hh : s'.heads = s.heads) (hb : s'.buckets = s.buckets)
    (hm : s'.mask = s.mask) (hleast : s'.minBuckets = s.minBuckets)
    (hget : ∀ i, s'.get? i = if i = id then none else s.get? i) : Tabled bits .none s' := by
  refine h.congr hh hb hm hleast (fun i hi x hx => ⟨x, ?_, rfl, rfl, rfl⟩) fun i x hx hx' _ => ?_
  · have hii : i ≠ id := fun hii => hi (hii ▸ hl)
    rw [hget, if_neg hii]
    exact hx
  · rw [hget] at hx
    split_ifs at hx with hii
    exact ⟨hii, x, hx, hx'⟩

end ModelCount.Store
