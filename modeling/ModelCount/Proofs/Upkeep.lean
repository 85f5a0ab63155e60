/-
Every operation of the store keeps the store sound.

A sound store has its entries in chains and in a tree, and its byte counter is the sum of the sizes (`Sound`). On a
sound store no operation meets a fault, except that ids run out and the root is never erased; each is described by
what becomes of the live entries.
-/
import Mathlib.Tactic
import ModelCount.Proofs.Family
import ModelCount.Proofs.Table

namespace ModelCount.Store

def bytesAt (s : Store) (i : ℕ) : ℕ := ((s.get? ⟨i⟩).map Entry.sizeInBytes).getD 0

/-- the entries in range, in their chains and counted by size -/
structure Stocked (s : Store) : Prop where
  range : ∀ i e, s.get? i = some e → 1 ≤ i.id ∧ i.id < s.nextId
  chained : Chained s
  bytes : s.entryBytes = ∑ i ∈ Finset.range s.nextId, s.bytesAt i

structure Sound (s : Store) : Prop extends Stocked s where
  family : Family s.nextId s.core

variable {s s' : Store} {id i : EntryId} {e e' : Entry}

theorem core_eq (h : s.get? i = some e) : s.core i = some e.core := by
  unfold core; rw [h]; rfl

theorem get?_of_core (h : s.core i = some e) : ∃ e', s.get? i = some e' ∧ e'.core = e :=
  Option.map_eq_some_iff.1 h

/-- the root is live -/
theorem Sound.has_root (h : Sound s) : s.has .root = true := by
  obtain ⟨c, hc, -⟩ := h.family.root
  obtain ⟨e, he, -⟩ := get?_of_core hc
  exact has_of_get? he

theorem bytesAt_congr (h : s'.core i = s.core i) : s'.bytesAt i.id = s.bytesAt i.id := by
  have hsize : ∀ s : Store, s.bytesAt i.id = ((s.core i).map Entry.sizeInBytes).getD 0 := by
    intro s
    unfold bytesAt core
    rw [Option.map_map]
    rfl
  calc s'.bytesAt i.id
      = ((s'.core i).map Entry.sizeInBytes).getD 0 := hsize s'
    _ = ((s.core i).map Entry.sizeInBytes).getD 0 := by rw [h]
    _ = s.bytesAt i.id := (hsize s).symm

theorem Stocked.ne_none (h : Stocked s) (hi : s.get? i = some e) : i ≠ .none := by
  intro heq
  subst heq
  have := (h.range _ e hi).1
  exact absurd this (by decide)

/-- the next id is not in use -/
theorem Stocked.unused (h : Stocked s) : s.get? ⟨s.nextId⟩ = none :=
  Option.eq_none_iff_forall_not_mem.2 fun x hx => Nat.lt_irrefl _ (h.range _ x hx).2

/-- changing one summand -/
theorem sum_change {n k : ℕ} {f g : ℕ → ℕ} (hk : k < n) (h : ∀ i, i ≠ k → g i = f i) :
    (∑ i ∈ Finset.range n, g i) + f k = (∑ i ∈ Finset.range n, f i) + g k := by
  have hk' : k ∈ Finset.range n := Finset.mem_range.2 hk
  have hf := Finset.add_sum_erase (Finset.range n) f hk'
  have hg := Finset.add_sum_erase (Finset.range n) g hk'
  have heq : ∑ i ∈ (Finset.range n).erase k, g i = ∑ i ∈ (Finset.range n).erase k, f i :=
    Finset.sum_congr rfl fun i hi => h i (Finset.ne_of_mem_erase hi)
  omega

theorem Relinked.stocked (h : Relinked s s') (hs : Stocked s) (hc : Chained s') : Stocked s' := by
  refine ⟨fun i e' he' => ?_, hc, ?_⟩
  · obtain ⟨e, he, -⟩ := h.symm.get? he'
    rw [h.nextId]
    exact hs.range i e he
  · calc s'.entryBytes
        = ∑ k ∈ Finset.range s.nextId, s.bytesAt k := by rw [h.entryBytes, hs.bytes]
      _ = ∑ k ∈ Finset.range s.nextId, s'.bytesAt k :=
          Finset.sum_congr rfl fun k _ => (bytesAt_congr (i := ⟨k⟩) (h.core ⟨k⟩)).symm
      _ = ∑ k ∈ Finset.range s'.nextId, s'.bytesAt k := by rw [h.nextId]

theorem Relinked.sound (h : Relinked s s') (hs : Sound s) (hc : Chained s') : Sound s' := by
  refine ⟨h.stocked hs.toStocked hc, ?_⟩
  rw [h.nextId, funext h.core]
  exact hs.family

theorem relinked_of_same (he : s'.entries = s.entries) (hn : s'.nextId = s.nextId)
    (hbytes : s'.entryBytes = s.entryBytes) : Relinked s s' := by
  refine ⟨fun i => ?_, hn, hbytes⟩
  unfold core get?
  rw [he]

/-- the clock, the counters of look-ups and the memory estimate do not matter -/
theorem Sound.of_same (h : Sound s) (he : s'.entries = s.entries) (hn : s'.nextId = s.nextId)
    (hbytes : s'.entryBytes = s.entryBytes) (hh : s'.heads = s.heads) (hb : s'.mask = s.mask) : Sound s' := by
  refine (relinked_of_same he hn hbytes).sound h (h.chained.congr hh hb fun i _ e hi => ?_)
  refine ⟨e, ?_, rfl, rfl, rfl⟩
  rw [← hi]
  unfold get?
  rw [he]

/-- an entry that keeps its signature, count and link -/
theorem Stocked.amend (h : Stocked s) (hid : s.get? id = some e) (hsig : e'.signature = e.signature)
    (hcount : e'.count = e.count) (hnext : e'.next = e.next) : Stocked (s.put id e') := by
  have hget : ∀ i, (s.put id e').get? i = if i = id then some e' else s.get? i := fun i => get?_put
  refine ⟨fun i x hx => ?_, ?_, ?_⟩
  · rw [hget] at hx
    split_ifs at hx with hi
    · rw [hi]; exact h.range id e hid
    · exact h.range i x hx
  · refine h.chained.congr rfl rfl fun i _ x hx => ?_
    rw [hget]
    split_ifs with hi
    · rw [hi, hid] at hx
      cases hx
      exact ⟨e', rfl, hsig, hcount, hnext⟩
    · exact ⟨x, hx, rfl, rfl, rfl⟩
  · have hsame : ∀ k, s.bytesAt k = (s.put id e').bytesAt k := by
      intro k
      unfold bytesAt
      rw [hget]
      split_ifs with hk
      · rw [hk, hid, Option.map_some, Option.map_some]
        unfold Entry.sizeInBytes
        rw [hsig, hcount]
      · rfl
    calc (s.put id e').entryBytes
        = s.entryBytes := rfl
      _ = ∑ k ∈ Finset.range s.nextId, s.bytesAt k := h.bytes
      _ = ∑ k ∈ Finset.range s.nextId, (s.put id e').bytesAt k := Finset.sum_congr rfl fun k _ => hsame k

/-! ## What an operation leaves alone -/

/-- what a live entry is remembered by, and whether it is deletable -/
def key (s : Store) (i : EntryId) : Option (Signature × Bool) := (s.get? i).map fun e => (e.signature, e.deletable)

/-- the signature and the count of a live entry that has a count -/
def counted (s : Store) (i : EntryId) : Option (Signature × ℕ) :=
  (s.get? i).bind fun e => e.count.map fun c => (e.signature, c)

def fatherOf (s : Store) (i : EntryId) : Option EntryId := (s.get? i).map Entry.father

theorem fatherOf_eq (h : s.get? i = some e) : s.fatherOf i = some e.father := by
  rw [fatherOf, h, Option.map_some]

theorem fatherOf_eq_core : s.fatherOf i = (s.core i).map Entry.father := by
  unfold fatherOf core
  rw [Option.map_map]
  rfl

theorem key_eq_core : s.key i = (s.core i).map fun e => (e.signature, e.deletable) := by
  unfold key core
  rw [Option.map_map]
  rfl

theorem counted_eq_core : s.counted i = (s.core i).bind fun e => e.count.map fun c => (e.signature, c) := by
  unfold counted core
  rw [Option.bind_map]
  rfl

/-- from `s` to `s'` the entries of `K` stay with their signatures, flags and fathers in `K`, no count is new, and `n`
ids are given out -/
structure Keeps (K : EntryId → Prop) (n : ℕ) (s s' : Store) : Prop where
  nextId : s'.nextId = s.nextId + n
  key : ∀ i x, K i → s.key i = some x → s'.key i = some x
  father : ∀ i p, K i → K p → s.fatherOf i = some p → s'.fatherOf i = some p
  counted : ∀ i x, s'.counted i = some x → s.counted i = some x

namespace Keeps

variable {K K' : EntryId → Prop} {n n' : ℕ} {s'' : Store}

theorem refl (K : EntryId → Prop) (s : Store) : Keeps K 0 s s :=
  ⟨rfl, fun _ _ _ h => h, fun _ _ _ _ h => h, fun _ _ h => h⟩

theorem trans (h : Keeps K n s s') (h' : Keeps K n' s' s'') : Keeps K (n + n') s s'' :=
  ⟨by rw [h'.nextId, h.nextId, Nat.add_assoc], fun i x hi hx => h'.key i x hi (h.key i x hi hx),
    fun i p hi hp hx => h'.father i p hi hp (h.father i p hi hp hx), fun i x hx => h.counted i x (h'.counted i x hx)⟩

theorem mono (h : Keeps K n s s') (hK : ∀ i, K' i → K i) : Keeps K' n s s' :=
  ⟨h.nextId, fun i x hi => h.key i x (hK i hi), fun i p hi hp => h.father i p (hK i hi) (hK p hp), h.counted⟩

end Keeps

theorem Relinked.keeps (h : Relinked s s') (K : EntryId → Prop) : Keeps K 0 s s' := by
  refine ⟨h.nextId, fun i x _ hx => ?_, fun i p _ _ hx => ?_, fun i x hx => ?_⟩
  · rw [key_eq_core, h.core, ← key_eq_core]; exact hx
  · rw [fatherOf_eq_core, h.core, ← fatherOf_eq_core]; exact hx
  · rw [counted_eq_core, h.core, ← counted_eq_core] at hx; exact hx

/-! ## Beginning, minting, flagging -/

theorem sound_plant (s : Store) (signature : Signature) : Sound (s.plant signature) := by
  have hget : ∀ i, (s.plant signature).get? i = if i = .root then some (.fresh signature .none 1) else none :=
    fun i => get?_plant
  have hcore : ∀ i, (s.plant signature).core i = if i = .root then some (.fresh signature .none 1) else none := by
    intro i
    rw [core, hget]
    split_ifs <;> rfl
  refine ⟨⟨fun i e he => ?_, ?_, ?_⟩, ?_⟩
  · rw [hget] at he
    split_ifs at he with hi
    rw [hi]
    exact ⟨Nat.le_refl _, Nat.lt_succ_self _⟩
  · intro b
    refine ⟨[], List.nodup_nil, by simp, ?_⟩
    show ((∅ : Std.TreeMap ℕ EntryId)[b]?).getD .none = .none
    rw [Std.TreeMap.getElem?_emptyc]
    rfl
  · have hnone : (s.plant signature).bytesAt 0 = 0 := by
      rw [bytesAt, hget, if_neg (by decide)]
      rfl
    have hroot : (s.plant signature).bytesAt 1 = (Entry.fresh signature .none 1).sizeInBytes := by
      rw [bytesAt, hget, if_pos (by rfl)]
      rfl
    calc (s.plant signature).entryBytes
        = 0 + (Entry.fresh signature .none 1).sizeInBytes := rfl
      _ = (s.plant signature).bytesAt 0 + (s.plant signature).bytesAt 1 := by rw [hnone, hroot]
      _ = ∑ i ∈ Finset.range 2, (s.plant signature).bytesAt i := by rw [Finset.sum_range_succ, Finset.sum_range_one]
  · refine ⟨fun i e he => ?_, ⟨_, by rw [hcore, if_pos rfl], rfl⟩, fun i e he hi => ?_, fun i e he => ?_⟩
    · rw [hcore] at he
      split_ifs at he with hi
      rw [hi]
      exact ⟨Nat.le_refl _, Nat.lt_succ_self _⟩
    · rw [hcore, if_neg hi] at he
      cases he
    · rw [hcore] at he
      split_ifs at he
      cases he
      exact ⟨List.nodup_nil, by simp [Entry.fresh]⟩

theorem Sound.minted (h : Sound s) {father : EntryId} {f : Entry} (hf : s.get? father = some f)
    (signature : Signature) : Sound (s.minted signature father f) := by
  have hfr := h.range father f hf
  have hne : father ≠ ⟨s.nextId⟩ := fun heq => by rw [heq] at hfr; exact absurd hfr.2 (Nat.lt_irrefl _)
  have hget : ∀ i, (s.minted signature father f).get? i =
      if i = father then some { f with descendants := f.descendants ++ [⟨s.nextId⟩] }
      else if i = ⟨s.nextId⟩ then some (.fresh signature father (s.time + 1)) else s.get? i := fun i => get?_minted
  refine ⟨⟨fun i x hx => ?_, ?_, ?_⟩, ?_⟩
  · show 1 ≤ i.id ∧ i.id < s.nextId + 1
    rw [hget] at hx
    split_ifs at hx with h1 h2
    · rw [h1]; omega
    · rw [h2]
      exact ⟨hfr.1.trans hfr.2.le, Nat.lt_succ_self _⟩
    · have := h.range i x hx
      omega
  · refine h.chained.congr rfl rfl fun i _ x hx => ?_
    obtain ⟨l, hl⟩ := live_minted hf h.unused hx
    exact ⟨_, hl, rfl, rfl, rfl⟩
  · have hold : ∀ k ∈ Finset.range s.nextId, s.bytesAt k = (s.minted signature father f).bytesAt k := by
      intro k hk
      have hkn : (⟨k⟩ : EntryId) ≠ ⟨s.nextId⟩ := fun heq => by
        have := congrArg EntryId.id heq
        have hlt := Finset.mem_range.1 hk
        simp only at this
        omega
      unfold bytesAt
      rw [hget, if_neg hkn]
      split_ifs with h1
      · rw [h1, hf]; rfl
      · rfl
    have hfresh : (Entry.fresh signature father (s.time + 1)).sizeInBytes =
        (s.minted signature father f).bytesAt s.nextId := by
      rw [bytesAt, hget, if_neg (Ne.symm hne), if_pos rfl]
      rfl
    calc (s.minted signature father f).entryBytes
        = s.entryBytes + (Entry.fresh signature father (s.time + 1)).sizeInBytes := rfl
      _ = (∑ k ∈ Finset.range s.nextId, (s.minted signature father f).bytesAt k) +
            (s.minted signature father f).bytesAt s.nextId := by rw [h.bytes, Finset.sum_congr rfl hold, hfresh]
      _ = ∑ k ∈ Finset.range (s.nextId + 1), (s.minted signature father f).bytesAt k :=
          (Finset.sum_range_succ _ _).symm
  · refine h.family.mint (e := .fresh signature father (s.time + 1)) ⟨core_eq hf, rfl, fun i => ?_⟩
    rw [core, hget]
    simp only [apply_ite (Option.map Entry.core)]
    rfl

/-- an entry that keeps its place in the tree as well -/
theorem Sound.amend (h : Sound s) (hid : s.get? id = some e) (hsig : e'.signature = e.signature)
    (hcount : e'.count = e.count) (hnext : e'.next = e.next) (hf : e'.father = e.father)
    (hd : e'.descendants = e.descendants) : Sound (s.put id e') := by
  refine ⟨h.toStocked.amend hid hsig hcount hnext, h.family.congr fun i => ?_⟩
  unfold core
  rw [get?_put]
  split_ifs with hi
  · rw [hi, hid]
    simp only [Option.map_some, Entry.core, hf, hd]
  · rfl

theorem setDeletable_spec (h : Sound s) (hid : s.get? id = some e) :
    s.setDeletable id = .ok (s.put id e.setDeletable) ∧ Sound (s.put id e.setDeletable) :=
  ⟨update_eq hid, h.amend hid rfl rfl rfl rfl rfl⟩

/-! ## Attaching a count -/

theorem size_core (e : Entry) : e.core.sizeInBytes = e.sizeInBytes := rfl

/-- the size of a live entry is among the bytes counted -/
theorem Stocked.size_le (h : Stocked s) (hid : s.get? id = some e) : e.sizeInBytes ≤ s.entryBytes := by
  calc e.sizeInBytes
      = s.bytesAt id.id := by rw [bytesAt, hid]; rfl
    _ ≤ ∑ i ∈ Finset.range s.nextId, s.bytesAt i :=
        Finset.single_le_sum (fun _ _ => Nat.zero_le _) (Finset.mem_range.2 (h.range id e hid).2)
    _ = s.entryBytes := h.bytes.symm

theorem release_eq {bytes : ℕ} (h : bytes ≤ s.entryBytes) :
    s.release bytes = .ok { s with entryBytes := s.entryBytes - bytes } := if_pos h

/-- the bytes of the live entries after one of them has changed -/
theorem Stocked.sum_bytes (h : Stocked s) (hid : s.get? id = some e) (hother : ∀ i, i ≠ id → s'.get? i = s.get? i) :
    ∑ i ∈ Finset.range s.nextId, s'.bytesAt i = s.entryBytes - e.sizeInBytes + s'.bytesAt id.id := by
  have hchange := sum_change (n := s.nextId) (f := s.bytesAt) (g := s'.bytesAt) (h.range id e hid).2 fun k hk => by
    have hk' : (⟨k⟩ : EntryId) ≠ id := fun heq => hk (congrArg EntryId.id heq)
    unfold bytesAt
    rw [hother _ hk']
  have hold : s.bytesAt id.id = e.sizeInBytes := by
    rw [bytesAt, hid]
    rfl
  have hle := h.size_le hid
  rw [← h.bytes, hold] at hchange
  omega

/-- a loose entry is linked with other data; its bytes are counted anew and its place in the tree is the same -/
theorem Sound.relist (h : Sound s) (hloose : Loose s id) (hid : s.get? id = some e) (hcount : e'.hasCount = true)
    (hfather : e'.father = e.father) (hdesc : e'.descendants = e.descendants) :
    Sound { s.link id e' with entryBytes := s.entryBytes - e.sizeInBytes + e'.sizeInBytes } := by
  have hget : ∀ i, (s.link id e').get? i = if i = id then some { e' with next := s.head (s.bucketOf e'.hash) }
      else s.get? i := fun i => get?_put
  refine ⟨⟨fun i x hx => ?_, ?_, ?_⟩, h.family.congr fun i => ?_⟩
  · have hx' : (s.link id e').get? i = some x := hx
    rw [hget] at hx'
    split_ifs at hx' with hi
    · rw [hi]; exact h.range id e hid
    · exact h.range i x hx'
  · refine (ChainedIn.link h.chained hloose (h.ne_none hid) hcount).chained.congr rfl rfl fun i _ x hx => ?_
    exact ⟨x, hx, rfl, rfl, rfl⟩
  · have hnew : (s.link id e').bytesAt id.id = e'.sizeInBytes := by
      rw [bytesAt, hget, if_pos rfl]
      rfl
    calc s.entryBytes - e.sizeInBytes + e'.sizeInBytes
        = s.entryBytes - e.sizeInBytes + (s.link id e').bytesAt id.id := by rw [hnew]
      _ = ∑ i ∈ Finset.range s.nextId, (s.link id e').bytesAt i :=
          (h.sum_bytes hid fun i hi => by rw [hget, if_neg hi]).symm
  · show (((s.link id e').get? i).map Entry.core).map _ = _
    rw [hget]
    split_ifs with hi
    · rw [hi, core, hid]
      simp only [Option.map_some, Entry.core, hfather, hdesc]
    · rfl

/-- **Attaching.** The entry gets the count, and nothing else changes but links and the size of the table. -/
theorem attach_spec (h : Sound s) (hid : s.get? id = some e) (count : ℕ) :
    ∃ s', (s.attach id count).result = .ok s' ∧ Sound s' ∧ KeepsTable s s' ∧ s'.nextId = s.nextId ∧
      (∀ i, i ≠ id → s'.core i = s.core i) ∧
      ∃ e', s'.get? id = some e' ∧ e'.signature = e.signature ∧ e'.deletable = e.deletable ∧ e'.father = e.father ∧
        e'.count = some count := by
  obtain ⟨s1, h1, hr1, hc1, ht1⟩ := grow_spec h.chained fun i e he => h.ne_none he
  have hs1 := hr1.sound h hc1
  obtain ⟨e1, he1, hcore1⟩ := hr1.get? hid
  obtain ⟨s2, h2, hr2, hc2, hloose, hw⟩ := hide_spec hc1 he1 (hs1.ne_none he1)
  have hs2 := hr2.sound hs1 hc2
  obtain ⟨e2, he2, hcore2⟩ := hr2.get? he1
  obtain ⟨-, -, -, -, hfather, hdesc⟩ := Entry.fields_of_core hcore2
  have hsize : e2.sizeInBytes = e1.sizeInBytes := by rw [← size_core e2, hcore2, size_core]
  set counted : Entry := { e1 with count := some count, time := s2.time }
  have hget : ∀ i, (s2.link id counted).get? i =
      if i = id then some { counted with next := s2.head (s2.bucketOf counted.hash) } else s2.get? i := fun i => get?_put
  have hcount : counted.hasCount = true := rfl
  have hsound := hs2.relist hloose he2 hcount hfather.symm hdesc.symm
  rw [hsize] at hsound
  have htable : KeepsTable s (s2.link id counted) := fun bits ht =>
    Tabled.link (((keepsTable_grow ht1) bits ht).without (fun i e he => hs1.ne_none he) hr2 hw) hc2 hloose
      (hs1.ne_none he1) rfl
  refine ⟨_, ?_, hsound, htable.trans (keepsTable_of_same rfl rfl rfl rfl rfl), hr2.nextId.trans hr1.nextId,
    fun i hi => ?_, { counted with next := s2.head (s2.bucketOf counted.hash) }, (hget id).trans (if_pos rfl), ?_⟩
  · have hle : e1.sizeInBytes ≤ (s2.link id counted).entryBytes := hsize ▸ hs2.size_le he2
    simp only [attach, Traced.result_bind, Traced.result_lift]
    rw [h1, Except.ok_bind, entry_eq he1, Except.ok_bind, h2, Except.ok_bind, release_eq hle]
    rfl
  · rw [← hr1.core, ← hr2.core]
    show ((s2.link id counted).get? i).map Entry.core = (s2.get? i).map Entry.core
    rw [hget, if_neg hi]
  · obtain ⟨hsig, -, -, hdel, hfather', -⟩ := Entry.fields_of_core hcore1
    exact ⟨hsig, hdel, hfather', rfl⟩

/-! ## Erasing one entry -/

/-- **Erasing** removes the entry and changes nothing else but links. -/
theorem erase_spec (h : Stocked s) (hid : s.get? id = some e) (hroot : id ≠ .root) :
    ∃ s', s.erase id = .ok s' ∧ Stocked s' ∧ KeepsTable s s' ∧ s'.nextId = s.nextId ∧
      ∀ i, s'.core i = if i = id then none else s.core i := by
  obtain ⟨s1, h1, hr, hc, hloose, hw⟩ := hide_spec h.chained hid (h.ne_none hid)
  have hs1 := hr.stocked h hc
  obtain ⟨e1, he1, hcore1⟩ := hr.get? hid
  have hget : ∀ i, ({ s1 with entries := s1.entries.erase id.id } : Store).get? i =
      if i = id then none else s1.get? i := fun i => get?_erase
  have hsize : e.sizeInBytes = e1.sizeInBytes := by rw [← size_core e, ← hcore1, size_core]
  have hle : e.sizeInBytes ≤ s1.entryBytes := hsize ▸ hs1.size_le he1
  refine ⟨{ s1 with entries := s1.entries.erase id.id, entryBytes := s1.entryBytes - e.sizeInBytes }, ?_,
    ⟨fun i x hx => ?_, ?_, ?_⟩, fun bits ht => ?_, hr.nextId, fun i => ?_⟩
  · rw [erase, require_pos hroot, Except.ok_bind, entry_eq hid, Except.ok_bind, h1, Except.ok_bind]
    exact release_eq hle
  · have hx' : (if i = id then none else s1.get? i) = some x := (hget i).symm.trans hx
    split_ifs at hx'
    exact hs1.range i x hx'
  · refine hc.congr rfl rfl fun i hi x hx => ⟨x, ?_, rfl, rfl, rfl⟩
    have hii : i ≠ id := fun hii => hi (hii ▸ hloose)
    exact (hget i).trans (by rw [if_neg hii]; exact hx)
  · have hgone : ({ s1 with entries := s1.entries.erase id.id } : Store).bytesAt id.id = 0 := by
      rw [bytesAt, hget, if_pos rfl]
      rfl
    calc s1.entryBytes - e.sizeInBytes
        = s1.entryBytes - e1.sizeInBytes + ({ s1 with entries := s1.entries.erase id.id } : Store).bytesAt id.id := by
          rw [hgone, hsize, Nat.add_zero]
      _ = ∑ i ∈ Finset.range s1.nextId, ({ s1 with entries := s1.entries.erase id.id } : Store).bytesAt i :=
          (hs1.sum_bytes he1 fun i hi => by rw [hget, if_neg hi]).symm
  · exact (ht.without (fun i e he => h.ne_none he) hr hw).erased hloose rfl rfl rfl rfl hget
  · have hcore : (({ s1 with entries := s1.entries.erase id.id } : Store).get? i).map Entry.core =
        if i = id then none else s1.core i := by
      rw [hget]
      split_ifs <;> rfl
    rw [hr.core] at hcore
    exact hcore

/-- erasing several different entries -/
theorem foldlM_erase_spec {l : List EntryId} (h : Stocked s) (hd : l.Nodup) (hl : ∀ i ∈ l, ∃ e, s.core i = some e)
    (hroot : .root ∉ l) :
    ∃ s', l.foldlM erase s = .ok s' ∧ Stocked s' ∧ KeepsTable s s' ∧ s'.nextId = s.nextId ∧
      ∀ i, s'.core i = if i ∈ l then none else s.core i := by
  induction l generalizing s with
  | nil => exact ⟨s, rfl, h, KeepsTable.refl s, rfl, fun i => by simp⟩
  | cons id l ih =>
    obtain ⟨hnot, hd'⟩ := List.nodup_cons.1 hd
    obtain ⟨c, hc⟩ := hl id (by simp)
    obtain ⟨e, he, -⟩ := get?_of_core hc
    obtain ⟨s1, h1, h2, ht, h3, h4⟩ := erase_spec h he fun hr => hroot (by rw [hr]; simp)
    have hl' : ∀ i ∈ l, ∃ e, s1.core i = some e := by
      intro i hi
      have hii : i ≠ id := fun hii => hnot (hii ▸ hi)
      rw [h4, if_neg hii]
      exact hl i (List.mem_cons_of_mem _ hi)
    obtain ⟨s', k1, k2, kt, k3, k4⟩ := ih h2 hd' hl' fun hr => hroot (List.mem_cons_of_mem _ hr)
    refine ⟨s', by rw [List.foldlM_cons, h1, Except.ok_bind, k1], k2, ht.trans kt, k3.trans h3, fun i => ?_⟩
    rw [k4, h4]
    by_cases hi : i ∈ l
    · simp [hi]
    · by_cases hii : i = id <;> simp [hi, hii]

end ModelCount.Store
