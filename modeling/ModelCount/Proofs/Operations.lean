/-
Runs of the store.

A store is used through eight operations (`Store.Op`), each of which may be refused for one reason only (`refusal`): an
id that it needs has no live entry, the ids are spent, or the root would be erased. Where none applies the operation
gives a result. `Ledger.run` carries out any number of operations and writes down which ids were given out since the
store last began. The chains, the table, the tree as soon as there are entries, and the order of the ids given out are
kept by every step and so by every run (`Kept`).
-/
import Mathlib.Tactic
import ModelCount.Proofs.Exact

namespace ModelCount

namespace Store

inductive Op where
  | plant (signature : Signature)
  | mint (signature : Signature) (father : EntryId)
  | attach (id : EntryId) (count : ℕ)
  | lookup (node : Node) (signature : Signature)
  | setDeletable (id : EntryId)
  | eraseBelow (id : EntryId)
  | evictRound
  | refresh

def refusal (s : Store) : Op → Option Fault
  | .mint _ father =>
    if s.has father then if s.nextId + 1 < 4294967296 then none else some (.idsSpent s.nextId) else some (.noEntry father)
  | .attach id _ | .setDeletable id => if s.has id then none else some (.noEntry id)
  | .eraseBelow id => if s.has id then if id = .root then some .rootErased else none else some (.noEntry id)
  | _ => none

/-! What a store needs for the operations it may refuse. -/

section Refusal

variable {s : Store} {id father : EntryId} {signature : Signature} {count : ℕ}

theorem refusal_mint (h : s.refusal (.mint signature father) = none) :
    (∃ p, s.get? father = some p) ∧ s.nextId + 1 < 4294967296 := by
  simp only [refusal] at h
  split_ifs at h with hf hn
  exact ⟨has_iff.1 hf, hn⟩

theorem refusal_attach (h : s.refusal (.attach id count) = none) : ∃ e, s.get? id = some e := by
  simp only [refusal] at h
  split_ifs at h with hid
  exact has_iff.1 hid

theorem refusal_setDeletable (h : s.refusal (.setDeletable id) = none) : ∃ e, s.get? id = some e := by
  simp only [refusal] at h
  split_ifs at h with hid
  exact has_iff.1 hid

theorem refusal_eraseBelow (h : s.refusal (.eraseBelow id) = none) : (∃ e, s.get? id = some e) ∧ id ≠ .root := by
  simp only [refusal] at h
  split_ifs at h with hid hroot
  exact ⟨has_iff.1 hid, hroot⟩

end Refusal

end Store

/-- a store, and the ids it has given out since it last began, in order -/
structure Ledger where
  store : Store
  given : List EntryId

namespace Ledger

open Store

def step (l : Ledger) : Op → Except Fault Ledger
  | .plant signature => .ok ⟨l.store.plant signature, [.root]⟩
  | .mint signature father => do
    let (id, store) ← l.store.mint signature father
    return ⟨store, l.given ++ [id]⟩
  | .attach id count => do return { l with store := ← (l.store.attach id count).result }
  | .lookup node signature => do return { l with store := (← l.store.lookup node signature).2.1 }
  | .setDeletable id => do return { l with store := ← l.store.setDeletable id }
  | .eraseBelow id => do return { l with store := ← l.store.eraseBelow id }
  | .evictRound => do return { l with store := (← l.store.evictRound.result).2 }
  | .refresh => .ok { l with store := l.store.refresh }

def run (l : Ledger) (ops : List Op) : Except Fault Ledger := ops.foldlM step l

/-- several operations from a new store with 2^bits buckets on -/
def ofOps (bits : ℕ) (ops : List Op) : Except Fault Ledger := do
  let store ← Store.empty bits
  (⟨store, []⟩ : Ledger).run ops

variable {l l' : Ledger} {op : Op} {id : EntryId}

/-- chains of live entries, which form a tree as soon as there are any and take no bytes before, and ascending ids given
out -/
structure Kept (l : Ledger) : Prop where
  chained : l.store.Chained
  sound : ∀ i, l.store.has i = true → l.store.Sound
  bare : (∀ i, ¬ l.store.has i = true) → l.store.entryBytes = 0
  ascending : l.given.Pairwise fun i j => i.id < j.id
  below : ∀ i ∈ l.given, i.id < l.store.nextId

structure Leads (l l' : Ledger) : Prop where
  kept : Kept l'
  sound : l.store.Sound → l'.store.Sound
  table : KeepsTable l.store l'.store

theorem Kept.of_sound (h : l.store.Sound) (ha : l.given.Pairwise fun i j => i.id < j.id)
    (hb : ∀ i ∈ l.given, i.id < l.store.nextId) : Kept l :=
  ⟨h.chained, fun _ _ => h, fun hnone => absurd h.has_root (hnone _), ha, hb⟩

theorem Kept.ne_none (h : Kept l) (i : EntryId) (e : Entry) (he : l.store.get? i = some e) : i ≠ .none :=
  (h.sound i (has_of_get? he)).ne_none he

/-- an operation that gives out no id -/
theorem Kept.leads (h : Kept l) {store : Store} (hs : store.Sound) (hn : store.nextId = l.store.nextId)
    (ht : KeepsTable l.store store) : Leads l { l with store := store } :=
  ⟨.of_sound hs h.ascending fun i hi => hn ▸ h.below i hi, fun _ => hs, ht⟩

/-- an operation that leaves entries, chains and table alone -/
theorem Kept.leads_of_same (h : Kept l) {store : Store} (he : store.entries = l.store.entries)
    (hn : store.nextId = l.store.nextId) (hbytes : store.entryBytes = l.store.entryBytes)
    (hh : store.heads = l.store.heads) (hb : store.buckets = l.store.buckets) (hm : store.mask = l.store.mask)
    (hl : store.minBuckets = l.store.minBuckets) : Leads l { l with store := store } := by
  have hget : ∀ i, store.get? i = l.store.get? i := fun i => by unfold get?; rw [he]
  have hhas : ∀ i, store.has i = l.store.has i := fun i => by unfold has; rw [hget]
  refine ⟨⟨?_, fun i hi => ?_, fun hnone => ?_, h.ascending, fun i hi => hn ▸ h.below i hi⟩,
    fun hs => hs.of_same he hn hbytes hh hm, keepsTable_of_same he hh hb hm hl⟩
  · exact h.chained.congr hh hm fun i _ e hi => ⟨e, (hget i).trans hi, rfl, rfl, rfl⟩
  · exact (h.sound i (hhas i ▸ hi)).of_same he hn hbytes hh hm
  · exact hbytes.trans (h.bare fun i hi => hnone i ((hhas i).trans hi))

/-! ## Refusals -/

theorem get?_gone {s : Store} (h : ¬ s.has id = true) : s.get? id = none := by
  rw [Store.has, Option.not_isSome_iff_eq_none] at h
  exact h

theorem entry_gone {s : Store} (h : ¬ s.has id = true) : s.entry id = .error (.noEntry id) := by
  rw [Store.entry, get?_gone h]

/-- an operation that is refused fails for that reason -/
theorem step_refused (h : Kept l) {fault : Fault} (hr : l.store.refusal op = some fault) :
    l.step op = .error fault := by
  cases op with
  | mint signature father =>
    simp only [refusal] at hr
    split_ifs at hr with hf hn
    · cases hr
      obtain ⟨p, hp⟩ := has_iff.1 hf
      rw [step, mint_eq hp (Nat.ne_of_lt ((h.sound _ hf).range father p hp).2), if_neg hn]
      rfl
    · cases hr
      rw [step, mint, require, if_neg hf]
      rfl
  | attach id count =>
    simp only [refusal] at hr
    split_ifs at hr with hid
    cases hr
    rw [step, attach_gone h.chained h.ne_none (get?_gone hid)]
    rfl
  | setDeletable id =>
    simp only [refusal] at hr
    split_ifs at hr with hid
    cases hr
    rw [step, setDeletable, update, entry_gone hid]
    rfl
  | eraseBelow id =>
    simp only [refusal] at hr
    split_ifs at hr with hid hroot
    · cases hr
      rw [step, hroot, eraseBelow_root (h.sound _ hid)]
      rfl
    · cases hr
      rw [step, eraseBelow, entry_gone hid]
      rfl
  | plant signature | lookup node signature | evictRound | refresh => cases hr

/-! ## Steps -/

/-- a store without entries has nothing to evict -/
theorem evictRound_bare {s : Store} (h : ∀ i, ¬ s.has i = true) : s.evictRound.result = .ok (0, s) := by
  refine evictRound_idle (List.eq_nil_iff_forall_not_mem.2 fun p hp => ?_)
  exact h p.1 (has_of_get? (mem_live.1 (List.mem_of_mem_filter hp)))

/-- looking up changes the counters only -/
theorem step_lookup (h : Kept l) (node : Node) (signature : Signature) :
    ∃ hits, l.step (.lookup node signature) =
      .ok { l with store := { l.store with lookups := l.store.lookups + 1, hits := hits } } := by
  rcases lookup_spec h.chained node signature with ⟨count, i, e, -, -, -, hrun⟩ | hrun
  · exact ⟨l.store.hits + 1, by rw [step, hrun]; rfl⟩
  · exact ⟨l.store.hits, by rw [step, hrun]; rfl⟩

/-- **One step.** An operation that is not refused gives a result and keeps everything. -/
theorem step_leads (h : Kept l) (hr : l.store.refusal op = none) : ∃ l', l.step op = .ok l' ∧ Leads l l' := by
  cases op with
  | plant signature =>
    have hs := sound_plant l.store signature
    refine ⟨_, rfl, .of_sound hs (by simp) fun i hi => ?_, fun _ => hs, keepsTable_plant l.store signature⟩
    rw [List.mem_singleton.1 hi]
    exact Nat.lt_succ_self 1
  | mint signature father =>
    obtain ⟨⟨p, hp⟩, hn⟩ := refusal_mint hr
    have hs := h.sound _ (has_of_get? hp)
    refine ⟨⟨l.store.minted signature father p, l.given ++ [⟨l.store.nextId⟩]⟩, ?_,
      .of_sound (hs.minted hp signature) ?_ ?_, fun _ => hs.minted hp signature, keepsTable_minted hp hs.unused signature⟩
    · rw [step, mint_eq hp (Nat.ne_of_lt (hs.range father p hp).2), if_pos hn]
      rfl
    · refine List.pairwise_append.2 ⟨h.ascending, by simp, fun i hi j hj => ?_⟩
      rw [List.mem_singleton.1 hj]
      exact h.below i hi
    · intro i hi
      show i.id < l.store.nextId + 1
      rcases List.mem_append.1 hi with hi | hi
      · exact (h.below i hi).trans (Nat.lt_succ_self _)
      · rw [List.mem_singleton.1 hi]
        exact Nat.lt_succ_self _
  | attach id count =>
    obtain ⟨e, he⟩ := refusal_attach hr
    obtain ⟨s', hrun, hsound, htable, hn, -⟩ := attach_spec (h.sound _ (has_of_get? he)) he count
    exact ⟨_, by rw [step, hrun]; rfl, h.leads hsound hn htable⟩
  | lookup node signature =>
    obtain ⟨hits, hrun⟩ := step_lookup h node signature
    exact ⟨_, hrun, h.leads_of_same rfl rfl rfl rfl rfl rfl rfl⟩
  | setDeletable id =>
    obtain ⟨e, he⟩ := refusal_setDeletable hr
    obtain ⟨hrun, hsound⟩ := setDeletable_spec (h.sound _ (has_of_get? he)) he
    exact ⟨_, by rw [step, hrun]; rfl, h.leads hsound rfl (keepsTable_put he rfl rfl rfl)⟩
  | eraseBelow id =>
    obtain ⟨⟨e, he⟩, hroot⟩ := refusal_eraseBelow hr
    obtain ⟨s', hrun, hsound, htable, hn, -⟩ := eraseBelow_spec (h.sound _ (has_of_get? he)) he hroot
    exact ⟨_, by rw [step, hrun]; rfl, h.leads hsound hn htable⟩
  | evictRound =>
    by_cases hlive : ∃ i, l.store.has i = true
    · obtain ⟨i, hi⟩ := hlive
      obtain ⟨r, hrun, hsound, htable, -, hkeeps⟩ := evictRound_spec (h.sound i hi)
      exact ⟨_, by rw [step, hrun]; rfl, h.leads hsound hkeeps.nextId htable⟩
    · refine ⟨_, ?_, h.leads_of_same rfl rfl rfl rfl rfl rfl rfl⟩
      rw [step, evictRound_bare (not_exists.1 hlive)]
      rfl
  | refresh => exact ⟨_, rfl, h.leads_of_same rfl rfl rfl rfl rfl rfl rfl⟩

/-- a step that gives a result was not refused -/
theorem Kept.of_step (h : Kept l) (hrun : l.step op = .ok l') : Leads l l' := by
  cases hr : l.store.refusal op with
  | none =>
    obtain ⟨l'', hrun', hleads⟩ := step_leads h hr
    rw [hrun] at hrun'
    cases hrun'
    exact hleads
  | some fault =>
    rw [step_refused h hr] at hrun
    cases hrun

/-- **Runs** keep what steps keep. -/
theorem Kept.of_run (h : Kept l) {ops : List Op} (hrun : l.run ops = .ok l') : Leads l l' := by
  refine (Ends.foldlM_state (E := AnyFault) (Leads l) ⟨h, fun hs => hs, KeepsTable.refl _⟩ ?_).get hrun
  intro op _ l₁ h₁
  refine Ends.of_ok fun l₂ hstep => ?_
  have h₂ := h₁.kept.of_step hstep
  exact ⟨h₂.kept, fun hs => h₂.sound (h₁.sound hs), h₁.table.trans h₂.table⟩

/-- a new store keeps an empty table, and so does all that comes of it -/
theorem ofOps_kept {bits : ℕ} {ops : List Op} (hrun : ofOps bits ops = .ok l) :
    Kept l ∧ l.store.Tabled bits .none := by
  by_cases hbits : bits ≤ 31
  · obtain ⟨store, hstore, htabled, hchained, hbare⟩ := tabled_empty hbits
    rw [ofOps, hstore, Except.ok_bind] at hrun
    have hbytes : store.entryBytes = 0 := by
      rw [Store.empty, if_pos hbits] at hstore
      cases hstore
      rfl
    have hkept : Kept ⟨store, []⟩ :=
      ⟨hchained, fun i hi => absurd hi (by rw [has, hbare]; decide), fun _ => hbytes, List.Pairwise.nil, by simp⟩
    have hleads := hkept.of_run hrun
    exact ⟨hleads.kept, hleads.table bits htabled⟩
  · rw [ofOps, Store.empty, if_neg hbits] at hrun
    cases hrun

end Ledger

end ModelCount
