/-
The store as a partial function from ids to entries.

Every change of the store is read through `get?`: writing an entry changes one value, erasing one removes it, and
minting adds a fresh entry and tells its father (`mint_eq`). The number of live entries bounds every list of
different live ids (`length_le_size`).
-/
import Mathlib.Tactic
import ModelCount.Store.Evict
import ModelCount.Proofs.Outcome

namespace ModelCount

theorem EntryId.ext_id {i j : EntryId} (h : i.id = j.id) : i = j := by
  cases i; cases j; simpa using h

theorem EntryId.id_inj {i j : EntryId} : i.id = j.id ↔ i = j := ⟨EntryId.ext_id, fun h => by rw [h]⟩

theorem EntryId.isNone_iff {i : EntryId} : i.isNone = true ↔ i = .none := by
  rw [isNone, beq_iff_eq]
  exact ⟨fun h => EntryId.ext_id h, fun h => by rw [h]; rfl⟩

namespace Store

variable {s : Store} {id i j : EntryId} {e : Entry}

/-! ## Single entries -/

theorem get?_put : (s.put id e).get? i = if i = id then some e else s.get? i := by
  unfold get? put
  simp only [Std.TreeMap.getElem?_insert, compare_eq_iff_eq, EntryId.id_inj]
  by_cases h : i = id
  · rw [if_pos h, if_pos h.symm]
  · rw [if_neg h, if_neg (fun hh => h hh.symm)]

theorem get?_erase :
    ({ s with entries := s.entries.erase id.id } : Store).get? i = if i = id then none else s.get? i := by
  unfold get?
  simp only [Std.TreeMap.getElem?_erase, compare_eq_iff_eq, EntryId.id_inj]
  by_cases h : i = id
  · rw [if_pos h, if_pos h.symm]
  · rw [if_neg h, if_neg (fun hh => h hh.symm)]

theorem get?_incorporate : (s.incorporate id e).get? i = if i = id then some e else s.get? i := get?_put

theorem has_iff : s.has id = true ↔ ∃ e, s.get? id = some e := Option.isSome_iff_exists

theorem has_of_get? (h : s.get? id = some e) : s.has id = true := has_iff.2 ⟨e, h⟩

theorem entry_eq (h : s.get? id = some e) : s.entry id = .ok e := by
  unfold entry; rw [h]

theorem update_eq {g : Entry → Entry} (h : s.get? id = some e) : s.update id g = .ok (s.put id (g e)) := by
  rw [update, entry_eq h]
  rfl

/-! ## Beginning -/

/-- only the root is live in a store that was just planted -/
theorem get?_plant {signature : Signature} :
    (s.plant signature).get? i = if i = .root then some (.fresh signature .none 1) else none := by
  unfold plant refresh
  simp only
  show (Store.incorporate { s with entries := ∅, heads := ∅, entryBytes := 0, time := 1 } .root
    (.fresh signature .none 1)).get? i = _
  rw [get?_incorporate]
  split_ifs
  · rfl
  · unfold get?
    exact Std.TreeMap.getElem?_emptyc

theorem has_root_plant {signature : Signature} : (s.plant signature).has .root = true :=
  has_of_get? (get?_plant.trans (if_pos rfl))

/-! ## Minting -/

/-- the store after a fresh entry was minted for a component split off from `father` -/
def minted (s : Store) (signature : Signature) (father : EntryId) (f : Entry) : Store :=
  let s' := { s with time := s.time + 1, nextId := s.nextId + 1 }
  (s'.incorporate ⟨s.nextId⟩ (.fresh signature father (s.time + 1))).put father
    { f with descendants := f.descendants ++ [⟨s.nextId⟩] }

theorem mint_eq {signature : Signature} {father : EntryId} {f : Entry} (hf : s.get? father = some f)
    (hid : father.id ≠ s.nextId) :
    s.mint signature father = if s.nextId + 1 < 4294967296
      then .ok (⟨s.nextId⟩, s.minted signature father f) else .error (.idsSpent s.nextId) := by
  have hne : father ≠ ⟨s.nextId⟩ := fun h => hid (by rw [h])
  rw [mint, require_pos (has_of_get? hf), Except.ok_bind]
  split_ifs with hn
  · rw [require_pos hn, Except.ok_bind]
    simp only
    rw [update_eq (e := f) (by rw [get?_incorporate, if_neg hne]; exact hf), Except.ok_bind]
    rfl
  · rw [require, if_neg hn]
    rfl

section Minted

variable {signature : Signature} {father : EntryId} {f : Entry}

theorem get?_minted :
    (s.minted signature father f).get? i =
      if i = father then some { f with descendants := f.descendants ++ [⟨s.nextId⟩] }
      else if i = ⟨s.nextId⟩ then some (.fresh signature father (s.time + 1)) else s.get? i := by
  unfold minted
  simp only
  rw [get?_put, get?_incorporate]
  rfl

/-- what was live before stays, but for its list of descendants -/
theorem live_minted (hf : s.get? father = some f) (hnew : s.get? ⟨s.nextId⟩ = none) (hi : s.get? i = some e) :
    ∃ l, (s.minted signature father f).get? i = some { e with descendants := l } := by
  rw [get?_minted]
  split_ifs with h1 h2
  · rw [h1, hf] at hi
    cases hi
    exact ⟨_, rfl⟩
  · rw [h2, hnew] at hi
    cases hi
  · exact ⟨e.descendants, hi⟩

/-- what is live then was live before, or is the fresh entry -/
theorem of_minted {e' : Entry} (hf : s.get? father = some f)
    (hi : (s.minted signature father f).get? i = some e') :
    (i = ⟨s.nextId⟩ ∧ e' = .fresh signature father (s.time + 1)) ∨
      ∃ e l, s.get? i = some e ∧ e' = { e with descendants := l } := by
  rw [get?_minted] at hi
  split_ifs at hi with h1 h2
  · cases hi
    exact Or.inr ⟨f, _, h1 ▸ hf, rfl⟩
  · cases hi
    exact Or.inl ⟨h2, rfl⟩
  · exact Or.inr ⟨e', e'.descendants, hi, rfl⟩

end Minted

/-- minting fails only when the ids are spent; no live entry is lost -/
theorem mint_spec (signature : Signature) {father : EntryId} (hf : s.has father = true) :
    Ends (fun fault => fault = .idsSpent s.nextId ∧ 4294967295 ≤ s.nextId) (s.mint signature father) fun t =>
      t.1 = ⟨s.nextId⟩ ∧ t.2.nextId = s.nextId + 1 ∧ t.2.has t.1 = true ∧ ∀ i, s.has i = true → t.2.has i = true := by
  rw [mint, require_pos hf, Except.ok_bind]
  by_cases hn : s.nextId + 1 < 4294967296
  · rw [require_pos hn, Except.ok_bind]
    simp only
    set s1 := ({ s with time := s.time + 1, nextId := s.nextId + 1 } : Store).incorporate ⟨s.nextId⟩
      (.fresh signature father (s.time + 1))
    have hkeep : ∀ i, i = ⟨s.nextId⟩ ∨ s.has i = true → s1.has i = true := by
      intro i hi
      rw [has, show s1.get? i = if i = ⟨s.nextId⟩ then _ else _ from get?_incorporate]
      split_ifs with h
      · rfl
      · rcases hi with hi | hi
        · exact absurd hi h
        · exact hi
    obtain ⟨f, hf'⟩ := has_iff.1 (hkeep father (Or.inr hf))
    rw [update_eq hf', Except.ok_bind]
    have hput : ∀ i g, s1.has i = true → (s1.put father g).has i = true := by
      intro i g hi
      rw [has, get?_put]
      split_ifs
      · rfl
      · exact hi
    exact ⟨rfl, rfl, hput _ _ (hkeep _ (Or.inl rfl)), fun i hi => hput i _ (hkeep i (Or.inr hi))⟩
  · rw [require, if_neg hn]
    exact ⟨rfl, by omega⟩

/-! ## Counting live entries -/

theorem mem_live {p : EntryId × Entry} : p ∈ s.live ↔ s.get? p.1 = some p.2 := by
  unfold live get?
  simp only [List.mem_map, Prod.exists, Std.TreeMap.mem_toList_iff_getElem?_eq_some]
  constructor
  · intro hex
    rcases hex with ⟨k, e, h, rfl⟩
    exact h
  · intro h; exact ⟨p.1.id, p.2, h, rfl⟩

theorem nodup_live : (s.live.map Prod.fst).Nodup := by
  rw [live, List.map_map]
  have h : ((s.entries.toList.map Prod.fst)).Nodup := by
    rw [Std.TreeMap.map_fst_toList_eq_keys]; exact Std.TreeMap.nodup_keys
  have hinj : Function.Injective EntryId.mk := fun a b h => by simpa using h
  have := h.map hinj
  rwa [List.map_map] at this

theorem length_live : s.live.length = s.size := by
  unfold live size
  rw [List.length_map, Std.TreeMap.length_toList]

theorem mem_liveIds : i ∈ s.live.map Prod.fst ↔ s.has i = true := by
  simp only [List.mem_map, Prod.exists, mem_live, exists_and_right, exists_eq_right, has_iff]

/-- different live ids are no more than there are live entries -/
theorem length_le_size {ids : List EntryId} (hd : ids.Nodup) (hl : ∀ i ∈ ids, s.has i = true) :
    ids.length ≤ s.size := by
  rw [← length_live, ← List.length_map (f := Prod.fst)]
  exact (hd.subperm fun i hi => mem_liveIds.2 (hl i hi)).length_le

/-- all live ids, each once, are as many as there are live entries -/
theorem length_eq_size {ids : List EntryId} (hd : ids.Nodup) (hmem : ∀ i, i ∈ ids ↔ s.has i = true) :
    ids.length = s.size := by
  rw [← length_live, ← List.length_map (f := Prod.fst)]
  exact ((List.perm_ext_iff_of_nodup hd nodup_live).2 fun i => (hmem i).trans mem_liveIds.symm).length_eq

/-- where one entry is gone, the store is smaller by one -/
theorem size_of_gone {s' : Store} (hid : s.has id = true)
    (hgone : ∀ i, s'.has i = true ↔ s.has i = true ∧ i ≠ id) : s'.size + 1 = s.size := by
  have hnot : id ∉ s'.live.map Prod.fst := fun hm => ((hgone id).1 (mem_liveIds.1 hm)).2 rfl
  have hlen := length_eq_size (s := s) (List.nodup_cons.2 ⟨hnot, nodup_live⟩) fun i => by
    rw [List.mem_cons, mem_liveIds, hgone]
    by_cases hi : i = id
    · simp [hi, hid]
    · simp [hi]
  rwa [List.length_cons, List.length_map, length_live] at hlen

end Store

end ModelCount
