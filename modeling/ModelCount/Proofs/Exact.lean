/-
Exact counts, and entries that last.

A count in the store is exact if it is the number of models of what the signature of its entry stands for (`Exact`).
Only attaching makes a count, so that every other operation keeps a store exact (`Keeps.exact`), and so does attaching
an exact count. An open node relies on its entries being there when it comes back to them: those that are not flagged
deletable last through minting, attaching and evicting, and through all erasing below younger entries (`Lasts`).
-/
import Mathlib.Tactic
import ModelCount.Proofs.Component
import ModelCount.Proofs.Erasing
import ModelCount.Proofs.Valid

namespace ModelCount

def Signature.models (f : Formula) (signature : Signature) : ℕ :=
  numModels signature.vars.toFinset (f.standing signature.vars.toFinset signature.clauses)

namespace Store

variable {f : Formula} {s s' s'' : Store} {id i father : EntryId} {e : Entry} {signature : Signature}

/-- every count in the store is the number of models of what its signature stands for -/
def Exact (f : Formula) (s : Store) : Prop :=
  ∀ i signature count, s.counted i = some (signature, count) → signature.models f = count

theorem Keeps.exact {K : EntryId → Prop} {n : ℕ} (h : Keeps K n s s') (hs : s.Exact f) : s'.Exact f :=
  fun i signature count hc => hs i signature count (h.counted i _ hc)

theorem Exact.count_eq (h : s.Exact f) (hi : s.get? i = some e) {count : ℕ} (hc : e.count = some count) :
    e.signature.models f = count := by
  apply h i e.signature count
  rw [counted, hi, Option.bind_some, hc, Option.map_some]

/-- the root has no count at first -/
theorem exact_plant (s : Store) (signature : Signature) : (s.plant signature).Exact f := by
  intro i sig count hc
  unfold counted at hc
  rw [get?_plant] at hc
  split_ifs at hc <;> cases hc

theorem Held.has (h : Held s i) : s.has i = true := by
  obtain ⟨signature, hkey⟩ := h
  obtain ⟨e, he, -⟩ := get?_of_key hkey
  exact has_of_get? he

theorem Sound.held_lt (hs : Sound s) (h : Held s i) : i.id < s.nextId := by
  obtain ⟨signature, hkey⟩ := h
  obtain ⟨e, he, -⟩ := get?_of_key hkey
  exact (hs.range i e he).2

theorem Keeps.isHeld {K : EntryId → Prop} {n : ℕ} (h : Keeps K n s s') (hi : Held s i) (hK : K i) : Held s' i := by
  obtain ⟨signature, hkey⟩ := hi
  exact ⟨signature, h.key i _ hK hkey⟩

/-- entries that are not deletable stay with their signatures, and with fathers that are not deletable either -/
structure Lasts (s s' : Store) : Prop where
  held : ∀ i signature, s.key i = some (signature, false) → s'.key i = some (signature, false)
  father : ∀ i p, Held s i → Held s p → s.fatherOf i = some p → s'.fatherOf i = some p

theorem Lasts.refl (s : Store) : Lasts s s := ⟨fun _ _ h => h, fun _ _ _ _ h => h⟩

theorem Lasts.isHeld (h : Lasts s s') (hi : Held s i) : Held s' i := by
  obtain ⟨signature, hkey⟩ := hi
  exact ⟨signature, h.held i signature hkey⟩

theorem Lasts.trans (h : Lasts s s') (h' : Lasts s' s'') : Lasts s s'' :=
  ⟨fun i x hx => h'.held i x (h.held i x hx),
    fun i p hi hp hx => h'.father i p (h.isHeld hi) (h.isHeld hp) (h.father i p hi hp hx)⟩

theorem Keeps.lasts {n : ℕ} (h : Keeps (Held s) n s s') : Lasts s s' :=
  ⟨fun i signature hi => h.key i _ ⟨signature, hi⟩ hi, h.father⟩

/-- what concerns younger entries only does not end what lasted -/
theorem Lasts.keeps {n : ℕ} (h : Lasts s s') (hs : Sound s) (hk : Keeps (fun i => i.id < s.nextId) n s' s'') :
    Lasts s s'' :=
  ⟨fun i signature hi => hk.key i _ (hs.held_lt ⟨signature, hi⟩) (h.held i signature hi),
    fun i p hi hp hx => hk.father i p (hs.held_lt hi) (hs.held_lt hp) (h.father i p hi hp hx)⟩

/-! ## The operations -/

/-- **Minting** fails only when the ids are spent; the new entry is not deletable, and has no count. -/
theorem Sound.mint_spec (h : Sound s) (hf : s.has father = true) (signature : Signature) :
    Ends (fun fault => fault = .idsSpent s.nextId ∧ 4294967295 ≤ s.nextId) (s.mint signature father) fun t =>
      t.1 = ⟨s.nextId⟩ ∧ Sound t.2 ∧ Keeps (fun _ => True) 1 s t.2 ∧ t.2.key t.1 = some (signature, false) ∧
      t.2.fatherOf t.1 = some father := by
  obtain ⟨p, hp⟩ := has_iff.1 hf
  have hlt := (h.range father p hp).2
  have hne : (⟨s.nextId⟩ : EntryId) ≠ father := by
    intro heq
    subst heq
    exact Nat.lt_irrefl _ hlt
  rw [mint_eq hp (Nat.ne_of_lt hlt)]
  split_ifs with hn
  · have hnew : (s.minted signature father p).get? ⟨s.nextId⟩ = some (.fresh signature father (s.time + 1)) := by
      rw [get?_minted, if_neg hne, if_pos rfl]
    refine ⟨rfl, h.minted hp signature, ⟨rfl, fun i x _ hx => ?_, fun i a _ _ hx => ?_, fun i x hx => ?_⟩,
      key_eq hnew, fatherOf_eq hnew⟩
    · obtain ⟨e, he, -⟩ := get?_of_key hx
      obtain ⟨l, hl⟩ := live_minted hp h.unused he
      rw [← hx, key_eq he, key_eq hl]
    · obtain ⟨e, he, -⟩ := Option.map_eq_some_iff.1 hx
      obtain ⟨l, hl⟩ := live_minted hp h.unused he
      rw [← hx, fatherOf_eq he, fatherOf_eq hl]
    · obtain ⟨e', he', hcount⟩ := Option.bind_eq_some_iff.1 hx
      rcases of_minted hp he' with ⟨-, rfl⟩ | ⟨e, l, he, rfl⟩
      · cases hcount
      · exact Option.bind_eq_some_iff.2 ⟨e, he, hcount⟩
  · exact ⟨rfl, by omega⟩

theorem setDeletable_keeps (h : Sound s) (hid : s.has id = true) :
    ∃ s', s.setDeletable id = .ok s' ∧ Sound s' ∧ Keeps (· ≠ id) 0 s s' := by
  obtain ⟨e, he⟩ := has_iff.1 hid
  obtain ⟨h1, h2⟩ := setDeletable_spec h he
  have hget : ∀ i, (s.put id e.setDeletable).get? i = if i = id then some e.setDeletable else s.get? i :=
    fun i => get?_put
  refine ⟨_, h1, h2, rfl, fun i x hi hx => ?_, fun i p hi _ hx => ?_, fun i x hx => ?_⟩
  · rw [← hx]
    unfold key
    rw [hget, if_neg hi]
  · rw [← hx]
    unfold fatherOf
    rw [hget, if_neg hi]
  · rw [← hx]
    unfold counted
    rw [hget]
    split_ifs with hi
    · rw [hi, he]; rfl
    · rfl

/-- **Erasing below** an entry concerns this entry and younger ones. -/
theorem eraseBelow_keeps (h : Sound s) (hid : s.has id = true) (hroot : id ≠ .root) :
    ∃ s', s.eraseBelow id = .ok s' ∧ Sound s' ∧ Keeps (fun i => i.id < id.id) 0 s s' := by
  obtain ⟨e, he⟩ := has_iff.1 hid
  obtain ⟨s', h1, h2, -, h3, h4⟩ := eraseBelow_spec h he hroot
  have hsame : ∀ i, ¬ Below s.core id i →
      s'.key i = s.key i ∧ s'.fatherOf i = s.fatherOf i ∧ s'.counted i = s.counted i := by
    intro i hi
    rw [key_eq_core, key_eq_core, fatherOf_eq_core, fatherOf_eq_core, counted_eq_core, counted_eq_core, (h4 i).2 hi]
    split_ifs
    · rw [Option.map_map, Option.map_map, Option.bind_map]
      exact ⟨rfl, rfl, rfl⟩
    · exact ⟨rfl, rfl, rfl⟩
  have hnot : ∀ i : EntryId, i.id < id.id → ¬ Below s.core id i := fun i hi hb =>
    absurd (h.family.below_le hb) (Nat.not_le.2 hi)
  refine ⟨s', h1, h2, h3, fun i x hi hx => ?_, fun i p hi _ hx => ?_, fun i x hx => ?_⟩
  · rw [(hsame i (hnot i hi)).1]; exact hx
  · rw [(hsame i (hnot i hi)).2.1]; exact hx
  · have hnot : ¬ Below s.core id i := by
      intro hb
      rw [counted_eq_core, (h4 i).1 hb] at hx
      cases hx
    rw [← (hsame i hnot).2.2]; exact hx

/-- **Attaching** an exact count keeps the store exact, and all entries with their signatures and flags. -/
theorem attach_exact (h : Sound s) {flag : Bool} (hid : s.key id = some (signature, flag)) (count : ℕ) :
    ∃ s', (s.attach id count).result = .ok s' ∧ Sound s' ∧ s'.nextId = s.nextId ∧ Lasts s s' ∧
      ∀ f, s.Exact f → signature.models f = count → s'.Exact f := by
  obtain ⟨e, he, hsig, -⟩ := get?_of_key hid
  obtain ⟨s', h1, h2, -, h3, h4, e', he', hsig', hflag', hfather', hcount'⟩ := attach_spec h he count
  have hother : ∀ i, i ≠ id → s'.key i = s.key i ∧ s'.fatherOf i = s.fatherOf i ∧ s'.counted i = s.counted i := by
    intro i hi
    rw [key_eq_core, key_eq_core, fatherOf_eq_core, fatherOf_eq_core, counted_eq_core, counted_eq_core, h4 i hi]
    exact ⟨rfl, rfl, rfl⟩
  refine ⟨s', h1, h2, h3, ⟨fun i x hx => ?_, fun i p _ _ hx => ?_⟩, fun f hex hmodels i x c hx => ?_⟩
  · by_cases hi : i = id
    · rw [hi, key_eq he] at hx
      rw [hi, key_eq he', hsig', hflag', hx]
    · rw [(hother i hi).1, hx]
  · by_cases hi : i = id
    · rw [hi, fatherOf_eq he] at hx
      rw [hi, fatherOf_eq he', hfather', hx]
    · rw [(hother i hi).2.1, hx]
  · by_cases hi : i = id
    · rw [hi] at hx
      unfold counted at hx
      rw [he', Option.bind_some, hcount', Option.map_some, hsig', Option.some.injEq, Prod.mk.injEq] at hx
      rw [← hx.1, ← hx.2, ← hmodels]
      exact congrArg (Signature.models f) hsig
    · rw [(hother i hi).2.2] at hx
      exact hex i x c hx

/-- an entry that is gone gets no count -/
theorem attach_gone (h : Chained s) (hne : ∀ i e, s.get? i = some e → i ≠ .none) (hid : s.get? id = none) (count : ℕ) :
    (s.attach id count).result = .error (.noEntry id) := by
  obtain ⟨s1, h1, hr, -⟩ := grow_spec h hne
  have hnone : s1.get? id = none := by
    have := hr.core id
    unfold core at this
    rw [hid, Option.map_none] at this
    exact Option.map_eq_none_iff.1 this
  have hentry : s1.entry id = .error (.noEntry id) := by
    rw [entry, hnone]
  simp only [attach, Traced.result_bind, Traced.result_lift]
  rw [h1, Except.ok_bind, hentry]
  rfl

end Store

end ModelCount
