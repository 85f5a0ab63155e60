/-
A round of eviction, exactly.

The entries that may be evicted are ranked by age (`Ranking`). A round erases those that are no younger than the one
in the middle and no others, so more than half; all others stay as they are, except that an entry whose father is
erased goes to the nearest ancestor that is not (`Nearest`, `Spared`). The victims are erased one after the other:
what is between a survivor and its new father may have been taken out in any order. Main result: `evictRound_exact`,
for every store that operations lead to.
-/
import Mathlib.Tactic
import ModelCount.Proofs.Lineage
import ModelCount.Proofs.Lookups

namespace ModelCount

namespace Store

variable {s s' s₁ : Store} {id i a b p : EntryId} {e : Entry} {l : List EntryId} {D : List (EntryId × Entry)}

/-! ## The middle of the ranking -/

/-- the entries that may be evicted, each once: the live ones that are deletable, but for the root, the oldest first -/
structure Ranking (s : Store) (D : List (EntryId × Entry)) : Prop where
  nodup : D.Nodup
  mem : ∀ i e, (i, e) ∈ D ↔ s.get? i = some e ∧ i ≠ .root ∧ e.deletable = true
  ascending : D.Pairwise fun p q => p.2.time ≤ q.2.time

theorem mem_candidates : (i, e) ∈ s.candidates ↔ s.get? i = some e ∧ i ≠ .root ∧ e.deletable = true := by
  rw [candidates, List.mem_filter, mem_live, Bool.and_eq_true, bne_iff_ne]

theorem nodup_candidates : s.candidates.Nodup := (List.Nodup.of_map Prod.fst nodup_live).filter _

theorem exists_ranking (s : Store) : ∃ D, s.Ranking D := by
  refine ⟨s.candidates.mergeSort fun p q => decide (p.2.time ≤ q.2.time), ?_, fun i e => ?_, ?_⟩
  · exact (List.mergeSort_perm _ _).nodup_iff.2 nodup_candidates
  · rw [(List.mergeSort_perm _ _).mem_iff]
    exact mem_candidates
  · refine (List.pairwise_mergeSort (fun p q r hpq hqr => ?_) (fun p q => ?_) _).imp fun hle => by simpa using hle
    · simp only [decide_eq_true_eq] at hpq hqr ⊢
      exact hpq.trans hqr
    · simp only [Bool.or_eq_true, decide_eq_true_eq]
      exact Nat.le_total _ _

namespace Ranking

theorem perm (h : s.Ranking D) : D.Perm s.candidates := by
  refine (List.perm_ext_iff_of_nodup h.nodup nodup_candidates).2 fun p => ?_
  obtain ⟨i, e⟩ := p
  exact (h.mem i e).trans mem_candidates.symm

/-- the times of the ranking are the sorted times -/
theorem median_eq (h : s.Ranking D) {t : ℕ} (ht : (D.map fun p => p.2.time)[D.length / 2]? = some t) :
    median (s.candidates.map fun p => p.2.time) = t := by
  have hperm : ((s.candidates.map fun p => p.2.time).mergeSort (· ≤ ·)).Perm (D.map fun p => p.2.time) :=
    (List.mergeSort_perm _ _).trans (h.perm.map _).symm
  have hsorted : ((s.candidates.map fun p => p.2.time).mergeSort (· ≤ ·)).Pairwise (· ≤ ·) :=
    List.pairwise_mergeSort' (· ≤ ·) _
  have heq := hperm.eq_of_pairwise' hsorted (List.pairwise_map.2 h.ascending)
  rw [median, heq, List.length_map, ← h.perm.length_eq, ht]
  rfl

/-- a round erases the entries of the ranking up to the time in the middle -/
theorem mem_victims (h : s.Ranking D) {t : ℕ} (ht : (D.map fun p => p.2.time)[D.length / 2]? = some t) :
    i ∈ s.victims ↔ ∃ e, (i, e) ∈ D ∧ e.time ≤ t := by
  simp only [victims, h.median_eq ht, List.mem_map, List.mem_filter, decide_eq_true_eq, Prod.exists, exists_and_right,
    exists_eq_right, h.perm.mem_iff]

end Ranking

/-- in an ascending list, what is no larger than the element in one place comes to more than that place -/
theorem lt_length_filter_le {times : List ℕ} (h : times.Pairwise (· ≤ ·)) {k t : ℕ} (ht : times[k]? = some t) :
    k < (times.filter (· ≤ t)).length := by
  obtain ⟨hk, rfl⟩ := List.getElem?_eq_some_iff.1 ht
  have hfirst : (times.take (k + 1)).filter (· ≤ times[k]) = times.take (k + 1) := by
    refine List.filter_eq_self.2 fun x hx => ?_
    obtain ⟨j, hj, rfl⟩ := List.mem_take_iff_getElem.1 hx
    exact decide_eq_true (h.rel_get_of_le (a := ⟨j, by omega⟩) (b := ⟨k, hk⟩) (by simp; omega))
  calc k < (times.take (k + 1)).length := by rw [List.length_take]; omega
    _ = ((times.take (k + 1)).filter (· ≤ times[k])).length := by rw [hfirst]
    _ ≤ (times.filter (· ≤ times[k])).length := ((List.take_sublist _ _).filter _).length_le

theorem Ranking.lt_length_victims (h : s.Ranking D) {t : ℕ}
    (ht : (D.map fun p => p.2.time)[D.length / 2]? = some t) : D.length / 2 < s.victims.length := by
  have hlt := lt_length_filter_le (List.pairwise_map.2 h.ascending) ht
  have hlen : ((D.map fun p => p.2.time).filter (· ≤ t)).length = s.victims.length := by
    rw [victims, h.median_eq ht, List.length_map, List.filter_map, List.length_map]
    exact (h.perm.filter _).length_eq
  omega

/-! ## The nearest survivor -/

/-- going up from an entry, the entry itself included, the second one is the first that is not gone -/
inductive Nearest (s : Store) (gone : EntryId → Prop) : EntryId → EntryId → Prop
  | here {a : EntryId} : ¬ gone a → Nearest s gone a a
  | up {a p b : EntryId} : gone a → s.fatherOf a = some p → Nearest s gone p b → Nearest s gone a b

/-- exactly the entries of `gone` are erased; all others stay as they are, under their nearest survivor -/
structure Spared (gone : EntryId → Prop) (s s' : Store) : Prop where
  erased : ∀ i, gone i → s'.get? i = none
  dead : ∀ i, s.get? i = none → s'.get? i = none
  stays : ∀ i e, s.get? i = some e → ¬ gone i → ∃ e', s'.get? i = some e' ∧ e'.signature = e.signature ∧
    e'.count = e.count ∧ e'.time = e.time ∧ e'.deletable = e.deletable ∧ s.Nearest gone e.father e'.father

/-- what is nearest after an entry was taken out of the tree was nearest with it -/
theorem Nearest.of_taken (h : s₁.Nearest (· ∈ l) a b) (he : s.fatherOf id = some p) (hp : p ≠ id)
    (hf : ∀ x q, s₁.fatherOf x = some q → ∃ r, s.fatherOf x = some r ∧ q = if r = id then p else r) (ha : a ≠ id) :
    s.Nearest (· ∈ id :: l) a b := by
  induction h with
  | here hnot => exact .here fun hm => (List.mem_cons.1 hm).elim ha hnot
  | up hm hq _ ih =>
    obtain ⟨r, hr, rfl⟩ := hf _ _ hq
    refine .up (List.mem_cons_of_mem _ hm) hr ?_
    split_ifs at ih with hrid
    · subst hrid
      exact .up List.mem_cons_self he (ih hp)
    · exact ih hrid

/-- one entry is erased alone -/
theorem eraseAlone_fields (h : Sound s) (hid : s.get? id = some e) (hroot : id ≠ .root)
    (hrun : s.eraseAlone id = .ok s₁) :
    Sound s₁ ∧ (∀ i, i = id ∨ s.get? i = none → s₁.get? i = none) ∧
      ∀ i x, s.get? i = some x → i ≠ id → ∃ x', s₁.get? i = some x' ∧ x'.signature = x.signature ∧ x'.count = x.count ∧
        x'.time = x.time ∧ x'.deletable = x.deletable ∧ x'.father = if x.father = id then e.father else x.father := by
  obtain ⟨s', hrun', hsound, -, -, hgone, hcore⟩ := eraseAlone_spec h hid hroot
  rw [hrun] at hrun'
  cases hrun'
  refine ⟨hsound, fun i hi => ?_, fun i x hx hi => ?_⟩
  · have hnone : s₁.core i = none := by
      by_cases heq : i = id
      · rw [heq, hgone]
      · rw [hcore i heq, core, hi.resolve_left heq]
        rfl
    exact Option.map_eq_none_iff.1 hnone
  · have hi' := hcore i hi
    rw [core_eq hx, Option.map_some] at hi'
    obtain ⟨x', hx', heq⟩ := get?_of_core hi'
    obtain ⟨hsig, hcount, htime, hdel, hfather, -⟩ := Entry.fields_of_core heq
    exact ⟨x', hx', hsig, hcount, htime, hdel, hfather⟩

/-- **A batch.** Several different entries are erased alone, one after the other. -/
theorem spared_of_foldlM (h : Sound s) (hd : l.Nodup) (hl : ∀ i ∈ l, s.has i = true ∧ i ≠ .root)
    (hrun : l.foldlM eraseAlone s = .ok s') : Spared (· ∈ l) s s' := by
  induction l generalizing s with
  | nil =>
    cases hrun
    exact ⟨by simp, fun _ hi => hi, fun i e he _ => ⟨e, he, rfl, rfl, rfl, rfl, .here (by simp)⟩⟩
  | cons id l ih =>
    obtain ⟨hnot, hd'⟩ := List.nodup_cons.1 hd
    obtain ⟨hlive, hroot⟩ := hl id (by simp)
    obtain ⟨e, he⟩ := has_iff.1 hlive
    rw [List.foldlM_cons] at hrun
    obtain ⟨s₁, hfirst, hrest⟩ := exists_of_bind hrun
    obtain ⟨hsound, hdead, hstays⟩ := eraseAlone_fields h he hroot hfirst
    have hl' : ∀ i ∈ l, s₁.has i = true ∧ i ≠ .root := by
      intro i hi
      obtain ⟨hlive, hroot⟩ := hl i (List.mem_cons_of_mem _ hi)
      obtain ⟨x, hx⟩ := has_iff.1 hlive
      obtain ⟨x', hx', -⟩ := hstays i x hx fun heq => hnot (heq ▸ hi)
      exact ⟨has_of_get? hx', hroot⟩
    have hspared := ih hsound hd' hl' hrest
    -- the father of the erased entry is older, so it is another entry
    have hfather : e.father ≠ id := by
      obtain ⟨-, -, -, hlt⟩ := h.family.father id e.core (core_eq he) hroot
      exact fun heq => absurd (congrArg EntryId.id heq) (Nat.ne_of_lt hlt)
    have hfathers : ∀ x q, s₁.fatherOf x = some q →
        ∃ r, s.fatherOf x = some r ∧ q = if r = id then e.father else r := by
      intro x q hq
      obtain ⟨y₁, hy₁, rfl⟩ := Option.map_eq_some_iff.1 hq
      have hlive : ¬ (x = id ∨ s.get? x = none) := fun hor => by rw [hdead x hor] at hy₁; cases hy₁
      obtain ⟨y, hy⟩ := Option.ne_none_iff_exists'.1 (not_or.1 hlive).2
      obtain ⟨y', hy', -, -, -, -, hf⟩ := hstays x y hy (not_or.1 hlive).1
      rw [hy₁] at hy'
      cases hy'
      exact ⟨y.father, fatherOf_eq hy, hf⟩
    refine ⟨fun i hi => ?_, fun i hi => hspared.dead i (hdead i (Or.inr hi)), fun i x hx hi => ?_⟩
    · rcases List.mem_cons.1 hi with heq | hi
      · exact hspared.dead i (hdead i (Or.inl heq))
      · exact hspared.erased i hi
    · obtain ⟨hii, hil⟩ := not_or.1 (mt List.mem_cons.2 hi)
      obtain ⟨x₁, hx₁, hsig₁, hcount₁, htime₁, hdel₁, hf₁⟩ := hstays i x hx hii
      obtain ⟨x', hx', hsig, hcount, htime, hdel, hnear⟩ := hspared.stays i x₁ hx₁ hil
      refine ⟨x', hx', hsig.trans hsig₁, hcount.trans hcount₁, htime.trans htime₁, hdel.trans hdel₁, ?_⟩
      rw [hf₁] at hnear
      split_ifs at hnear with hf
      · rw [hf]
        exact .up List.mem_cons_self (fatherOf_eq he) (hnear.of_taken (fatherOf_eq he) hfather hfathers hfather)
      · exact hnear.of_taken (fatherOf_eq he) hfather hfathers hf

/-- links do not matter -/
theorem Spared.relinked {gone : EntryId → Prop} (h : Spared gone s s₁) (hr : Relinked s₁ s') : Spared gone s s' := by
  have hnone : ∀ i, s₁.get? i = none → s'.get? i = none := by
    intro i hi
    have hcore := hr.core i
    rw [core, core, hi] at hcore
    exact Option.map_eq_none_iff.1 hcore
  refine ⟨fun i hi => hnone i (h.erased i hi), fun i hi => hnone i (h.dead i hi), fun i e he hi => ?_⟩
  obtain ⟨e₁, he₁, hsig₁, hcount₁, htime₁, hdel₁, hnear⟩ := h.stays i e he hi
  obtain ⟨e', he', heq⟩ := hr.get? he₁
  obtain ⟨hsig, hcount, htime, hdel, hfather, -⟩ := Entry.fields_of_core heq
  exact ⟨e', he', hsig.trans hsig₁, hcount.trans hcount₁, htime.trans htime₁, hdel.trans hdel₁, hfather ▸ hnear⟩

/-- what is live afterwards has survived, with its signature and its count -/
theorem Spared.survivor {gone : EntryId → Prop} (h : Spared gone s s') {e' : Entry} (he' : s'.get? i = some e') :
    ¬ gone i ∧ ∃ e, s.get? i = some e ∧ e'.signature = e.signature ∧ e'.count = e.count := by
  have hnot : ¬ gone i := fun hi => by rw [h.erased i hi] at he'; cases he'
  obtain ⟨e, he⟩ := Option.ne_none_iff_exists'.1 fun hi => by rw [h.dead i hi] at he'; cases he'
  obtain ⟨e₁, he₁, hsig, hcount, -⟩ := h.stays i e he hnot
  rw [he'] at he₁
  cases he₁
  exact ⟨hnot, e, he, hsig, hcount⟩

/-- the entries that have a count afterwards are survivors -/
theorem Spared.counts_iff {gone : EntryId → Prop} (h : Spared gone s s') (signature : Signature) :
    (∃ count, s'.Counts signature count) ↔
      ∃ i e, ¬ gone i ∧ s.get? i = some e ∧ e.signature = signature ∧ e.hasCount = true := by
  constructor
  · intro hex
    obtain ⟨count, i, e', he', hsig, hcount⟩ := hex
    obtain ⟨hnot, e, he, hsig', hcount'⟩ := h.survivor he'
    refine ⟨i, e, hnot, he, hsig' ▸ hsig, ?_⟩
    rw [Entry.hasCount, ← hcount', hcount]
    rfl
  · intro hex
    obtain ⟨i, e, hnot, he, hsig, hcount⟩ := hex
    obtain ⟨e', he', hsig', hcount', -⟩ := h.stays i e he hnot
    obtain ⟨count, hc⟩ := Option.isSome_iff_exists.1 hcount
    exact ⟨count, i, e', he', hsig'.trans hsig, hcount'.trans hc⟩

end Store

namespace Ledger

open Store

/-- **One round, exactly.** In whatever state operations have brought a store: where nothing may be evicted a round
changes nothing. Otherwise it erases the entries up to the time in the middle of the ranking, which are more than half,
and answers their number. All others stay, under their nearest survivors, and the entries are a tree again. A look-up
hits if and only if a survivor with the signature has a count. The table ends at the size it began with, or with at
most four buckets for each live entry. -/
theorem evictRound_exact {bits : ℕ} {ops : List Op} {l : Ledger} (hrun : ofOps bits ops = .ok l) :
    ∃ D, l.store.Ranking D ∧ (D = [] → l.store.evictRound.result = .ok (0, l.store)) ∧
      ∀ t, (D.map fun p => p.2.time)[D.length / 2]? = some t →
        ∃ (E : List EntryId) (s' : Store), l.store.evictRound.result = .ok (E.length, s') ∧
          E.Nodup ∧ (∀ i, i ∈ E ↔ ∃ e, (i, e) ∈ D ∧ e.time ≤ t) ∧ D.length / 2 + 1 ≤ E.length ∧
          Spared (· ∈ E) l.store s' ∧ s'.Rooted ∧
          (∀ node signature, ∃ hit s'' node', s'.lookup node signature = .ok (hit, s'', node') ∧
            (hit = true ↔ ∃ i e, i ∉ E ∧ l.store.get? i = some e ∧ e.signature = signature ∧ e.hasCount = true)) ∧
          (s'.buckets = 2 ^ bits ∨ s'.buckets ≤ 4 * s'.size) := by
  obtain ⟨hkept, htabled⟩ := ofOps_kept hrun
  obtain ⟨D, hD⟩ := exists_ranking l.store
  refine ⟨D, hD, fun hnil => ?_, fun t ht => ?_⟩
  · rw [hnil] at hD
    exact evictRound_idle hD.perm.nil_eq.symm
  · have hne : l.store.candidates ≠ [] := by
      intro hnil
      have hempty := hD.perm
      rw [hnil] at hempty
      rw [hempty.eq_nil] at ht
      cases ht
    obtain ⟨⟨i, e⟩, hm⟩ := List.exists_mem_of_ne_nil _ hne
    have hs := hkept.sound i (has_of_get? (mem_candidates.1 hm).1)
    obtain ⟨s₁, s₂, hbatch, hs₁, ht₁, -, -, hshrink, hr, hs₂, ht₂, hround⟩ := evictRound_steps hs hne
    have hspared := spared_of_foldlM hs nodup_victims (fun i hi => by
      obtain ⟨e, he, -, hroot⟩ := Store.mem_victims hi
      exact ⟨has_of_get? he, hroot⟩) hbatch
    have hspared' := (hspared.relinked hr).relinked (relinked_refresh s₂)
    have hfinal := keepsTable_refresh s₂ bits (ht₂ bits (ht₁ bits htabled))
    refine ⟨l.store.victims, s₂.refresh, hround, nodup_victims, fun i => hD.mem_victims ht, hD.lt_length_victims ht,
      hspared', hs₂.refresh.rooted, fun node signature => ?_, ?_⟩
    · rw [← hspared'.counts_iff signature]
      rcases hfinal.lookup hs₂.refresh.chained (fun i e he => hs₂.refresh.ne_none he) node signature with
        ⟨count, hcount, hlookup⟩ | ⟨hmiss, hlookup⟩
      · exact ⟨_, _, _, hlookup, by simpa using ⟨count, hcount⟩⟩
      · exact ⟨_, _, _, hlookup, by simpa using hmiss⟩
    · have hleast : s₁.minBuckets = 2 ^ bits := (ht₁ bits htabled).least
      obtain ⟨k, hk⟩ := hfinal.size
      have hsize : s₂.size = s₁.size := hr.size_eq
      have hbuckets : s₂.buckets = shrunk (2 ^ bits) s₁.size s₁.buckets := by
        rw [← hleast]
        exact buckets_of_shrink hshrink
      rcases shrunk_stops (2 ^ bits) s₁.size s₁.buckets with hstop | hstop
      · left
        have hge : 2 ^ bits ≤ s₂.buckets := by
          rw [show s₂.buckets = _ from hk]
          exact Nat.le_mul_of_pos_right _ (by positivity)
        show s₂.buckets = 2 ^ bits
        omega
      · right
        show s₂.buckets ≤ 4 * s₂.size
        rw [hbuckets, hsize]
        exact hstop

/-- a chain of five entries in which the second, the third and the last are deletable; the fourth has a count -/
def severed : List Op :=
  [.plant ⟨[1, 2, 3, 0]⟩, .mint ⟨[1, 2, 0]⟩ .root, .mint ⟨[1, 0]⟩ ⟨2⟩, .mint ⟨[2, 0]⟩ ⟨3⟩, .mint ⟨[3, 0]⟩ ⟨4⟩,
    .setDeletable ⟨2⟩, .setDeletable ⟨3⟩, .attach ⟨4⟩ 5, .setDeletable ⟨5⟩]

/-- a round erases the second and the third entry, so that the fourth goes to the root -/
theorem evictRound_exact_severed : ∃ (l : Ledger) (E : List EntryId) (s' : Store), ofOps 1 severed = .ok l ∧
    l.store.evictRound.result = .ok (E.length, s') ∧ Spared (· ∈ E) l.store s' ∧ s'.Rooted ∧
    s'.fatherOf ⟨4⟩ = some .root := by
  have hview : (ofOps 1 severed).toOption.map (fun l => (l.store.candidates.map fun p => p.2.time,
      l.store.evictRound.result.toOption.map fun r => (r.1, r.2.fatherOf ⟨4⟩))) =
      some ([2, 3, 5], some (2, some .root)) := by cbv
  cases hrun : ofOps 1 severed with
  | error fault =>
    rw [hrun] at hview
    cases hview
  | ok l =>
    rw [hrun] at hview
    have hpair := Option.some.inj hview
    have htimes : (l.store.candidates.map fun p => p.2.time) = [2, 3, 5] := congrArg Prod.fst hpair
    have hround : l.store.evictRound.result.toOption.map (fun r => (r.1, r.2.fatherOf ⟨4⟩)) = some (2, some .root) :=
      congrArg Prod.snd hpair
    obtain ⟨D, hD, -, hexact⟩ := evictRound_exact hrun
    have hlen : D.length = 3 := by
      rw [hD.perm.length_eq, ← List.length_map (f := fun p : EntryId × Entry => p.2.time), htimes]
      rfl
    obtain ⟨t, ht⟩ : ∃ t, (D.map fun p => p.2.time)[D.length / 2]? = some t :=
      ⟨_, List.getElem?_eq_getElem (by rw [List.length_map, hlen]; decide)⟩
    obtain ⟨E, s', hresult, -, -, -, hspared, hrooted, -⟩ := hexact t ht
    rw [hresult] at hround
    exact ⟨l, E, s', rfl, hresult, hspared, hrooted, congrArg Prod.snd (Option.some.inj hround)⟩

end Ledger

end ModelCount
