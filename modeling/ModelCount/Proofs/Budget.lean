/-
Memory figures, and eviction down to a budget.

The byte counter is kept up by additions and subtractions, wherever an entry is made, gets a count or is erased. It is
the sum of the sizes of the live entries all the same, so nothing is ever subtracted that is not there and the memory
estimate does not depend on how the store came about (`ofOps_bytes`). Every round of eviction that has something to
erase makes the store smaller, so rounds come to an end: within the budget, or with nothing left that may be erased
(`evictRounds_exact`). Main result: `accounting`.
-/
import Mathlib.Tactic
import ModelCount.Proofs.Rounds
import ModelCount.Proofs.Served

namespace ModelCount

namespace Store

variable {s s' : Store}

/-! ## The byte counter -/

def liveBytes (s : Store) : ℕ := (s.live.map fun p => p.2.sizeInBytes).sum

/-- a sum over numbers is a sum over live entries, as dead ones have no size -/
theorem Stocked.entryBytes_eq (h : Stocked s) : s.entryBytes = s.liveBytes := by
  have hids : (s.live.map fun p => p.1.id).Nodup := by
    have hinj : Function.Injective EntryId.id := fun a b => EntryId.ext_id
    have := (nodup_live (s := s)).map hinj
    rwa [List.map_map] at this
  have hsub : (s.live.map fun p => p.1.id).toFinset ⊆ Finset.range s.nextId := by
    intro k hk
    obtain ⟨p, hp, rfl⟩ := List.mem_map.1 (List.mem_toFinset.1 hk)
    exact Finset.mem_range.2 (h.range p.1 p.2 (mem_live.1 hp)).2
  have hdead : ∀ k ∈ Finset.range s.nextId, k ∉ (s.live.map fun p => p.1.id).toFinset → s.bytesAt k = 0 := by
    intro k _ hk
    have hnone : s.get? ⟨k⟩ = none := by
      by_contra hne
      obtain ⟨e, he⟩ := Option.ne_none_iff_exists'.1 hne
      exact hk (List.mem_toFinset.2 (List.mem_map.2 ⟨(⟨k⟩, e), mem_live.2 he, rfl⟩))
    rw [bytesAt, hnone]
    rfl
  calc s.entryBytes
      = ∑ k ∈ Finset.range s.nextId, s.bytesAt k := h.bytes
    _ = ∑ k ∈ (s.live.map fun p => p.1.id).toFinset, s.bytesAt k := (Finset.sum_subset hsub hdead).symm
    _ = ((s.live.map fun p => p.1.id).map s.bytesAt).sum := List.sum_toFinset _ hids
    _ = s.liveBytes := by
      rw [List.map_map, liveBytes]
      congr 1
      refine List.map_congr_left fun p hp => ?_
      rw [Function.comp_apply, bytesAt, mem_live.1 hp]
      rfl

theorem liveBytes_bare (h : ∀ i, ¬ s.has i = true) : s.liveBytes = 0 := by
  have hnil : s.live = [] := List.eq_nil_iff_forall_not_mem.2 fun p hp => h p.1 (has_of_get? (mem_live.1 hp))
  rw [liveBytes, hnil]
  rfl

end Store

namespace Ledger

open Store

/-- **The byte counter** is the sum of the sizes of the live entries. -/
theorem ofOps_bytes {bits : ℕ} {ops : List Op} {l : Ledger} (hrun : ofOps bits ops = .ok l) :
    l.store.entryBytes = l.store.liveBytes := by
  have hkept := (ofOps_kept hrun).1
  by_cases hlive : ∃ i, l.store.has i = true
  · obtain ⟨i, hi⟩ := hlive
    exact (hkept.sound i hi).entryBytes_eq
  · rw [hkept.bare (not_exists.1 hlive), liveBytes_bare (not_exists.1 hlive)]

/-- nothing is subtracted from the byte counter that is not there -/
theorem Kept.not_overflow {l : Ledger} (h : Kept l) (op : Op) : l.step op ≠ .error .overflow := by
  intro hstep
  cases hr : l.store.refusal op with
  | none =>
    obtain ⟨l', hstep', -⟩ := step_leads h hr
    rw [hstep] at hstep'
    cases hstep'
  | some fault =>
    rw [step_refused h hr] at hstep
    cases hstep
    rcases refusal_cases hr with ⟨hf, -⟩ | ⟨id, hf, -⟩ | ⟨hf, -⟩ <;> cases hf

end Ledger

namespace Store

variable {s s' : Store}

/-! ## Rounds until the budget is met -/

/-- a round that has something to erase makes the store smaller -/
theorem evictRound_shrinks (h : Sound s) (hne : s.candidates ≠ []) :
    ∃ n s', s.evictRound.result = .ok (n, s') ∧ Sound s' ∧ 0 < n ∧ n + s'.size = s.size := by
  obtain ⟨s₁, s₂, -, -, -, hsize, -, -, hr, hs₂, -, hround⟩ := evictRound_steps h hne
  have hsize' : s.victims.length + s₂.refresh.size = s.size := hr.size_eq ▸ hsize
  refine ⟨s.victims.length, s₂.refresh, hround, hs₂.refresh, ?_, hsize'⟩
  obtain ⟨D, hD⟩ := exists_ranking s
  have hpos : 0 < D.length := by
    rw [hD.perm.length_eq]
    exact List.length_pos_iff.2 hne
  obtain ⟨t, ht⟩ : ∃ t, (D.map fun p => p.2.time)[D.length / 2]? = some t :=
    ⟨_, List.getElem?_eq_getElem (by rw [List.length_map]; omega)⟩
  exact Nat.zero_lt_of_lt (hD.lt_length_victims ht)

/-- **Rounds** end for a reason: one that erases nothing finds nothing to erase, and there are no more than live entries
that erase something. -/
theorem evictRounds_exact (budget : ℕ) {rounds : ℕ} (erased : ℕ) (hs : ∀ i, s.has i = true → Sound s)
    (hrounds : s.size < rounds) :
    ∃ n s', (evictRounds budget rounds erased s).result = .ok (erased + n, s') ∧ n + s'.size = s.size ∧
      s'.memory = s'.estimate ∧ (s'.memory ≤ budget ∨ s'.candidates = []) := by
  induction rounds generalizing s erased with
  | zero => exact absurd hrounds (Nat.not_lt_zero _)
  | succ rounds ih =>
    unfold evictRounds
    simp only
    split_ifs with hfits
    · exact ⟨0, s.refresh, rfl, Nat.zero_add _, rfl, Or.inl hfits⟩
    · by_cases hne : s.refresh.candidates = []
      · refine ⟨0, s.refresh, ?_, Nat.zero_add _, rfl, Or.inr hne⟩
        rw [Traced.result_bind, evictRound_idle hne, Except.ok_bind, if_pos rfl]
        rfl
      · obtain ⟨⟨i, e⟩, hm⟩ := List.exists_mem_of_ne_nil _ hne
        have hsound : Sound s := hs i (has_of_get? (mem_candidates.1 hm).1)
        obtain ⟨n, s₁, hround, hs₁, hpos, hsize⟩ := evictRound_shrinks hsound.refresh hne
        have hsize' : n + s₁.size = s.size := hsize
        obtain ⟨m, s', hrest, hsize₁, hmem, hend⟩ := ih (erased + n) (fun _ _ => hs₁) (by omega)
        refine ⟨n + m, s', ?_, by omega, hmem, hend⟩
        rw [Traced.result_bind, hround, Except.ok_bind, if_neg (Nat.ne_of_gt hpos), hrest, Nat.add_assoc]

end Store

namespace Decomposer

open Store

/-- **Memory accounting, and the budget.** After any operations on a new store the byte counter is the sum of the sizes
of the live entries, the next operation subtracts nothing that is not there, and the memory estimate is made of the
number of buckets and the live entries alone. A decomposer, whatever it was used for and whatever its budget is,
evicts until its memory estimate, brought up to date, is within the budget or no live entry but the root is deletable,
which is before its rounds are spent, and answers by how many entries its store has shrunk. -/
theorem accounting {bits : ℕ} {ops : List Op} {l : Ledger} (hrun : Ledger.ofOps bits ops = .ok l) {d : Decomposer}
    (hused : Used d) (budget : ℕ) :
    (l.store.entryBytes = l.store.liveBytes ∧ (∀ op, l.step op ≠ .error .overflow) ∧
      l.store.refresh.memory = 4 * l.store.buckets + 4 * l.store.live.length + l.store.liveBytes) ∧
    ∃ erased d', ({ d with config := d.config.withBudget budget } : Decomposer).evict.result = .ok (erased, d') ∧
      erased + d'.store.size = d.store.size ∧ d'.store.memory = d'.store.estimate ∧
      (d'.store.memory ≤ budget ∨ ∀ i e, d'.store.get? i = some e → i ≠ .root → e.deletable = false) := by
  refine ⟨⟨Ledger.ofOps_bytes hrun, (Ledger.ofOps_kept hrun).1.not_overflow, ?_⟩, ?_⟩
  · rw [length_live, ← Ledger.ofOps_bytes hrun]
    rfl
  · obtain ⟨bits', ops', l', hrun', hstore⟩ := hused.ofOps
    have hsound : ∀ i, d.store.has i = true → d.store.Sound := hstore ▸ (Ledger.ofOps_kept hrun').1.sound
    obtain ⟨n, s', hrounds, hsize, hmem, hend⟩ :=
      evictRounds_exact budget 0 hsound (Nat.lt_succ_self d.store.size)
    rw [Nat.zero_add] at hrounds
    have hevict : (d.store.evict budget).result = .ok (n, s') := by
      rw [Store.evict, Traced.result_bind, hrounds, Except.ok_bind]
      simp only
      split_ifs <;> rfl
    refine ⟨n, _, evict_eq hevict, hsize, hmem, hend.imp_right fun hnone i e he hroot => ?_⟩
    by_contra hdel
    have hm := mem_candidates.2 ⟨he, hroot, by simpa using hdel⟩
    rw [hnone] at hm
    cases hm

/-- the root of two independent clauses is split, and its parts leave the stack again -/
def departed : Except Fault Decomposer := do
  let d ← new ⟨true, 0, 100⟩
  let f ← match Formula.ofClauses 4 [[1, 2], [3, 4]] with
    | .ok f => .ok f
    | .error _ => .error .contract
  let d ← (d.load f).result
  let (d, node) ← (d.split (Node.start 1 2) (.empty 4)).result
  d.clean node

/-- a run with counts that are replaced, and a decomposer with three entries that may use no memory at all -/
theorem accounting_departed : ∃ l d, Ledger.ofOps 0 Ledger.crowded = .ok l ∧ Used d ∧ d.store.size = 3 ∧
    l.store.entryBytes = l.store.liveBytes ∧
    ∃ erased d', ({ d with config := d.config.withBudget 0 } : Decomposer).evict.result = .ok (erased, d') ∧
      erased + d'.store.size = 3 := by
  have hbuckets : (Ledger.ofOps 0 Ledger.crowded).toOption.map (fun l => l.store.buckets) = some 4 := by rfl
  have hview : departed.toOption.map (fun d => d.store.size) = some 3 := by cbv
  cases hrun : Ledger.ofOps 0 Ledger.crowded with
  | error fault =>
    rw [hrun] at hbuckets
    cases hbuckets
  | ok l =>
    cases hd : departed with
    | error fault =>
      rw [hd] at hview
      cases hview
    | ok d =>
      rw [hd] at hview
      have hsize : d.store.size = 3 := Option.some.inj hview
      obtain ⟨d₀, hnew, hd⟩ := exists_of_bind hd
      obtain ⟨f, -, hd⟩ := exists_of_bind hd
      obtain ⟨d₁, hload, hd⟩ := exists_of_bind hd
      obtain ⟨⟨d₂, node⟩, hsplit, hclean⟩ := exists_of_bind hd
      have hused : Used d := .clean (.split (.load (.new hnew) hload) hsplit) hclean
      obtain ⟨⟨hbytes, -, -⟩, erased, d', hevict, hshrunk, -⟩ := accounting hrun hused 0
      exact ⟨l, d, rfl, hused, hsize, hbytes, erased, d', hevict, hshrunk.trans hsize⟩

end Decomposer

end ModelCount
