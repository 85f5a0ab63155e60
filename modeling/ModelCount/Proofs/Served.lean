/-
What a decomposer does to its store.

A decomposer touches its store through the operations of the store only, and its settings not at all. Where an operation
of the decomposer gives a result, the new store comes of the old one by such operations, and by none that begins anew
(`Serves`, `Follows`); only taking a formula begins anew. So whatever a decomposer was used for, its store is one that a
run of store operations leads to (`Used.ofOps`), and what holds along all such runs holds of it.
-/
import Mathlib.Tactic
import ModelCount.Proofs.Operations
import ModelCount.Proofs.Reach

namespace ModelCount

namespace Store

/-- the second store comes of the first by operations other than a new beginning -/
inductive Serves (s : Store) : Store → Prop
  | refl : Serves s s
  | step {s' : Store} {given : List EntryId} {op : Op} {l : Ledger} : Serves s s' →
      (∀ signature, op ≠ .plant signature) → (⟨s', given⟩ : Ledger).step op = .ok l → Serves s l.store

namespace Serves

variable {s₀ s s' : Store} {id father : EntryId} {signature : Signature} {node : Node} {count : ℕ}

theorem trans (h : Serves s₀ s) (h' : Serves s s') : Serves s₀ s' := by
  induction h' with
  | refl => exact h
  | step _ hop hstep ih => exact .step ih hop hstep

/-- one more operation; the ids given out do not matter -/
theorem by_step (h : Serves s₀ s) (op : Op) (hop : ∀ signature, op ≠ .plant signature) {ids : List EntryId}
    (hstep : (⟨s, []⟩ : Ledger).step op = .ok ⟨s', ids⟩) : Serves s₀ s' := .step h hop hstep

theorem lookup (h : Serves s₀ s) {r : Bool × Store × Node} (hrun : s.lookup node signature = .ok r) :
    Serves s₀ r.2.1 :=
  h.by_step (.lookup node signature) (fun _ => nofun) (by rw [Ledger.step, hrun]; rfl)

theorem mint (h : Serves s₀ s) {r : EntryId × Store} (hrun : s.mint signature father = .ok r) : Serves s₀ r.2 :=
  h.by_step (.mint signature father) (fun _ => nofun) (by rw [Ledger.step, hrun]; rfl)

theorem attach (h : Serves s₀ s) (hrun : (s.attach id count).result = .ok s') : Serves s₀ s' :=
  h.by_step (.attach id count) (fun _ => nofun) (by rw [Ledger.step, hrun]; rfl)

theorem setDeletable (h : Serves s₀ s) (hrun : s.setDeletable id = .ok s') : Serves s₀ s' :=
  h.by_step (.setDeletable id) (fun _ => nofun) (by rw [Ledger.step, hrun]; rfl)

theorem eraseBelow (h : Serves s₀ s) (hrun : s.eraseBelow id = .ok s') : Serves s₀ s' :=
  h.by_step (.eraseBelow id) (fun _ => nofun) (by rw [Ledger.step, hrun]; rfl)

theorem evictRound (h : Serves s₀ s) {r : ℕ × Store} (hrun : s.evictRound.result = .ok r) : Serves s₀ r.2 :=
  h.by_step .evictRound (fun _ => nofun) (by rw [Ledger.step, hrun]; rfl)

theorem refresh (h : Serves s₀ s) : Serves s₀ s.refresh := h.by_step .refresh (fun _ => nofun) rfl

end Serves

theorem evictRounds_serves {s₀ s : Store} (h : Serves s₀ s) (budget rounds erased : ℕ) :
    Ends AnyFault (evictRounds budget rounds erased s).result fun r => Serves s₀ r.2 := by
  induction rounds generalizing s erased with
  | zero => exact True.intro
  | succ rounds ih =>
    unfold evictRounds
    simp only
    split_ifs
    · exact h.refresh
    · simp only [Traced.result_bind]
      have hround : Ends AnyFault s.refresh.evictRound.result fun r => Serves s₀ r.2 :=
        Ends.of_ok fun r hr => h.refresh.evictRound hr
      refine hround.bind fun r hr => ?_
      split_ifs
      · exact hr
      · exact ih hr _

end Store

namespace Decomposer

open Store

variable {d d' : Decomposer} {s₀ store : Store} {node : Node} {super : Component} {s : Sweep} {values : Assignment}

/-- the settings stay, and the store comes of the other one -/
structure Follows (d d' : Decomposer) : Prop where
  config : d'.config = d.config
  serves : d.store.Serves d'.store

theorem Follows.refl (d : Decomposer) : d.Follows d := ⟨rfl, .refl⟩

theorem Follows.trans {d'' : Decomposer} (h : d.Follows d') (h' : d'.Follows d'') : d.Follows d'' :=
  ⟨h'.config.trans h.config, h.serves.trans h'.serves⟩

/-! ## One operation -/

theorem consult_serves (h : s₀.Serves store) (caching : Bool) (signature : Signature) :
    Ends AnyFault (consult caching store node signature) fun r => s₀.Serves r.2.1 := by
  cases caching with
  | false => exact h
  | true => exact Ends.of_ok fun r hr => h.lookup hr

theorem settlePart_serves (h : s₀.Serves s.store) (caching : Bool) :
    Ends AnyFault (settlePart caching super s).result fun s' => s₀.Serves s'.store := by
  simp only [settlePart, Traced.result_bind, Traced.result_quiet]
  refine (Ends.anything _).bind fun r _ => (consult_serves h caching _).bind fun r hr => ?_
  rcases r with ⟨hit, store, node⟩
  cases hit with
  | true => exact hr
  | false =>
    simp only [Bool.false_eq_true, if_false, Traced.result_bind, Traced.result_quiet, Traced.result_emit]
    have hmint : ∀ signature, Ends AnyFault (store.mint signature super.id) fun t => s₀.Serves t.2 :=
      fun signature => Ends.of_ok fun t ht => hr.mint ht
    exact (hmint _).bind fun t ht => ht

theorem sweepVar_serves (h : s₀.Serves s.store) (caching : Bool) (v : Var) :
    Ends AnyFault (sweepVar caching super values s v).result fun s' => s₀.Serves s'.store := by
  obtain ⟨explorer, store, node, found, hits⟩ := s
  simp only [sweepVar, Traced.result_bind, Traced.result_lift]
  refine (Ends.anything _).bind fun candidate _ => ?_
  split_ifs
  · simp only [Traced.result_bind]
    refine (Ends.anything _).bind fun r _ => ?_
    rcases r with ⟨several, explorer', node'⟩
    simp only
    split_ifs
    · exact settlePart_serves (s := ⟨explorer', store, node', found, hits⟩) h caching
    · exact h
  · exact h

theorem split_follows (d : Decomposer) (node : Node) (values : Assignment) :
    Ends AnyFault (d.split node values).result fun r => d.Follows r.1 := by
  simp only [split, Traced.result_bind, Traced.result_lift, Traced.result_emit]
  refine (Ends.anything _).bind fun super _ => (Ends.anything _).bind fun explorer _ => ?_
  have hsweep : Ends AnyFault
      (super.vars.foldlM (sweepVar d.config.caching super values) ⟨explorer, d.store, node, [], 0⟩).result
      fun s => d.store.Serves s.store := by
    rw [Traced.result_foldlM]
    exact Ends.foldlM_state (fun s : Sweep => d.store.Serves s.store) .refl fun v _ s h => sweepVar_serves h _ v
  refine hsweep.bind fun s h => ?_
  rw [Except.ok_bind]
  refine (Ends.anything _).bind fun node' _ => ?_
  exact Ends.bind_of_eq (sortRange_above _ d.stack s.found.reverse rfl) ⟨rfl, h⟩

theorem findNext_follows (d : Decomposer) (node : Node) (values : Assignment) :
    Ends AnyFault (d.findNext node values).result fun r => d.Follows r.2.1 := by
  have henum : Ends AnyFault (d.enumerate node values).result fun r => d.Follows r.1 := by
    unfold enumerate
    split_ifs
    · exact split_follows d node values
    · exact Follows.refl d
  simp only [findNext, Traced.result_bind, Traced.result_lift]
  refine (Ends.anything _).bind fun _ _ => henum.bind fun r hr => ?_
  rcases r with ⟨d', node'⟩
  simp only
  split_ifs <;> exact hr

theorem cacheCount_follows (d : Decomposer) (index count : ℕ) :
    Ends AnyFault (d.cacheCount index count).result d.Follows := by
  unfold cacheCount
  split_ifs
  · simp only [Traced.result_bind, Traced.result_lift]
    refine (Ends.anything _).bind fun comp _ => ?_
    have hattach : Ends AnyFault (d.store.attach comp.id count).result d.store.Serves :=
      Ends.of_ok fun s' hs' => Serves.refl.attach hs'
    exact hattach.bind fun s' hs' => ⟨rfl, hs'⟩
  · exact Follows.refl d

theorem sortRange_follows (d : Decomposer) (start stop : ℕ) : Ends AnyFault (d.sortRange start stop) d.Follows := by
  unfold sortRange
  split_ifs
  · exact ⟨rfl, .refl⟩
  · exact True.intro

theorem clean_follows (d : Decomposer) (node : Node) : Ends AnyFault (d.clean node) d.Follows := by
  unfold clean
  refine (Ends.anything _).bind fun _ _ => ?_
  refine (Ends.foldlM_state d.store.Serves .refl fun comp _ s hs => ?_).bind fun store hstore => ⟨rfl, hstore⟩
  unfold flagLeft
  split_ifs
  · exact Ends.of_ok fun s' hs' => hs.setDeletable hs'
  · exact hs

theorem removePollutions_follows (d : Decomposer) (node : Node) :
    Ends AnyFault (d.removePollutions node) d.Follows := by
  unfold removePollutions
  refine (Ends.anything _).bind fun _ _ => (Ends.anything _).bind fun _ _ => ?_
  refine (Ends.anything _).bind fun _ _ => (Ends.anything _).bind fun _ _ => ?_
  refine (Ends.foldlM_state d.store.Serves .refl fun comp _ s hs => ?_).bind fun store hstore => ⟨rfl, hstore⟩
  unfold eraseLeft
  split_ifs
  · exact Ends.of_ok fun s' hs' => hs.eraseBelow hs'
  · exact hs

theorem refresh_follows (d : Decomposer) : d.Follows d.refresh := ⟨rfl, Serves.refl.refresh⟩

theorem evict_follows (d : Decomposer) : Ends AnyFault d.evict.result fun r => d.Follows r.2 := by
  simp only [evict, Store.evict, Traced.result_bind]
  refine Ends.bind (P := fun r => d.store.Serves r.2) ?_ fun r hr => ⟨rfl, hr⟩
  refine (evictRounds_serves .refl _ _ 0).bind fun r hr => ?_
  split_ifs <;> exact hr

/-! ## Any number of operations -/

/-- the decomposers that come of a new one by any operations that meet no fault: any formulas are taken, and any nodes,
assignments, counts and budgets used, whether they fit or not -/
inductive Used : Decomposer → Prop where
  | new {config : Config} {d : Decomposer} : new config = .ok d → Used d
  | load {d d' : Decomposer} {f : Formula} : Used d → (d.load f).result = .ok d' → Used d'
  | findNext {d : Decomposer} {node : Node} {values : Assignment} {r : Bool × Decomposer × Node} : Used d →
      (d.findNext node values).result = .ok r → Used r.2.1
  | split {d : Decomposer} {node : Node} {values : Assignment} {r : Decomposer × Node} : Used d →
      (d.split node values).result = .ok r → Used r.1
  | cacheCount {d d' : Decomposer} {index count : ℕ} : Used d → (d.cacheCount index count).result = .ok d' → Used d'
  | sortRange {d d' : Decomposer} {start stop : ℕ} : Used d → d.sortRange start stop = .ok d' → Used d'
  | clean {d d' : Decomposer} {node : Node} : Used d → d.clean node = .ok d' → Used d'
  | removePollutions {d d' : Decomposer} {node : Node} : Used d → d.removePollutions node = .ok d' → Used d'
  | refresh {d : Decomposer} : Used d → Used d.refresh
  | evict {d : Decomposer} {r : ℕ × Decomposer} : Used d → d.evict.result = .ok r → Used r.2

end Decomposer

namespace Ledger

open Store

theorem run_append (l : Ledger) (ops more : List Op) : l.run (ops ++ more) = l.run ops >>= fun l' => l'.run more :=
  List.foldlM_append

theorem ofOps_append {bits : ℕ} {ops : List Op} {l : Ledger} (h : ofOps bits ops = .ok l) (more : List Op) :
    ofOps bits (ops ++ more) = l.run more := by
  rw [ofOps] at h ⊢
  obtain ⟨store, hstore, hrun⟩ := exists_of_bind h
  rw [hstore, Except.ok_bind, run_append, hrun, Except.ok_bind]

/-- the ids given out do not matter to the store -/
theorem step_store {s : Store} {given : List EntryId} {op : Op} {l : Ledger}
    (h : (⟨s, given⟩ : Ledger).step op = .ok l) (given' : List EntryId) :
    ∃ ids, (⟨s, given'⟩ : Ledger).step op = .ok ⟨l.store, ids⟩ := by
  cases op with
  | plant signature | refresh =>
    cases h
    exact ⟨_, rfl⟩
  | mint signature father | attach id count | lookup node signature | setDeletable id | eraseBelow id | evictRound =>
    obtain ⟨r, hr, h⟩ := exists_of_bind h
    cases h
    exact ⟨_, by rw [step, hr]; rfl⟩

/-- what comes of the store of a run is the store of a longer run -/
theorem ofOps_serves {bits : ℕ} {ops : List Op} {l : Ledger} (h : ofOps bits ops = .ok l) {s : Store}
    (hs : l.store.Serves s) : ∃ more l', ofOps bits (ops ++ more) = .ok l' ∧ l'.store = s := by
  induction hs with
  | refl => exact ⟨[], l, by rw [List.append_nil, h], rfl⟩
  | @step s' given op l₁ _ hop hstep ih =>
    obtain ⟨more, l', hl', rfl⟩ := ih
    obtain ⟨ids, hstep'⟩ := step_store hstep _
    refine ⟨more ++ [op], ⟨l₁.store, ids⟩, ?_, rfl⟩
    rw [← List.append_assoc, ofOps_append hl', run, List.foldlM_cons, hstep']
    rfl

end Ledger

namespace Decomposer

/-- **The store of a decomposer** is one that a run of store operations leads to. -/
theorem Used.ofOps {d : Decomposer} (h : Used d) : ∃ bits ops l, Ledger.ofOps bits ops = .ok l ∧ l.store = d.store := by
  have hmore : ∀ {d d' : Decomposer}, (∃ bits ops l, Ledger.ofOps bits ops = .ok l ∧ l.store = d.store) →
      d.Follows d' → ∃ bits ops l, Ledger.ofOps bits ops = .ok l ∧ l.store = d'.store := by
    intro d d' hex hs
    obtain ⟨bits, ops, l, hl, heq⟩ := hex
    obtain ⟨more, l', hl', heq'⟩ := Ledger.ofOps_serves hl (heq ▸ hs.serves)
    exact ⟨bits, ops ++ more, l', hl', heq'⟩
  induction h with
  | @new config d hnew =>
    obtain ⟨store, hstore, hd⟩ := exists_of_bind hnew
    cases hd
    exact ⟨config.tableBits, [], ⟨store, []⟩, by rw [Ledger.ofOps, hstore]; rfl, rfl⟩
  | @load d d' f _ hload ih =>
    obtain ⟨bits, ops, l, hl, heq⟩ := ih
    cases hload
    rw [← heq]
    exact ⟨bits, ops ++ [.plant _], _, (Ledger.ofOps_append hl _).trans rfl, rfl⟩
  | findNext _ hrun ih => exact hmore ih ((findNext_follows _ _ _).get hrun)
  | split _ hrun ih => exact hmore ih ((split_follows _ _ _).get hrun)
  | cacheCount _ hrun ih => exact hmore ih ((cacheCount_follows _ _ _).get hrun)
  | sortRange _ hrun ih => exact hmore ih ((sortRange_follows _ _ _).get hrun)
  | clean _ hrun ih => exact hmore ih ((clean_follows _ _).get hrun)
  | removePollutions _ hrun ih => exact hmore ih ((removePollutions_follows _ _).get hrun)
  | refresh _ ih => exact hmore ih (refresh_follows _)
  | evict _ hrun ih => exact hmore ih ((evict_follows _).get hrun)

end Decomposer

end ModelCount
