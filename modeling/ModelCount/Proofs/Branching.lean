/-
What a decision does to the numbers of models.

A decision and the propagation after it leave a propagated assignment under which the free variables have exactly the
models that agree with the decision, or a conflict if there are none (`Scope.decide_spec`). Without a decision, the
same holds of the assignment a search begins with (`Scope.propagate_spec`).
-/
import Mathlib.Tactic
import ModelCount.Proofs.Propagate

namespace ModelCount

open Formula

variable {f : Formula} {values values' : Assignment} {K T : Finset Var} {c d : List Lit} {n : ℕ} {v : Var}

/-! ## The order of the literals of a clause does not matter -/

theorem unsatisfied_perm (h : c.Perm d) : Unsatisfied values c ↔ Unsatisfied values d := by
  simp only [Unsatisfied, h.mem_iff]

theorem touches_perm (h : c.Perm d) : Touches K c ↔ Touches K d := by
  simp only [Touches, h.mem_iff]

theorem propagated_perm (h : c.Perm d) : Propagated values c ↔ Propagated values d := by
  unfold Propagated
  rw [unsatisfied_perm h, (h.filter _).length_eq]

theorem freeCount_le_of_extends (h : values.Extends values') : freeCount n values' ≤ freeCount n values := by
  refine Finset.card_le_card fun v hv => ?_
  obtain ⟨hm, hfree⟩ := mem_freeIn.1 hv
  exact mem_freeIn.2 ⟨hm, h.free hfree⟩

/-- on a set of free variables, nothing has a value yet -/
theorem val_of_closed {cls : List (List Lit)} (hK : Closed values cls K) (hn : n < 2147483648) (hv : values.Fits n)
    {l : Lit} (hw : l.var.Within n) (hl : l.var ∈ K) : values.val l = .unassigned :=
  (hv.free_var_iff hn hw).1 (hK.free _ hl)

namespace Counter

/-- a state of the search for the formula, and a closed set that the clauses which are not propagated touch -/
structure Scope (f : Formula) (c : Counter) (K : Finset Var) : Prop where
  stores : f.Stores c.clauses
  small : f.numVars < 2147483648
  fits : c.values.Fits f.numVars
  numVars : c.values.numVars = f.numVars
  closed : Closed c.values f.clauses K
  within : ∀ v ∈ K, v.Within f.numVars
  cover : ∀ d ∈ f.clauses, Unsatisfied c.values d → Touches K d ∨ Propagated c.values d

variable {c c₀ c₁ : Counter} {new : List Var}

theorem Scope.reads (h : Scope f c K) : Reads f.numVars c.values f.clauses :=
  ⟨h.small, h.fits, fun _ hd => h.stores.proper_of_mem_clauses hd⟩

/-- models of what is left of the formula are models of what is left of the clauses it was built from -/
theorem Scope.task (h : Scope f c K) {M : Finset Var → Prop}
    (hM : ∀ T, M T → T ∈ satisfying K (residual c.values f.clauses K)) :
    Task f.numVars c.clauses K c.values M := by
  refine ⟨⟨h.small, h.fits, h.stores.proper⟩, ⟨h.closed.free, fun d hd hu ht l hl hfree => ?_⟩, h.within,
    fun d hd hu => ?_, fun T hT d hd hu ht => ?_⟩
  · obtain ⟨c', hc', hperm⟩ := h.stores.exists_perm_of_mem hd
    exact h.closed.closed c' hc' ((unsatisfied_perm hperm).2 hu) ((touches_perm hperm).2 ht) l
      (hperm.mem_iff.2 hl) hfree
  · obtain ⟨c', hc', hperm⟩ := h.stores.exists_perm_of_mem hd
    rw [← touches_perm hperm, ← propagated_perm hperm]
    exact (h.cover c' hc' ((unsatisfied_perm hperm).2 hu)).imp_right Or.inl
  · obtain ⟨c', hc', hperm⟩ := h.stores.exists_perm_of_mem hd
    obtain ⟨l, hl, hlK, hholds⟩ := ((h.reads.mem_satisfying_residual h.closed).1 (hM T hT)).2 c' hc'
      ((unsatisfied_perm hperm).2 hu) ((touches_perm hperm).2 ht)
    exact ⟨l, hperm.mem_iff.1 hl, hlK, hholds⟩

/-- propagating after some values were given: the free variables have the models that agree with these values -/
theorem Scope.settle_spec (h : Scope f c₀ K) (hg : Grown f.numVars K c₀ c₁ new)
    [DecidablePred (Agrees c₁.values K)] :
    ∃ consistent c₂ new₂, c₁.propagate = .ok (consistent, c₂) ∧ Grown f.numVars K c₀ c₂ new₂ ∧
      c₁.values.Extends c₂.values ∧ (consistent = true → ∀ d ∈ f.clauses, Propagated c₂.values d) ∧
      ((satisfying K (residual c₀.values f.clauses K)).filter (Agrees c₁.values K)).card =
        if consistent then f.modelsOn c₂.values (freeIn c₂.values K) else 0 := by
  set M : Finset Var → Prop := fun T => T ∈ satisfying K (residual c₀.values f.clauses K) ∧ Agrees c₁.values K T
  obtain ⟨consistent, c₂, new₂, hrun, hreached, hext, hdecided⟩ :=
    propagate_spec (h.task (M := M) fun T hT => hT.1) ⟨hg, fun T hT => hT.2⟩ h.numVars
  have hprop : consistent = true → ∀ d ∈ f.clauses, Propagated c₂.values d := by
    intro hc d hd
    obtain ⟨d', hd', hperm⟩ := h.stores.exists_perm_of_mem_clauses hd
    unfold Decided at hdecided
    rw [if_pos hc] at hdecided
    exact (propagated_perm hperm).2 (hdecided d' hd')
  refine ⟨consistent, c₂, new₂, hrun, hreached.toGrown, hext, hprop, ?_⟩
  cases consistent with
  | false =>
    simp only [Decided, Bool.false_eq_true, if_false] at hdecided ⊢
    rw [Finset.card_eq_zero, Finset.eq_empty_iff_forall_notMem]
    intro T hT
    exact hdecided T (Finset.mem_filter.1 hT)
  | true =>
    classical
    have hgrown := hreached.toGrown
    have hnarrow : Narrowing f.numVars f.clauses K c₀.values c₂.values := by
      refine ⟨h.reads, ⟨h.small, hgrown.fits, h.reads.proper⟩, hgrown.grows h.small h.fits, h.closed, h.within,
        fun v hw hfree hset => (hgrown.mem v (hgrown.mem_of_set h.small hw hfree hset)).2.1, fun d hd hu => ?_⟩
      have hreads : Reads f.numVars c₂.values f.clauses := ⟨h.small, hgrown.fits, h.reads.proper⟩
      obtain ⟨l, hl, hfree, -⟩ := hreads.exists_other hd (hprop rfl d hd) hu default
      exact ⟨l, hl, hfree⟩
    simp only [if_true]
    rw [modelsOn, ← hnarrow.card_eq]
    congr 1
    -- the models agree with the first values exactly if they agree with the propagated ones
    refine Finset.filter_congr fun T hT => ⟨fun ha => hreached.agree T ⟨hT, ha⟩, fun ha l hl htrue => ?_⟩
    exact ha l hl ((hext l (by rw [htrue]; simp)).trans htrue)

/-- **Propagating** where nothing has been decided: all models are kept. -/
theorem Scope.propagate_spec (h : Scope f c K) :
    ∃ consistent c' new, c.propagate = .ok (consistent, c') ∧ Grown f.numVars K c c' new ∧
      (consistent = true → ∀ d ∈ f.clauses, Propagated c'.values d) ∧
      f.modelsOn c.values K = if consistent then f.modelsOn c'.values (freeIn c'.values K) else 0 := by
  classical
  obtain ⟨consistent, c', new, hrun, hgrown, -, hprop, hcount⟩ := h.settle_spec (Grown.refl h.fits)
  refine ⟨consistent, c', new, hrun, hgrown, hprop, ?_⟩
  -- nothing has been decided on the closed set, so all models agree with the values
  have hall : (satisfying K (residual c.values f.clauses K)).filter (Agrees c.values K) =
      satisfying K (residual c.values f.clauses K) := by
    refine Finset.filter_true_of_mem fun T _ l hl htrue => ?_
    rw [val_of_closed h.closed h.small h.fits (h.within _ hl) hl] at htrue
    cases htrue
  calc f.modelsOn c.values K
      = ((satisfying K (residual c.values f.clauses K)).filter (Agrees c.values K)).card := by rw [hall]; rfl
    _ = _ := hcount

/-- **Deciding** a literal of the closed set and propagating: the models in which the literal holds are kept. -/
theorem Scope.decide_spec (h : Scope f c K) {l : Lit} (hl : l.var ∈ K) :
    ∃ c₁ consistent c₂ new, c.assign l = .ok c₁ ∧ c₁.propagate = .ok (consistent, c₂) ∧
      Grown f.numVars K c c₂ new ∧ freeCount f.numVars c₂.values < freeCount f.numVars c.values ∧
      (freeIn c₂.values K).card < K.card ∧
      (consistent = true → ∀ d ∈ f.clauses, Propagated c₂.values d) ∧
      ((satisfying K (residual c.values f.clauses K)).filter fun T => l.Holds T).card =
        if consistent then f.modelsOn c₂.values (freeIn c₂.values K) else 0 := by
  classical
  obtain ⟨c₁, hassign, hgrown, hlt, -, hval⟩ := (Grown.refl h.fits).assign h.small h.fits (h.within _ hl) hl
    (h.closed.free _ hl)
  obtain ⟨consistent, c₂, new, hrun, hgrown', hext, hprop, hcount⟩ := h.settle_spec hgrown
  refine ⟨c₁, consistent, c₂, new, hassign, hrun, hgrown', ?_, ?_, hprop, ?_⟩
  · exact Nat.lt_of_le_of_lt (freeCount_le_of_extends hext) hlt
  · refine Finset.card_lt_card ((Finset.ssubset_iff_of_subset (Finset.filter_subset _ _)).2 ⟨l.var, hl, fun hm => ?_⟩)
    exact (hgrown.mem l.var (by simp)).2.2.2 (hext.free (mem_freeIn.1 hm).2)
  · have hsame : ((satisfying K (residual c.values f.clauses K)).filter fun T => l.Holds T) =
        (satisfying K (residual c.values f.clauses K)).filter (Agrees c₁.values K) := by
      refine Finset.filter_congr fun T _ => ⟨fun hholds m hm htrue => ?_, fun ha => ha l hl (by rw [hval, if_pos rfl])⟩
      rw [hval] at htrue
      split_ifs at htrue with h1
      · rw [h1]; exact hholds
      · rw [val_of_closed h.closed h.small h.fits (h.within _ hm) hm] at htrue
        cases htrue
    rw [hsame]
    exact hcount

/-- propagating from any values, also where a clause is false already -/
theorem propagate_units (hf : f.Stores c.clauses) (hn : f.numVars < 2147483648) (hv : c.values.Fits f.numVars)
    (hnum : c.values.numVars = f.numVars) :
    ∃ consistent c' new, c.propagate = .ok (consistent, c') ∧
      Grown f.numVars (freeIn c.values (allVars f.numVars)) c c' new ∧
      (consistent = true → ∀ d ∈ f.clauses, Propagated c'.values d) := by
  have hmem : ∀ d ∈ c.clauses, ∀ l ∈ d, c.values.Free l.var → l.var ∈ freeIn c.values (allVars f.numVars) :=
    fun d hd l hl hfree => mem_freeIn.2 ⟨mem_allVars.2 ((hf.proper d hd).within l hl), hfree⟩
  have htask : Task f.numVars c.clauses (freeIn c.values (allVars f.numVars)) c.values fun _ => False := by
    refine ⟨⟨hn, hv, hf.proper⟩, ⟨fun v hv => (mem_freeIn.1 hv).2, fun d hd _ _ => hmem d hd⟩,
      fun v hv => mem_allVars.1 (mem_freeIn.1 hv).1, fun d hd hu => ?_, fun _ h => h.elim⟩
    by_cases ht : Touches (freeIn c.values (allVars f.numVars)) d
    · exact Or.inl ht
    · refine Or.inr (Or.inr ⟨fun l hl => ?_, fun _ h => h⟩)
      have hset : c.values.val l ≠ .unassigned := fun hfree =>
        ht ⟨l, hl, hmem d hd l hl ((hv.free_var_iff hn ((hf.proper d hd).within l hl)).2 hfree)⟩
      have htrue := hu l hl
      cases hval : c.values.val l with
      | isFalse => rfl
      | isTrue => exact absurd hval htrue
      | unassigned => exact absurd hval hset
  obtain ⟨consistent, c', new, hrun, hreached, -, hdecided⟩ :=
    propagate_spec htask ⟨Grown.refl hv, fun _ h => h.elim⟩ hnum
  refine ⟨consistent, c', new, hrun, hreached.toGrown, fun hc d hd => ?_⟩
  obtain ⟨d', hd', hperm⟩ := hf.exists_perm_of_mem_clauses hd
  unfold Decided at hdecided
  rw [if_pos hc] at hdecided
  exact (propagated_perm hperm).2 (hdecided d' hd')

/-- both values of a variable together have all models -/
theorem modelsOn_eq_add (hn : v.id < 2147483648) :
    f.modelsOn values K = ((satisfying K (residual values f.clauses K)).filter fun T => v.pos.Holds T).card +
      ((satisfying K (residual values f.clauses K)).filter fun T => v.neg.Holds T).card := by
  have hneg : (satisfying K (residual values f.clauses K)).filter (fun T => v.neg.Holds T) =
      (satisfying K (residual values f.clauses K)).filter fun T => ¬ v.pos.Holds T := by
    refine Finset.filter_congr fun T _ => ?_
    rw [← Var.negate_pos hn, Lit.holds_negate]
  calc f.modelsOn values K
      = (satisfying K (residual values f.clauses K)).card := rfl
    _ = ((satisfying K (residual values f.clauses K)).filter fun T => v.pos.Holds T).card +
          ((satisfying K (residual values f.clauses K)).filter fun T => ¬ v.pos.Holds T).card :=
        (Finset.card_filter_add_card_filter_not _).symm
    _ = _ := by rw [hneg]

end Counter

end ModelCount
