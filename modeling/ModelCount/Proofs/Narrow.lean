/-
Deciding some variables.

When an assignment is extended on a closed set of variables, the models that agree with the new values are those of
what is left on the variables that are still free (`Narrowing.card_eq`). A valid node stays valid, as far as it stays
propagated (`ValidNode.extend`), and a part of a valid node is a valid node itself (`ValidNode.of_isPart`).
-/
import Mathlib.Tactic
import ModelCount.Proofs.Valid

namespace ModelCount

open Formula

/-- every literal that has a value keeps it -/
def Assignment.Extends (values values' : Assignment) : Prop :=
  ∀ l, values.val l ≠ .unassigned → values'.val l = values.val l

/-- the literals over `K` that are true hold -/
def Agrees (values : Assignment) (K T : Finset Var) : Prop := ∀ l : Lit, l.var ∈ K → values.val l = .isTrue → l.Holds T

variable {n : ℕ} {values values' : Assignment} {cls : List (List Lit)} {K T : Finset Var} {c : List Lit} {v : Var}

theorem Assignment.Extends.refl (values : Assignment) : values.Extends values := fun _ _ => rfl

theorem Assignment.Extends.trans {values'' : Assignment} (h : values.Extends values') (h' : values'.Extends values'') :
    values.Extends values'' := by
  intro l hl
  have h1 := h l hl
  rw [h' l (h1 ▸ hl), h1]

theorem Assignment.Extends.free (h : values.Extends values') (hv : values'.Free v) : values.Free v := by
  by_contra hne
  have := h v.pos hne
  exact hne (this.symm.trans hv)

theorem Assignment.Extends.unsatisfied (h : values.Extends values') (hu : Unsatisfied values' c) :
    Unsatisfied values c := by
  intro l hl hv
  apply hu l hl
  rw [h l (by rw [hv]; simp), hv]

def freeIn (values : Assignment) (K : Finset Var) : Finset Var := K.filter fun v => values.Free v

def trueIn (values : Assignment) (K : Finset Var) : Finset Var := K.filter fun v => decide (values.val v.pos = .isTrue)

theorem mem_freeIn : v ∈ freeIn values K ↔ v ∈ K ∧ values.Free v := Finset.mem_filter

theorem mem_trueIn : v ∈ trueIn values K ↔ v ∈ K ∧ values.val v.pos = .isTrue := by
  rw [trueIn, Finset.mem_filter, decide_eq_true_eq]

/-- what is closed stays closed when values are given -/
theorem Closed.narrow (hK : Closed values cls K) (hext : values.Extends values') :
    Closed values' cls (freeIn values' K) := by
  refine ⟨fun v hv => (mem_freeIn.1 hv).2, ?_⟩
  intro c hc hu hex l hl hfree
  rcases hex with ⟨k, hk, hkK⟩
  have hin := hK.closed c hc (hext.unsatisfied hu) ⟨k, hk, (mem_freeIn.1 hkK).1⟩ l hl (hext.free hfree)
  exact mem_freeIn.2 ⟨hin, hfree⟩

/-- a false literal over `K` does not hold -/
theorem Agrees.not_holds (h : Agrees values K T) (hv : values.Fits n) {l : Lit} (hw : l.var.Within n)
    (hl : l.var ∈ K) (hfalse : values.val l = .isFalse) : ¬ l.Holds T := by
  rw [← Lit.holds_negate]
  apply h (-l) (by rw [Lit.var_negate]; exact hl)
  rw [hv.opposite l hw, hfalse]
  rfl

/-- a literal with a value, over the true variables -/
theorem holds_union_trueIn (hn : n < 2147483648) (hv : values.Fits n) {S : Finset Var}
    (hS : ∀ v ∈ S, values.Free v) {l : Lit} (hw : l.var.Within n) (hl : l.var ∈ K) (htrue : values.val l = .isTrue) :
    l.Holds (S ∪ trueIn values K) := by
  have hlt : l.var.id < 2147483648 := Nat.lt_of_le_of_lt hw.2 hn
  have hmem : l.var ∈ S ∪ trueIn values K ↔ values.val l.var.pos = .isTrue := by
    rw [Finset.mem_union, mem_trueIn]
    constructor
    · intro hor
      rcases hor with hs | hs
      · rw [(hv.free_var_iff hn hw).1 (hS _ hs)] at htrue
        cases htrue
      · exact hs.2
    · exact fun hp => Or.inr ⟨hl, hp⟩
  rw [Lit.Holds, hmem]
  rcases Lit.eq_pos_or_neg hlt with e | e
  · rw [← e, htrue]
    simp only [iff_true]
    rw [e]
    exact Var.isPositive_pos hlt
  · have hpos : values.val l.var.pos = .isFalse := by
      rw [← Var.negate_neg hlt, ← e, hv.opposite l hw, htrue]
      rfl
    rw [hpos, e]
    simp [Var.isPositive_neg hlt]

/-- a closed set, and an extension of the assignment on it that leaves no clause false -/
structure Narrowing (n : ℕ) (cls : List (List Lit)) (K : Finset Var) (values values' : Assignment) : Prop where
  before : Reads n values cls
  after : Reads n values' cls
  grows : values.Extends values'
  closed : Closed values cls K
  within : ∀ v ∈ K, v.Within n
  new : ∀ v : Var, v.Within n → values.Free v → ¬ values'.Free v → v ∈ K
  left : ∀ c ∈ cls, Unsatisfied values' c → ∃ l ∈ c, values'.Free l.var

namespace Narrowing

/-- the true variables of `K` are those of a model that agrees -/
theorem mem_iff (h : Narrowing n cls K values values') (hagree : Agrees values' K T) (hv : v ∈ K)
    (hset : ¬ values'.Free v) : v ∈ T ↔ values'.val v.pos = .isTrue := by
  have hlt : v.id < 2147483648 := Nat.lt_of_le_of_lt (h.within v hv).2 h.before.small
  have hw : v.pos.var.Within n := by rw [Var.var_pos hlt]; exact h.within v hv
  have hK : v.pos.var ∈ K := by rw [Var.var_pos hlt]; exact hv
  have hholds : v.pos.Holds T ↔ v ∈ T := by
    rw [Lit.Holds, Var.var_pos hlt, Var.isPositive_pos hlt]
    simp
  rw [← hholds]
  rcases h.after.fits.val_cases h.after.small hw with hval | hval | hval
  · rw [Var.var_pos hlt] at hval
    exact absurd hval.1 hset
  · exact ⟨fun _ => hval.2, hagree _ hK⟩
  · rw [hval.2]
    exact ⟨fun hh => absurd hh (hagree.not_holds h.after.fits hw hK hval.2), fun hh => nomatch hh⟩

/-- a model that agrees satisfies what is left by its free variables -/
theorem inter_mem (h : Narrowing n cls K values values') (hT : T ∈ satisfying K (residual values cls K))
    (hagree : Agrees values' K T) :
    T ∩ freeIn values' K ∈ satisfying (freeIn values' K) (residual values' cls (freeIn values' K)) := by
  obtain ⟨-, hsat⟩ := (h.before.mem_satisfying_residual h.closed).1 hT
  refine (h.after.mem_satisfying_residual (h.closed.narrow h.grows)).2 ⟨Finset.inter_subset_right, ?_⟩
  intro c hc hu hex
  rcases hex with ⟨k, hk, hkK⟩
  obtain ⟨l, hl, hlK, hholds⟩ := hsat c hc (h.grows.unsatisfied hu) ⟨k, hk, (mem_freeIn.1 hkK).1⟩
  have hw := (h.after.proper c hc).within l hl
  have hfree : values'.Free l.var := by
    by_contra hne
    rcases h.after.fits.val_cases h.after.small hw with hv | hv | hv
    · exact hne hv.1
    · exact hu l hl hv.2
    · exact hagree.not_holds h.after.fits hw hlK hv.2 hholds
  have hlK' : l.var ∈ freeIn values' K := mem_freeIn.2 ⟨hlK, hfree⟩
  exact ⟨l, hl, hlK', (Lit.holds_congr (by simp [hlK'])).1 hholds⟩

variable {S : Finset Var}

/-- with the new values, a model of what is left is a model -/
theorem union_mem (h : Narrowing n cls K values values')
    (hS : S ∈ satisfying (freeIn values' K) (residual values' cls (freeIn values' K))) :
    S ∪ trueIn values' K ∈ satisfying K (residual values cls K) ∧ Agrees values' K (S ∪ trueIn values' K) := by
  obtain ⟨hSK, hsat⟩ := (h.after.mem_satisfying_residual (h.closed.narrow h.grows)).1 hS
  have hagree : Agrees values' K (S ∪ trueIn values' K) := fun l hl htrue =>
    holds_union_trueIn h.after.small h.after.fits (fun v hv => (mem_freeIn.1 (hSK hv)).2) (h.within _ hl) hl htrue
  refine ⟨(h.before.mem_satisfying_residual h.closed).2 ⟨?_, fun c hc hu ht => ?_⟩, hagree⟩
  · exact Finset.union_subset (hSK.trans (Finset.filter_subset _ _)) (Finset.filter_subset _ _)
  · by_cases hu' : Unsatisfied values' c
    · obtain ⟨k, hk, hfree⟩ := h.left c hc hu'
      have hkK := h.closed.closed c hc hu ht k hk (h.grows.free hfree)
      obtain ⟨l, hl, hlK', hholds⟩ := hsat c hc hu' ⟨k, hk, mem_freeIn.2 ⟨hkK, hfree⟩⟩
      obtain ⟨hlK, hlfree⟩ := mem_freeIn.1 hlK'
      refine ⟨l, hl, hlK, (Lit.holds_congr ?_).1 hholds⟩
      rw [Finset.mem_union, or_iff_left]
      intro htrue
      have hval := (mem_trueIn.1 htrue).2
      rw [show values'.val l.var.pos = .unassigned from hlfree] at hval
      cases hval
    · unfold Unsatisfied at hu'
      push Not at hu'
      obtain ⟨l, hl, htrue⟩ := hu'
      have hw := (h.before.proper c hc).within l hl
      -- the literal has become true, so its variable is new
      have hfree : values.Free l.var := h.before.free_of_ne hc hu hl fun hfalse => by
        have := h.grows l (by rw [hfalse]; simp)
        rw [htrue, hfalse] at this
        cases this
      have hlK : l.var ∈ K := h.new l.var hw hfree (by
        rw [h.after.fits.free_var_iff h.after.small hw, htrue]
        simp)
      exact ⟨l, hl, hlK, hagree l hlK htrue⟩

/-- **Narrowing.** The models on a closed set that agree with an extension of the assignment are as many as the models
on the variables that are still free. -/
theorem card_eq (h : Narrowing n cls K values values') [DecidablePred (Agrees values' K)] :
    ((satisfying K (residual values cls K)).filter (Agrees values' K)).card =
      numModels (freeIn values' K) (residual values' cls (freeIn values' K)) := by
  refine Finset.card_nbij' (fun T => T ∩ freeIn values' K) (fun S => S ∪ trueIn values' K) ?_ ?_ ?_ ?_
  · intro T hT
    obtain ⟨hsat, hagree⟩ := Finset.mem_filter.1 hT
    exact h.inter_mem hsat hagree
  · intro S hS
    exact Finset.mem_filter.2 (h.union_mem hS)
  · intro T hT
    obtain ⟨hsat, hagree⟩ := Finset.mem_filter.1 hT
    have hTK := ((h.before.mem_satisfying_residual h.closed).1 hsat).1
    ext w
    rw [Finset.mem_union, Finset.mem_inter, mem_freeIn, mem_trueIn]
    by_cases hwK : w ∈ K
    · by_cases hfree : values'.Free w
      · have hne : values'.val w.pos ≠ .isTrue := by
          rw [show values'.val w.pos = .unassigned from hfree]
          simp
        simp [hwK, hfree, hne]
      · simp [hwK, hfree, h.mem_iff hagree hwK hfree]
    · have hwT : w ∉ T := fun hw => hwK (hTK hw)
      simp [hwK, hwT]
  · intro S hS
    have hSK := ((h.after.mem_satisfying_residual (h.closed.narrow h.grows)).1 hS).1
    ext w
    rw [Finset.mem_inter, Finset.mem_union]
    constructor
    · intro hboth
      rcases hboth with ⟨hw | htrue, hwK'⟩
      · exact hw
      · have hval := (mem_trueIn.1 htrue).2
        rw [show values'.val w.pos = .unassigned from (mem_freeIn.1 hwK').2] at hval
        cases hval
    · exact fun hw => ⟨Or.inl hw, hSK hw⟩

end Narrowing

/-! ## Valid nodes below a valid node -/

namespace ValidNode

variable {f : Formula} {comp part : Component} {signature : Signature}

/-- a valid node stays valid when values are given, as long as units are propagated -/
theorem extend (h : ValidNode f values comp) (hext : values.Extends values')
    (hprop : ∀ c ∈ f.clauses, Propagated values' c) : ValidNode f values' comp := by
  have hcand : ∀ {c : List Lit}, (∃ l ∈ c, Candidate values' comp l.var) → ∃ l ∈ c, Candidate values comp l.var := by
    intro c hex
    rcases hex with ⟨l, hl, hmem, hfree⟩
    exact ⟨l, hl, hmem, hext.free hfree⟩
  refine ⟨hprop, h.vars, h.varsAscending, h.clauses, h.clausesAscending, fun c hc hu ht l hl hfree => ?_,
    fun c hc hu ht => ?_⟩
  · exact h.binary c hc (hext.unsatisfied hu) (hcand ht) l hl (hext.free hfree)
  · obtain ⟨hmem, hall⟩ := h.long c hc (hext.unsatisfied hu) (hcand ht)
    exact ⟨hmem, fun l hl hfree => hall l hl (hext.free hfree)⟩

/-- a part of a valid node is a valid node -/
theorem of_isPart (hs : Setting f cls values comp) (h : ValidNode f values comp)
    (hpart : IsPart f values comp v part signature) : ValidNode f values part := by
  have hcand : ∀ w, w ∈ part.vars → Candidate values comp w :=
    fun w hw => ((hpart.mem_vars w).1 hw).candidate hpart.candidate
  have hclosed : ∀ {lits : List Lit}, lits ∈ f.clauses → Unsatisfied values lits →
      (∃ l ∈ lits, Candidate values part l.var) → ∀ l ∈ lits, values.Free l.var → l.var ∈ part.vars := by
    intro lits hc hu hex l hl hfree
    rcases hex with ⟨k, hk, hkp, -⟩
    have hconn := h.connected_of_unsatisfied hs hc hu hk (hcand _ hkp) hl hfree
    exact (hpart.mem_vars _).2 (((hpart.mem_vars _).1 hkp).trans hconn)
  refine ⟨h.propagated, fun w hw => h.vars w (hpart.varsSublist.subset hw),
    h.varsAscending.sublist hpart.varsSublist, fun c hc => h.clauses c (hpart.clausesSublist.subset hc),
    h.clausesAscending.sublist hpart.clausesSublist, fun c hc => hclosed (binary_mem_clauses hc),
    fun c hc hu ht => ⟨?_, hclosed (hs.stores.literals_mem_clauses hc) hu ht⟩⟩
  obtain ⟨k, hk, hkp, -⟩ := ht
  exact hpart.mem_clauses c (h.kept_of_unsatisfied hs hc hu ⟨k, hk, hcand _ hkp⟩) ⟨k.var, List.mem_map_of_mem hk, hkp⟩

end ValidNode

end ModelCount
