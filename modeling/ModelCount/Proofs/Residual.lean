/-
What is left of a formula on a set of free variables.

The residual formula on `K` consists of the clauses that are not satisfied and touch `K`, without their false
literals. If no such clause leads out of `K` (`Closed`), its literals are those of `K`, and over disjoint closed sets
the numbers of models of the residual formulas multiply (`numModels_residual_union`).
-/
import Mathlib.Tactic
import ModelCount.Proofs.Assignment
import ModelCount.Proofs.Formula
import ModelCount.Proofs.Satisfying

namespace ModelCount

open Formula

def Unsatisfied (values : Assignment) (c : List Lit) : Prop := ∀ l ∈ c, values.val l ≠ .isTrue

def Touches (K : Finset Var) (c : List Lit) : Prop := ∃ l ∈ c, l.var ∈ K

def reduced (values : Assignment) (c : List Lit) : List Lit := c.filter fun l => decide (values.val l ≠ .isFalse)

instance (values : Assignment) (c : List Lit) : Decidable (Unsatisfied values c) :=
  inferInstanceAs (Decidable (∀ l ∈ c, values.val l ≠ .isTrue))

instance (K : Finset Var) (c : List Lit) : Decidable (Touches K c) :=
  inferInstanceAs (Decidable (∃ l ∈ c, l.var ∈ K))

/-- the clauses that are not satisfied and touch `K`, without their false literals -/
def residual (values : Assignment) (cls : List (List Lit)) (K : Finset Var) : List (List Lit) :=
  (cls.filter fun c => decide (Unsatisfied values c ∧ Touches K c)).map (reduced values)

def Formula.modelsOn (f : Formula) (values : Assignment) (K : Finset Var) : ℕ :=
  numModels K (residual values f.clauses K)

/-- free variables that no unsatisfied clause connects to other free variables -/
structure Closed (values : Assignment) (cls : List (List Lit)) (K : Finset Var) : Prop where
  free : ∀ v ∈ K, values.Free v
  closed : ∀ c ∈ cls, Unsatisfied values c → Touches K c → ∀ l ∈ c, values.Free l.var → l.var ∈ K

/-- the clause is satisfied or has two literals without a value -/
def Propagated (values : Assignment) (c : List Lit) : Prop :=
  ¬ Unsatisfied values c ∨ 2 ≤ (c.filter fun l => decide (values.val l = .unassigned)).length

instance (values : Assignment) (c : List Lit) : Decidable (Propagated values c) := inferInstanceAs (Decidable (_ ∨ _))

/-- proper clauses over variables that the assignment speaks about -/
structure Reads (n : ℕ) (values : Assignment) (cls : List (List Lit)) : Prop where
  small : n < 2147483648
  fits : values.Fits n
  proper : ∀ c ∈ cls, Proper n c

variable {n : ℕ} {values : Assignment} {cls : List (List Lit)} {K L T : Finset Var} {c : List Lit} {l : Lit}

theorem mem_residual {c' : List Lit} :
    c' ∈ residual values cls K ↔ ∃ c ∈ cls, Unsatisfied values c ∧ Touches K c ∧ reduced values c = c' := by
  simp only [residual, List.mem_map, List.mem_filter, decide_eq_true_eq]
  constructor
  · intro hex
    rcases hex with ⟨c, ⟨hc, hu, ht⟩, rfl⟩
    exact ⟨c, hc, hu, ht, rfl⟩
  · intro hex
    rcases hex with ⟨c, hc, hu, ht, rfl⟩
    exact ⟨c, ⟨hc, hu, ht⟩, rfl⟩

theorem touches_union : Touches (K ∪ L) c ↔ Touches K c ∨ Touches L c := by
  simp only [Touches, Finset.mem_union, ← exists_or, ← and_or_left]

namespace Reads

theorem free_iff (h : Reads n values cls) (hc : c ∈ cls) (hl : l ∈ c) :
    values.Free l.var ↔ values.val l = .unassigned :=
  h.fits.free_var_iff h.small ((h.proper c hc).within l hl)

/-- a literal of an unsatisfied clause that is not false has no value -/
theorem free_of_ne (h : Reads n values cls) (hc : c ∈ cls) (hu : Unsatisfied values c) (hl : l ∈ c)
    (hne : values.val l ≠ .isFalse) : values.Free l.var := by
  rw [h.free_iff hc hl]
  have := hu l hl
  cases hv : values.val l with
  | isFalse => exact absurd hv hne
  | isTrue => exact absurd hv this
  | unassigned => rfl

/-- once units are propagated, an unsatisfied clause has a free variable besides a given one -/
theorem exists_other (h : Reads n values cls) (hc : c ∈ cls) (hp : Propagated values c) (hu : Unsatisfied values c)
    (v : Var) : ∃ l ∈ c, values.Free l.var ∧ l.var ≠ v := by
  by_contra hno
  push Not at hno
  have htwo := hp.resolve_left (not_not_intro hu)
  have hnodup : ((c.filter fun l => decide (values.val l = .unassigned)).map Lit.var).Nodup :=
    (h.proper c hc).nodup.sublist (List.filter_sublist.map _)
  have hsub : (c.filter fun l => decide (values.val l = .unassigned)).map Lit.var ⊆ [v] := by
    intro w hw
    obtain ⟨l, hl, rfl⟩ := List.mem_map.1 hw
    obtain ⟨hl, hval⟩ := List.mem_filter.1 hl
    rw [hno l hl ((h.free_iff hc hl).2 (by simpa using hval))]
    simp
  have hlen := (hnodup.subperm hsub).length_le
  rw [List.length_map, List.length_singleton] at hlen
  omega

/-- on a closed set, the literals left are those of the set -/
theorem reduced_eq (h : Reads n values cls) (hK : Closed values cls K) (hc : c ∈ cls) (hu : Unsatisfied values c)
    (ht : Touches K c) : reduced values c = c.filter fun l => decide (l.var ∈ K) := by
  refine List.filter_congr fun l hl => ?_
  rw [decide_eq_decide]
  constructor
  · intro hne
    exact hK.closed c hc hu ht l hl (h.free_of_ne hc hu hl hne)
  · intro hm hf
    rw [(h.free_iff hc hl).1 (hK.free _ hm)] at hf
    cases hf

theorem var_mem_of_residual (h : Reads n values cls) (hK : Closed values cls K) :
    ∀ c ∈ residual values cls K, ∀ l ∈ c, l.var ∈ K := by
  intro c' hc' l hl
  obtain ⟨c, hc, hu, ht, rfl⟩ := mem_residual.1 hc'
  rw [h.reduced_eq hK hc hu ht] at hl
  simpa using (List.mem_filter.1 hl).2

/-- the models of a residual formula, in terms of the clauses of the formula -/
theorem mem_satisfying_residual (h : Reads n values cls) (hK : Closed values cls K) :
    T ∈ satisfying K (residual values cls K) ↔
      T ⊆ K ∧ ∀ c ∈ cls, Unsatisfied values c → Touches K c → ∃ l ∈ c, l.var ∈ K ∧ l.Holds T := by
  rw [mem_satisfying]
  refine and_congr_right fun _ => ?_
  constructor
  · intro hsat c hc hu ht
    obtain ⟨l, hl, hh⟩ := hsat _ (mem_residual.2 ⟨c, hc, hu, ht, rfl⟩)
    rw [h.reduced_eq hK hc hu ht, List.mem_filter, decide_eq_true_eq] at hl
    exact ⟨l, hl.1, hl.2, hh⟩
  · intro hsat c' hc'
    obtain ⟨c, hc, hu, ht, rfl⟩ := mem_residual.1 hc'
    obtain ⟨l, hl, hlK, hh⟩ := hsat c hc hu ht
    refine ⟨l, ?_, hh⟩
    rw [h.reduced_eq hK hc hu ht, List.mem_filter, decide_eq_true_eq]
    exact ⟨hl, hlK⟩

end Reads

/-! ## The product law -/

theorem Closed.empty : Closed values cls ∅ :=
  ⟨by simp, by rintro c hc hu ⟨l, hl, hm⟩; simp at hm⟩

theorem Closed.union (hK : Closed values cls K) (hL : Closed values cls L) : Closed values cls (K ∪ L) := by
  refine ⟨fun v hv => ?_, fun c hc hu ht l hl hf => ?_⟩
  · rcases Finset.mem_union.1 hv with hv | hv
    · exact hK.free v hv
    · exact hL.free v hv
  · rcases touches_union.1 ht with ht | ht
    · exact Finset.mem_union_left _ (hK.closed c hc hu ht l hl hf)
    · exact Finset.mem_union_right _ (hL.closed c hc hu ht l hl hf)

theorem residual_empty : residual values cls ∅ = [] := by
  simp [residual, Touches]

/-- **Independence.** On disjoint closed sets the residual formulas are independent. -/
theorem numModels_residual_union (h : Reads n values cls) (hK : Closed values cls K) (hL : Closed values cls L)
    (hd : Disjoint K L) :
    numModels (K ∪ L) (residual values cls (K ∪ L)) =
      numModels K (residual values cls K) * numModels L (residual values cls L) := by
  have hsame : ∀ c', c' ∈ residual values cls (K ∪ L) ↔ c' ∈ residual values cls K ++ residual values cls L := by
    intro c'
    simp only [List.mem_append, mem_residual, touches_union]
    constructor
    · intro hex
      rcases hex with ⟨c, hc, hu, ht | ht, rfl⟩
      · exact Or.inl ⟨c, hc, hu, ht, rfl⟩
      · exact Or.inr ⟨c, hc, hu, ht, rfl⟩
    · intro hor
      rcases hor with ⟨c, hc, hu, ht, rfl⟩ | ⟨c, hc, hu, ht, rfl⟩
      · exact ⟨c, hc, hu, Or.inl ht, rfl⟩
      · exact ⟨c, hc, hu, Or.inr ht, rfl⟩
  calc numModels (K ∪ L) (residual values cls (K ∪ L))
      = numModels (K ∪ L) (residual values cls K ++ residual values cls L) := numModels_congr hsame
    _ = numModels K (residual values cls K) * numModels L (residual values cls L) :=
        numModels_union hd (h.var_mem_of_residual hK) (h.var_mem_of_residual hL)

/-- once units are propagated, nothing is left on a free variable that is alone: both values are models -/
theorem numModels_residual_singleton (h : Reads n values cls) {v : Var} (hv : Closed values cls {v})
    (hp : ∀ c ∈ cls, Propagated values c) : numModels {v} (residual values cls {v}) = 2 := by
  have hnil : residual values cls {v} = [] := by
    rw [List.eq_nil_iff_forall_not_mem]
    intro c' hc'
    obtain ⟨c, hc, hu, ht, -⟩ := mem_residual.1 hc'
    obtain ⟨l, hl, hfree, hne⟩ := h.exists_other hc (hp c hc) hu v
    exact hne (Finset.mem_singleton.1 (hv.closed c hc hu ht l hl hfree))
  calc numModels {v} (residual values cls {v})
      = 2 ^ ({v} : Finset Var).card := by rw [hnil, numModels_nil]
    _ = 2 := by rw [Finset.card_singleton, pow_one]

end ModelCount
