/-
Counting the models of a list of clauses over a set of variables.

A truth assignment of the variables `K` is the set of its true variables, a part of `K`. Clauses over disjoint sets
of variables are satisfied independently, so their numbers of models multiply (`numModels_union`).
-/
import Mathlib.Tactic
import ModelCount.Proofs.Literal

namespace ModelCount

/-- the literal is true if exactly the variables of `T` are -/
def Lit.Holds (T : Finset Var) (l : Lit) : Prop := l.isPositive = true ↔ l.var ∈ T

instance (T : Finset Var) (l : Lit) : Decidable (l.Holds T) := inferInstanceAs (Decidable (_ ↔ _))

def satisfying (K : Finset Var) (cls : List (List Lit)) : Finset (Finset Var) :=
  K.powerset.filter fun T => ∀ c ∈ cls, ∃ l ∈ c, l.Holds T

def numModels (K : Finset Var) (cls : List (List Lit)) : ℕ := (satisfying K cls).card

variable {K L T : Finset Var} {cls cls' : List (List Lit)} {l : Lit}

theorem mem_satisfying : T ∈ satisfying K cls ↔ T ⊆ K ∧ ∀ c ∈ cls, ∃ l ∈ c, l.Holds T := by
  rw [satisfying, Finset.mem_filter, Finset.mem_powerset]

/-- only the value of its own variable matters to a literal -/
theorem Lit.holds_congr {U : Finset Var} (h : l.var ∈ T ↔ l.var ∈ U) : l.Holds T ↔ l.Holds U := by
  unfold Holds
  rw [h]

@[simp] theorem Lit.holds_negate : (-l).Holds T ↔ ¬ l.Holds T := by
  unfold Holds
  rw [Lit.isPositive_negate, Lit.var_negate]
  cases l.isPositive <;> simp

theorem numModels_nil : numModels K [] = 2 ^ K.card := by
  unfold numModels satisfying
  rw [Finset.filter_true_of_mem (by simp), Finset.card_powerset]

/-- the order of the clauses and repetitions do not matter -/
theorem numModels_congr (h : ∀ c, c ∈ cls ↔ c ∈ cls') : numModels K cls = numModels K cls' := by
  unfold numModels satisfying
  congr 1
  refine Finset.filter_congr fun T _ => ?_
  simp only [h]

variable {A B : Finset Var}

theorem union_inter_left (hd : Disjoint K L) (hA : A ⊆ K) (hB : B ⊆ L) : (A ∪ B) ∩ K = A := by
  have hnone : B ∩ K = ∅ := Finset.disjoint_iff_inter_eq_empty.1 (hd.symm.mono_left hB)
  calc (A ∪ B) ∩ K
      = A ∩ K ∪ B ∩ K := Finset.union_inter_distrib_right _ _ _
    _ = A ∪ ∅ := by rw [Finset.inter_eq_left.2 hA, hnone]
    _ = A := Finset.union_empty A

theorem union_inter_right (hd : Disjoint K L) (hA : A ⊆ K) (hB : B ⊆ L) : (A ∪ B) ∩ L = B := by
  rw [Finset.union_comm]
  exact union_inter_left hd.symm hB hA

/-- of a truth assignment, a clause over `K` sees only what is in `K` -/
theorem exists_holds_inter {c : List Lit} (hc : ∀ l ∈ c, l.var ∈ K) :
    (∃ l ∈ c, l.Holds (T ∩ K)) ↔ ∃ l ∈ c, l.Holds T := by
  refine exists_congr fun l => and_congr_right fun hl => Lit.holds_congr ?_
  rw [Finset.mem_inter, and_iff_left (hc l hl)]

/-- **Product.** Clauses over two disjoint sets of variables have the product of the numbers of models. -/
theorem numModels_union (hd : Disjoint K L) (hK : ∀ c ∈ cls, ∀ l ∈ c, l.var ∈ K) (hL : ∀ c ∈ cls', ∀ l ∈ c, l.var ∈ L) :
    numModels (K ∪ L) (cls ++ cls') = numModels K cls * numModels L cls' := by
  unfold numModels
  rw [← Finset.card_product]
  refine Finset.card_nbij' (fun T => (T ∩ K, T ∩ L)) (fun p => p.1 ∪ p.2) ?_ ?_ ?_ ?_
  · intro T hT
    obtain ⟨-, hsat⟩ := mem_satisfying.1 hT
    refine Finset.mem_product.2 ⟨mem_satisfying.2 ⟨Finset.inter_subset_right, fun c hc => ?_⟩,
      mem_satisfying.2 ⟨Finset.inter_subset_right, fun c hc => ?_⟩⟩
    · exact (exists_holds_inter (hK c hc)).2 (hsat c (List.mem_append_left _ hc))
    · exact (exists_holds_inter (hL c hc)).2 (hsat c (List.mem_append_right _ hc))
  · intro p hp
    obtain ⟨h1, h2⟩ := Finset.mem_product.1 hp
    obtain ⟨hA, hA'⟩ := mem_satisfying.1 h1
    obtain ⟨hB, hB'⟩ := mem_satisfying.1 h2
    refine mem_satisfying.2 ⟨Finset.union_subset_union hA hB, fun c hc => ?_⟩
    rcases List.mem_append.1 hc with hc | hc
    · apply (exists_holds_inter (hK c hc)).1
      rw [union_inter_left hd hA hB]
      exact hA' c hc
    · apply (exists_holds_inter (hL c hc)).1
      rw [union_inter_right hd hA hB]
      exact hB' c hc
  · intro T hT
    obtain ⟨hsub, -⟩ := mem_satisfying.1 hT
    calc T ∩ K ∪ T ∩ L
        = T ∩ (K ∪ L) := (Finset.inter_union_distrib_left _ _ _).symm
      _ = T := Finset.inter_eq_left.2 hsub
  · intro p hp
    obtain ⟨h1, h2⟩ := Finset.mem_product.1 hp
    have hA := (mem_satisfying.1 h1).1
    have hB := (mem_satisfying.1 h2).1
    exact Prod.ext (union_inter_left hd hA hB) (union_inter_right hd hA hB)

end ModelCount
