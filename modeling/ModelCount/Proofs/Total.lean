/-
Total truth assignments.

A total assignment gives a truth value to each of the variables 1 to `n`. The models of a formula over all its
variables are the total assignments that satisfy every clause it was built from (`card_total`), and trying every
assignment bit by bit counts the same (`count_eq`).
-/
import Mathlib.Tactic
import ModelCount.Models
import ModelCount.Proofs.Branching

namespace ModelCount

open Formula

namespace Models

def total {n : ℕ} (value : Fin n → Bool) (v : ℕ) : Bool := if h : v - 1 < n then value ⟨v - 1, h⟩ else false

def trueVars (n : ℕ) (value : ℕ → Bool) : Finset Var := (allVars n).filter fun v => value v.id = true

variable {n : ℕ} {value : ℕ → Bool} {clauses : List (List ℤ)}

theorem holds_ofInt {m : ℤ} (hm : m.natAbs < 2147483648) (hw : 1 ≤ m.natAbs ∧ m.natAbs ≤ n) :
    (Lit.ofInt m).Holds (trueVars n value) ↔ literalHolds value m = true := by
  have hmem : (⟨m.natAbs⟩ : Var) ∈ trueVars n value ↔ value m.natAbs = true := by
    rw [trueVars, Finset.mem_filter, mem_allVars]
    exact and_iff_right hw
  unfold Lit.Holds literalHolds
  rw [Lit.isPositive_ofInt hm, Lit.var_ofInt hm, hmem, decide_eq_true_eq]
  split_ifs with hpos
  · simp [hpos]
  · simp [hpos]

theorem holds_iff (hn : n < 2147483648) (hproper : ∀ c ∈ clauses.map (·.map Lit.ofInt), Proper n c)
    (hle : ∀ clause ∈ clauses, ∀ m ∈ clause, m.natAbs ≤ n) :
    holds value clauses = true ↔ ∀ c ∈ clauses.map (·.map Lit.ofInt), ∃ l ∈ c, l.Holds (trueVars n value) := by
  have hlit : ∀ clause ∈ clauses, ∀ m ∈ clause,
      ((Lit.ofInt m).Holds (trueVars n value) ↔ literalHolds value m = true) := by
    intro clause hc m hm
    have hlt := Nat.lt_of_le_of_lt (hle clause hc m hm) hn
    have hw := (hproper _ (List.mem_map_of_mem hc)).within _ (List.mem_map_of_mem hm)
    rw [Lit.var_ofInt hlt] at hw
    exact holds_ofInt hlt hw
  unfold holds clauseHolds
  rw [List.all_eq_true, List.forall_mem_map]
  refine forall₂_congr fun clause hc => ?_
  rw [List.any_eq_true]
  constructor
  · intro hex
    rcases hex with ⟨m, hm, hh⟩
    exact ⟨_, List.mem_map_of_mem hm, (hlit clause hc m hm).2 hh⟩
  · intro hex
    rcases hex with ⟨l, hl, hh⟩
    obtain ⟨m, hm, rfl⟩ := List.mem_map.1 hl
    exact ⟨m, hm, (hlit clause hc m hm).1 hh⟩

end Models

open Models

variable {n : ℕ} {clauses : List (List ℤ)} {cls : List (List Lit)} {f : Formula}

/-- the variables 1 to `n`, all free, are closed -/
theorem closed_allVars (hf : f.Stores cls) :
    Closed (.empty f.numVars) f.clauses (allVars f.numVars) := by
  refine ⟨fun v _ => Assignment.val_empty _ _, fun c hc _ _ l hl _ => ?_⟩
  exact mem_allVars.2 ((hf.proper_of_mem_clauses hc).within l hl)

theorem mem_satisfying_allVars (hf : f.Stores (clauses.map (·.map Lit.ofInt))) (hn : f.numVars < 2147483648)
    {T : Finset Var} :
    T ∈ satisfying (allVars f.numVars) (residual (.empty f.numVars) f.clauses (allVars f.numVars)) ↔
      T ⊆ allVars f.numVars ∧ ∀ c ∈ clauses.map (·.map Lit.ofInt), ∃ l ∈ c, l.Holds T := by
  have hreads : Reads f.numVars (.empty f.numVars) f.clauses :=
    ⟨hn, Assignment.fits_empty _, fun _ hc => hf.proper_of_mem_clauses hc⟩
  rw [hreads.mem_satisfying_residual (closed_allVars hf)]
  refine and_congr_right fun _ => ⟨fun h d hd => ?_, fun h c hc _ _ => ?_⟩
  · obtain ⟨c, hc, hperm⟩ := hf.exists_perm_of_mem hd
    have hproper := hf.proper_of_mem_clauses hc
    obtain ⟨k, hk⟩ := List.exists_mem_of_ne_nil c hproper.nonempty
    obtain ⟨l, hl, -, hh⟩ := h c hc (fun l _ => by rw [Assignment.val_empty]; simp)
      ⟨k, hk, mem_allVars.2 (hproper.within k hk)⟩
    exact ⟨l, hperm.mem_iff.1 hl, hh⟩
  · obtain ⟨d, hd, hperm⟩ := hf.exists_perm_of_mem_clauses hc
    obtain ⟨l, hl, hh⟩ := h d hd
    have hlc := hperm.mem_iff.2 hl
    exact ⟨l, hlc, mem_allVars.2 ((hf.proper_of_mem_clauses hc).within l hlc), hh⟩

/-- whatever names the true variables, if it names every set of variables once -/
theorem card_holds_eq (hn : n < 2147483648) (hf : Formula.ofClauses n clauses = .ok f) {α : Type} (s : Finset α)
    (g : α → ℕ → Bool) (hinj : ∀ a ∈ s, ∀ b ∈ s, trueVars n (g a) = trueVars n (g b) → a = b)
    (hsurj : ∀ T ⊆ allVars n, ∃ a ∈ s, trueVars n (g a) = T) :
    (s.filter fun a => holds (g a) clauses = true).card = f.modelsOn (.empty n) (allVars n) := by
  obtain ⟨rfl, hstores⟩ := stores_of_ofClauses hn hf
  have hholds : ∀ value, holds value clauses = true ↔ trueVars f.numVars value ∈
      satisfying (allVars f.numVars) (residual (.empty f.numVars) f.clauses (allVars f.numVars)) := by
    intro value
    rw [mem_satisfying_allVars hstores hn, holds_iff hn hstores.proper (natAbs_le_of_ofClauses hf)]
    exact (and_iff_right (Finset.filter_subset _ _)).symm
  unfold modelsOn numModels
  refine Finset.card_bij (fun a _ => trueVars f.numVars (g a)) ?_ ?_ ?_
  · intro a ha
    exact (hholds _).1 (Finset.mem_filter.1 ha).2
  · intro a ha b hb heq
    exact hinj a (Finset.mem_filter.1 ha).1 b (Finset.mem_filter.1 hb).1 heq
  · intro T hT
    obtain ⟨a, ha, rfl⟩ := hsurj T ((mem_satisfying_allVars hstores hn).1 hT).1
    exact ⟨a, Finset.mem_filter.2 ⟨ha, (hholds _).2 hT⟩, rfl⟩

theorem mem_trueVars_succ {value : ℕ → Bool} {i : ℕ} (hi : i < n) :
    (⟨i + 1⟩ : Var) ∈ trueVars n value ↔ value (i + 1) = true := by
  rw [trueVars, Finset.mem_filter, mem_allVars]
  exact and_iff_right ⟨Nat.succ_le_succ (Nat.zero_le i), hi⟩

/-- two valuations with the same true variables agree on the variables 1 to `n` -/
theorem eq_of_trueVars_eq {value value' : ℕ → Bool} (h : trueVars n value = trueVars n value') {i : ℕ} (hi : i < n) :
    value (i + 1) = value' (i + 1) := by
  rw [Bool.eq_iff_iff]
  calc value (i + 1) = true
      ↔ (⟨i + 1⟩ : Var) ∈ trueVars n value := (mem_trueVars_succ hi).symm
    _ ↔ (⟨i + 1⟩ : Var) ∈ trueVars n value' := by rw [h]
    _ ↔ value' (i + 1) = true := mem_trueVars_succ hi

/-- a valuation that says which variables are in a set -/
theorem trueVars_eq {value : ℕ → Bool} {T : Finset Var} (hT : T ⊆ allVars n)
    (h : ∀ i < n, value (i + 1) = true ↔ (⟨i + 1⟩ : Var) ∈ T) : trueVars n value = T := by
  ext v
  rw [trueVars, Finset.mem_filter]
  constructor
  · intro hboth
    rcases hboth with ⟨hv, hval⟩
    obtain ⟨h1, h2⟩ := mem_allVars.1 hv
    have hid : v.id - 1 + 1 = v.id := Nat.sub_add_cancel h1
    have := (h (v.id - 1) (by omega)).1 (by rw [hid]; exact hval)
    rwa [hid] at this
  · intro hv
    obtain ⟨h1, h2⟩ := mem_allVars.1 (hT hv)
    have hid : v.id - 1 + 1 = v.id := Nat.sub_add_cancel h1
    have := (h (v.id - 1) (by omega)).2 (by rw [hid]; exact hv)
    rw [hid] at this
    exact ⟨hT hv, this⟩

/-- **Total assignments.** As many satisfy all clauses as there are models over all variables. -/
theorem card_total (hn : n < 2147483648) (hf : Formula.ofClauses n clauses = .ok f) :
    Fintype.card { value : Fin n → Bool // holds (total value) clauses = true } =
      f.modelsOn (.empty n) (allVars n) := by
  have htotal : ∀ (value : Fin n → Bool) (i : ℕ) (hi : i < n), total value (i + 1) = value ⟨i, hi⟩ := by
    intro value i hi
    rw [total, dif_pos (by rw [Nat.add_sub_cancel]; exact hi)]
    rfl
  rw [Fintype.card_subtype]
  refine card_holds_eq hn hf Finset.univ total ?_ ?_
  · intro a _ b _ heq
    funext i
    calc a i
        = total a (i.val + 1) := (htotal a i.val i.isLt).symm
      _ = total b (i.val + 1) := eq_of_trueVars_eq heq i.isLt
      _ = b i := htotal b i.val i.isLt
  · intro T hT
    refine ⟨fun i => decide ((⟨i.val + 1⟩ : Var) ∈ T), Finset.mem_univ _, trueVars_eq hT fun i hi => ?_⟩
    rw [htotal _ i hi, decide_eq_true_eq]

/-- **Trying every assignment** counts the models over all variables. -/
theorem Models.count_eq (hn : n < 2147483648) (hf : Formula.ofClauses n clauses = .ok f) :
    Models.count n clauses = f.modelsOn (.empty n) (allVars n) := by
  have hfold : ∀ (k : ℕ), Nat.fold k (fun bits _ found => if holds (ofBits bits) clauses then found + 1 else found) 0 =
      ((Finset.range k).filter fun bits => holds (ofBits bits) clauses = true).card := by
    intro k
    induction k with
    | zero => rfl
    | succ k ih =>
      rw [Nat.fold_succ, ih, Finset.range_add_one, Finset.filter_insert]
      split_ifs with hk
      · rw [Finset.card_insert_of_notMem (by simp)]
      · rfl
  have hbits : ∀ bits i : ℕ, ofBits bits (i + 1) = bits.testBit i := fun bits i => rfl
  rw [Models.count, hfold]
  refine card_holds_eq hn hf (Finset.range (Nat.pow 2 n)) ofBits ?_ ?_
  · intro a ha b hb heq
    refine Nat.eq_of_testBit_eq fun i => ?_
    by_cases hi : i < n
    · rw [← hbits, ← hbits]
      exact eq_of_trueVars_eq heq hi
    · have hlarge : ∀ x ∈ Finset.range (Nat.pow 2 n), x.testBit i = false := fun x hx =>
        Nat.testBit_lt_two_pow (Nat.lt_of_lt_of_le (Finset.mem_range.1 hx)
          (Nat.pow_le_pow_right (by omega) (Nat.not_lt.1 hi)))
      rw [hlarge a ha, hlarge b hb]
  · intro T hT
    refine ⟨Nat.ofBits fun i : Fin n => decide ((⟨i.val + 1⟩ : Var) ∈ T), ?_, trueVars_eq hT fun i hi => ?_⟩
    · exact Finset.mem_range.2 (Nat.ofBits_lt_two_pow _)
    · rw [hbits, Nat.testBit_ofBits_lt _ i hi, decide_eq_true_eq]

end ModelCount
