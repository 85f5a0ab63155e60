/-
Literals at the limits of their word.

Three ranges meet in a literal: a caller writes a signed 32-bit number, a formula accepts it up to the number of its
variables, an unsigned 32-bit number, and the packing shifts the variable within 32 bits. They disagree in one number
only. The lowest signed one has the magnitude 2^31; a formula over so many variables accepts it, and the shift makes it
the sentinel. Results:
- `faithful_iff`: every other number survives the packing;
- `ofInt_inj`: no two numbers get one literal;
- `accepted_encoding`: both for what a formula accepts, and which links are cut short by a literal that is the sentinel.
-/
import Mathlib.Tactic
import ModelCount.Assignment
import ModelCount.Proofs.Storage

namespace ModelCount

namespace Lit

/-- a number that a signed 32-bit word holds -/
def Signed (x : ℤ) : Prop := -2147483648 ≤ x ∧ x ≤ 2147483647

instance (x : ℤ) : Decidable (Signed x) := inferInstanceAs (Decidable (_ ∧ _))

def lowest : ℤ := -2147483648

/-- the literal of a number says all that the number says: it is no end mark, has its variable and its sign, is written
as the same number, and its negation is the literal of the opposite number -/
structure Faithful (x : ℤ) : Prop where
  notSentinel : (ofInt x).isSentinel = false
  var : (ofInt x).var = ⟨x.natAbs⟩
  sign : (ofInt x).isPositive = decide (0 < x)
  toInt : (ofInt x).toInt = x
  negate : -ofInt x = ofInt (-x)

variable {x y : ℤ}

theorem ofInt_lowest : ofInt lowest = sentinel := rfl

theorem natAbs_lt (hs : Signed x) (hx : x ≠ lowest) : x.natAbs < 2147483648 := by
  unfold Signed lowest at *
  omega

theorem isSentinel_ofInt (hs : Signed x) (h0 : x ≠ 0) : (ofInt x).isSentinel = true ↔ x = lowest := by
  constructor
  · intro h
    by_contra hx
    have hword : (ofInt x).raw = 0 := by simpa [isSentinel] using h
    rw [ofInt_raw (natAbs_lt hs hx)] at hword
    omega
  · intro h
    rw [h, ofInt_lowest]
    rfl

theorem negate_ofInt (h0 : x ≠ 0) (h : x.natAbs < 2147483648) : -ofInt x = ofInt (-x) := by
  have hopposite : (-x).natAbs < 2147483648 := by rwa [Int.natAbs_neg]
  apply ext_var
  · rw [var_negate, var_ofInt h, var_ofInt hopposite, Int.natAbs_neg]
  · rw [isPositive_negate, isPositive_ofInt h, isPositive_ofInt hopposite, ← decide_not, decide_eq_decide]
    omega

/-- of the numbers other than 0, the lowest alone is lost -/
theorem faithful_iff (hs : Signed x) (h0 : x ≠ 0) : Faithful x ↔ x ≠ lowest := by
  constructor
  · intro h hx
    have hmark := h.notSentinel
    rw [(isSentinel_ofInt hs h0).2 hx] at hmark
    cases hmark
  · intro hx
    have h := natAbs_lt hs hx
    have hmark : (ofInt x).isSentinel = false := by
      rw [← Bool.not_eq_true, isSentinel_ofInt hs h0]
      exact hx
    exact ⟨hmark, var_ofInt h, isPositive_ofInt h, Formula.toInt_ofInt h, negate_ofInt h0 h⟩

/-- the lowest number shares its literal with no other one that is not 0 -/
theorem ofInt_inj (hx : Signed x) (hx0 : x ≠ 0) (hy : Signed y) (hy0 : y ≠ 0) (h : ofInt x = ofInt y) : x = y := by
  by_cases hlow : x = lowest
  · have hmark := (isSentinel_ofInt hx hx0).2 hlow
    rw [h] at hmark
    rw [hlow, (isSentinel_ofInt hy hy0).1 hmark]
  · have hlow' : y ≠ lowest := by
      intro hy'
      have hmark := (isSentinel_ofInt hy hy0).2 hy'
      rw [← h] at hmark
      exact hlow ((isSentinel_ofInt hx hx0).1 hmark)
    calc x
        = (ofInt x).toInt := (Formula.toInt_ofInt (natAbs_lt hx hlow)).symm
      _ = (ofInt y).toInt := by rw [h]
      _ = y := Formula.toInt_ofInt (natAbs_lt hy hlow')

/-- the shift never leaves the tables of a formula that has the variable -/
theorem index_ofInt_lt {n : ℕ} (h : x.natAbs ≤ n) : (ofInt x).index < 2 * (n + 1) := by
  show (2 * x.natAbs + (decide (0 < x)).toNat) % 4294967296 < 2 * (n + 1)
  have hsign := Bool.toNat_le (decide (0 < x))
  have hmod := Nat.mod_le (2 * x.natAbs + (decide (0 < x)).toNat) 4294967296
  omega

end Lit

namespace Formula

open Lit

/-- some clause with the number is valid for a formula over the variables 1 to `n` -/
def Admits (n : ℕ) (x : ℤ) : Prop := ∃ clause lits, validate n clause = .ok lits ∧ x ∈ clause

theorem admits_iff {n : ℕ} {x : ℤ} : Admits n x ↔ x ≠ 0 ∧ x.natAbs ≤ n := by
  constructor
  · intro h
    obtain ⟨clause, lits, hv, hx⟩ := h
    exact (validate_spec hv).2.2.2 x hx
  · intro h
    refine ⟨[x], [ofInt x], ?_, by simp⟩
    simp [validate, readLits, h.1, Nat.not_lt.2 h.2]

theorem exists_addClauses {clauses : List (List ℤ)} {g : Formula}
    (h : ∀ clause ∈ clauses, ∃ lits, validate g.numVars clause = .ok lits) : ∃ g', g.addClauses clauses = (g', none) := by
  induction clauses generalizing g with
  | nil => exact ⟨g, rfl⟩
  | cons clause rest ih =>
    obtain ⟨lits, hv⟩ := h clause (by simp)
    obtain ⟨r, hr⟩ : ∃ r, g.addClause clause = .ok r := by
      unfold addClause
      rw [hv]
      match lits with
      | [] => exact ⟨_, rfl⟩
      | [a] => exact ⟨_, rfl⟩
      | [a, b] => exact ⟨_, rfl⟩
      | a :: b :: c :: lits => exact ⟨_, rfl⟩
    obtain ⟨g', hg'⟩ := @ih r.1 fun c hc => by
      rw [numVars_addClause hr]
      exact h c (List.mem_cons_of_mem _ hc)
    exact ⟨g', by simp only [addClauses, hr, hg']⟩

/-- valid clauses make a formula -/
theorem exists_ofClauses {n : ℕ} {clauses : List (List ℤ)}
    (h : ∀ clause ∈ clauses, ∃ lits, validate n clause = .ok lits) : ∃ f, ofClauses n clauses = .ok f := by
  obtain ⟨f, hf⟩ := @exists_addClauses clauses (empty n) h
  exact ⟨f, by rw [ofClauses, hf]⟩

/-! ## Links and the sentinel -/

/-- the clauses in which a variable occurs, as lists of literals -/
theorem Files.forall_occurrences {f : Formula} {cls : List (List Lit)} (hf : Files f cls) {v : Var}
    {P : List Lit → Prop} :
    (∀ c ∈ f.occurrencesOf v, P c.2) ↔ ∀ lits ∈ cls, 3 ≤ lits.length → v ∈ lits.map Lit.var → P lits := by
  have hoccurs : ∀ c : ClauseId × List Lit, c ∈ f.occurrencesOf v ↔ c ∈ f.longClauses ∧ v ∈ c.2.map Lit.var := by
    intro c
    simp [occurrencesOf, List.mem_filter, List.any_eq_true]
  constructor
  · intro h lits hcls hlen hv
    obtain ⟨c, hc, rfl⟩ := List.mem_map.1 (hf.mem_snd_longClauses.2 ⟨hcls, hlen⟩)
    exact h c ((hoccurs c).2 ⟨hc, hv⟩)
  · intro h c hc
    obtain ⟨hlong, hv⟩ := (hoccurs c).1 hc
    obtain ⟨hcls, hlen⟩ := hf.mem_snd_longClauses.1 (List.mem_map_of_mem hlong)
    exact h c.2 hcls hlen hv

section Accepted

variable {n : ℕ} {clauses : List (List ℤ)} {f : Formula}
  (hsigned : ∀ clause ∈ clauses, ∀ x ∈ clause, Signed x) (hf : ofClauses n clauses = .ok f)
include hsigned hf

/-- seen from a variable of a clause, the sentinel is among the other literals exactly if the lowest number is among
the numbers -/
theorem forall_others_iff {v : Var} (hv : 1 ≤ v.id) {clause : List ℤ} (hclause : clause ∈ clauses) :
    (∀ l ∈ othersOf v (clause.map ofInt), l.isSentinel = false) ↔ lowest ∉ clause := by
  have hmark : ∀ x ∈ clause, (ofInt x).isSentinel = true ↔ x = lowest := fun x hx =>
    isSentinel_ofInt (hsigned clause hclause x hx) (within_of_ofClauses hf clause hclause x hx).1
  constructor
  · intro h hlow
    have hother : ofInt lowest ∈ othersOf v (clause.map ofInt) := by
      refine List.mem_filter.2 ⟨List.mem_map_of_mem hlow, ?_⟩
      -- the variable of the sentinel is 0
      rw [ofInt_lowest, bne_iff_ne]
      intro h0
      rw [← h0] at hv
      exact absurd hv (by decide)
    have hlost := h _ hother
    rw [(hmark lowest hlow).2 rfl] at hlost
    cases hlost
  · intro hlow l hl
    obtain ⟨x, hx, rfl⟩ := List.mem_map.1 (List.mem_filter.1 hl).1
    rw [← Bool.not_eq_true, hmark x hx]
    exact fun h => hlow (h ▸ hx)

/-- a literal of a binary clause is the sentinel only if the clause has the lowest number -/
theorem partner_id_ne_zero (hbinary : ∀ clause ∈ clauses, clause.length = 2 → lowest ∉ clause) {a b : Lit}
    (hb : b ∈ f.partnersOf a) : b.var.id ≠ 0 := by
  obtain ⟨lits, hlits, hlen, hmem⟩ : ∃ lits ∈ clauses.map (·.map ofInt), lits.length = 2 ∧ b ∈ lits := by
    rcases (files_of_ofClauses hf).2.partners a b hb with h | h
    · exact ⟨[a, b], h, rfl, by simp⟩
    · exact ⟨[b, a], h, rfl, by simp⟩
  obtain ⟨clause, hclause, rfl⟩ := List.mem_map.1 hlits
  obtain ⟨x, hx, rfl⟩ := List.mem_map.1 hmem
  have hlow : x ≠ lowest := fun h => hbinary clause hclause (by simpa using hlen) (h ▸ hx)
  rw [var_ofInt (natAbs_lt (hsigned clause hclause x hx) hlow)]
  exact Int.natAbs_ne_zero.2 (within_of_ofClauses hf clause hclause x hx).1

end Accepted

/-- **Encoding.** Take an accepted formula over `n` variables whose clauses are written in signed 32-bit numbers. The
literals of a valid clause are those of its numbers, and for every number that some clause may have:
- its literal lies within the tables that have a cell for each literal, and is the literal of no other such number;
- the literal says all that the number says, unless it is the lowest one. That takes 2^31 variables, and its literal is
  the sentinel.
The pool is read by the lengths of its clauses and gives them whole. The links of a variable give a longer clause up to
the first sentinel: they are complete exactly if no clause of four or more literals with the variable has the lowest
number, as long as no clause of two has it. -/
theorem accepted_encoding {n : ℕ} {clauses : List (List ℤ)} {f : Formula}
    (hsigned : ∀ clause ∈ clauses, ∀ x ∈ clause, Signed x) (hf : ofClauses n clauses = .ok f) :
    (∀ clause lits, validate n clause = .ok lits → lits = clause.map ofInt) ∧
    (∀ x, Signed x → Admits n x →
      Lit.checked x = .ok (ofInt x) ∧
      (ofInt x).index < f.partners.size ∧ (ofInt x).index < (Assignment.empty n).values.size ∧
      (∀ y, Signed y → Admits n y → ofInt x = ofInt y → x = y) ∧
      (Faithful x ↔ x ≠ lowest) ∧
      (x = lowest → 2147483648 ≤ n ∧ ofInt x = sentinel)) ∧
    f.longClauses = numbered (longs (clauses.map (·.map ofInt))) ∧
    ((∀ clause ∈ clauses, clause.length = 2 → lowest ∉ clause) → ∀ v, v.Within n →
      (Adjacency.ofFormula f).linksOf v = .ok ((f.links v).map Link.cut) ∧
      ((f.links v).map Link.cut = f.links v ↔
        ∀ clause ∈ clauses, 4 ≤ clause.length → v ∈ clause.map (fun x => (ofInt x).var) → lowest ∉ clause)) := by
  obtain ⟨hnum, hfiles⟩ := files_of_ofClauses hf
  refine ⟨fun clause lits hv => (validate_spec hv).1, fun x hs hx => ?_, hfiles.longClauses_eq,
    fun hbinary v hv => ⟨?_, ?_⟩⟩
  · obtain ⟨h0, hle⟩ := admits_iff.1 hx
    refine ⟨if_neg h0, ?_, ?_, fun y hs' hy => ofInt_inj hs h0 hs' (admits_iff.1 hy).1, faithful_iff hs h0,
      fun hlow => ⟨?_, ?_⟩⟩
    · rw [hfiles.partnersSize, hnum]
      exact index_ofInt_lt hle
    · rw [Assignment.empty, Array.size_replicate]
      exact index_ofInt_lt hle
    · rw [hlow] at hle
      exact hle
    · rw [hlow, ofInt_lowest]
  · refine Adjacency.linksOf_cut hfiles (by rwa [hnum]) fun l hl => ?_
    rcases List.mem_append.1 hl with hl | hl
    · exact partner_id_ne_zero hsigned hf hbinary hl
    · exact partner_id_ne_zero hsigned hf hbinary hl
  · rw [Adjacency.cut_links_eq_self_iff,
      hfiles.forall_occurrences (P := fun lits => lits.length ≠ 3 → ∀ l ∈ othersOf v lits, l.isSentinel = false)]
    simp only [List.forall_mem_map, List.length_map, List.map_map]
    refine forall₂_congr fun clause hclause => ?_
    rw [forall_others_iff hsigned hf hv.1 hclause]
    constructor
    · intro h hlen hoccurs
      exact h (by omega) hoccurs (by omega)
    · intro h hlen hoccurs hthree
      exact h (by omega) hoccurs

/-- A formula over 2^31 variables accepts the lowest number among the literals of a clause. It is packed as the
sentinel, of variable 0 and written 0, and the link from variable 1 ends before it: the literal after it is lost. -/
theorem accepted_lowest_cuts :
    let clause : List ℤ := [1, 2, -2147483648, 3]
    validate 2147483648 clause = .ok [⟨3⟩, ⟨5⟩, sentinel, ⟨7⟩] ∧ (∀ x ∈ clause, Signed x) ∧
      (ofInt (-2147483648)).isSentinel = true ∧ (ofInt (-2147483648)).var = ⟨0⟩ ∧ (ofInt (-2147483648)).toInt = 0 ∧
      ∃ f, ofClauses 2147483648 [clause] = .ok f ∧ (Adjacency.ofFormula f).linksOf ⟨1⟩ = .ok [.long ⟨1⟩ [⟨5⟩]] := by
  intro clause
  refine ⟨rfl, by decide, rfl, rfl, rfl, ((empty 2147483648).addLong [⟨3⟩, ⟨5⟩, sentinel, ⟨7⟩]).1, rfl, ?_⟩
  set f := ((empty 2147483648).addLong [⟨3⟩, ⟨5⟩, sentinel, ⟨7⟩]).1 with hf
  have hfiles : Files f [[⟨3⟩, ⟨5⟩, sentinel, ⟨7⟩]] := (Files.empty _).addLong (by decide) (by decide)
  have hpartners : ∀ a, f.partnersOf a = [] := by
    intro a
    simp only [hf, partnersOf, addLong, empty, Array.getElem?_replicate]
    split_ifs <;> rfl
  have hlinks : f.links ⟨1⟩ = [.long ⟨1⟩ [⟨5⟩, sentinel, ⟨7⟩]] := by
    rw [links, occurrencesOf, hfiles.longClauses_eq, hpartners, hpartners]
    rfl
  rw [Adjacency.linksOf_cut hfiles ⟨by decide, by decide⟩ (by simp [hpartners]), hlinks]
  rfl

/-- the lowest number in a clause of four literals: its links are cut, those of the other clauses are not -/
theorem accepted_encoding_lowest :
    let clauses : List (List ℤ) := [[1, 2, -2147483648, 3], [3, -1], [5, -4, 6, 2147483647]]
    ∃ f, (∀ clause ∈ clauses, ∀ x ∈ clause, Signed x) ∧ ofClauses 2147483648 clauses = .ok f ∧
      (Signed (-2147483648) ∧ Admits 2147483648 (-2147483648) ∧ ¬ Faithful (-2147483648)) ∧
      (Signed 2147483647 ∧ Admits 2147483648 2147483647 ∧ Faithful 2147483647) ∧
      (∀ clause ∈ clauses, clause.length = 2 → lowest ∉ clause) ∧
      (Var.mk 1).Within 2147483648 ∧ (f.links ⟨1⟩).map Link.cut ≠ f.links ⟨1⟩ ∧
      (Var.mk 4).Within 2147483648 ∧ (Adjacency.ofFormula f).linksOf ⟨4⟩ = .ok (f.links ⟨4⟩) := by
  intro clauses
  have hsigned : ∀ clause ∈ clauses, ∀ x ∈ clause, Signed x := by decide
  have hshort : ∀ clause ∈ clauses, clause.length = 2 → lowest ∉ clause := by decide
  have hlow : Signed (-2147483648) ∧ Admits 2147483648 (-2147483648) := ⟨by decide, admits_iff.2 ⟨by decide, by decide⟩⟩
  have htop : Signed 2147483647 ∧ Admits 2147483648 2147483647 := ⟨by decide, admits_iff.2 ⟨by decide, by decide⟩⟩
  obtain ⟨f, hf⟩ : ∃ f, ofClauses 2147483648 clauses = .ok f := by
    refine exists_ofClauses fun clause hclause => ?_
    rcases List.mem_cons.1 hclause with rfl | hclause
    · exact ⟨_, rfl⟩
    · rcases List.mem_pair.1 hclause with rfl | rfl <;> exact ⟨_, rfl⟩
  obtain ⟨-, hnumbers, -, hlinks⟩ := accepted_encoding hsigned hf
  obtain ⟨-, -, -, -, hlost, -⟩ := hnumbers _ hlow.1 hlow.2
  obtain ⟨-, -, -, -, hkept, -⟩ := hnumbers _ htop.1 htop.2
  have h1 : (Var.mk 1).Within 2147483648 := ⟨by decide, by decide⟩
  have h4 : (Var.mk 4).Within 2147483648 := ⟨by decide, by decide⟩
  obtain ⟨-, hcut⟩ := hlinks hshort ⟨1⟩ h1
  obtain ⟨hread, hwhole⟩ := hlinks hshort ⟨4⟩ h4
  refine ⟨_, hsigned, hf, ⟨hlow.1, hlow.2, fun h => hlost.1 h rfl⟩, ⟨htop.1, htop.2, hkept.2 (by norm_num [lowest])⟩,
    hshort, h1, fun h => ?_, h4, ?_⟩
  · exact hcut.1 h [1, 2, -2147483648, 3] (by decide) (by decide) (by decide) (by decide)
  · rw [hread, hwhole.2 (by decide)]

end Formula

end ModelCount
