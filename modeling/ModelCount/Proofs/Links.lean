/-
The links of a formula that was built clause by clause.

`Built n log f`: clauses were added one by one to the empty formula over the variables 1 to `n`, and `f` is what
came of it; `log` holds the clauses that were accepted, each with the id it got. Only long clauses get ids.
Results:
- `Built.stores`, `Built.longsOf_eq`: the formula stores the clauses of the log, the long ones under their ids;
- `Built.nodup_partnersOf`: no literal has a partner twice, however often a binary clause is added;
- `links_round_trip`: the pool of the formula, read at a variable, gives the partners of its two literals, then its
  clauses of length three, then its longer clauses, each once and in the order of the ids.
-/
import Mathlib.Tactic
import ModelCount.Proofs.Adjacency

namespace ModelCount

namespace Formula

/-! ## Built formulas -/

/-- `f` is the empty formula after the clauses of the log were added. A refused clause gives no formula: it leaves
the one at hand as it is. -/
inductive Built (n : ℕ) : List (List ℤ × Option ClauseId) → Formula → Prop
  | empty : Built n [] (empty n)
  | add {log : List (List ℤ × Option ClauseId)} {f f' : Formula} {clause : List ℤ} {id : Option ClauseId} :
      Built n log f → f.addClause clause = .ok (f', id) → Built n (log ++ [(clause, id)]) f'

def litsOf (log : List (List ℤ × Option ClauseId)) : List (List Lit) := log.map fun entry => entry.1.map Lit.ofInt

def longsOf (log : List (List ℤ × Option ClauseId)) : List (ClauseId × List Lit) :=
  log.filterMap fun entry => entry.2.map fun id => (id, entry.1.map Lit.ofInt)

theorem litsOf_append_singleton (log : List (List ℤ × Option ClauseId)) (clause : List ℤ) (id : Option ClauseId) :
    litsOf (log ++ [(clause, id)]) = litsOf log ++ [clause.map Lit.ofInt] := by
  simp [litsOf]

theorem longsOf_append_singleton (log : List (List ℤ × Option ClauseId)) (clause : List ℤ) (id : Option ClauseId) :
    longsOf (log ++ [(clause, id)]) = longsOf log ++ (id.map fun id => (id, clause.map Lit.ofInt)).toList := by
  cases id <;> simp [longsOf]

/-- the numbers of the clauses grow -/
theorem pairwise_numbered (cls : List (List Lit)) : (numbered cls).Pairwise fun c d => c.1.id < d.1.id := by
  have hplaces : ((cls.zipIdx 1).map Prod.snd).Pairwise (· < ·) := by
    rw [List.zipIdx_map_snd]
    exact List.pairwise_lt_range'
  rw [numbered, List.pairwise_map]
  exact List.pairwise_map.1 hplaces

namespace Built

variable {n : ℕ} {log : List (List ℤ × Option ClauseId)} {f : Formula}

theorem stores (h : Built n log f) (hn : n < 2147483648) : f.numVars = n ∧ Stores f (litsOf log) := by
  induction h with
  | empty => exact ⟨rfl, stores_empty n⟩
  | add _ hadd ih =>
    obtain ⟨hnum, hf⟩ := ih
    rw [litsOf_append_singleton]
    exact ⟨(numVars_addClause hadd).trans hnum, stores_addClause hf (by rw [hnum]; exact hn) hadd⟩

/-- what one more clause does, in terms of its literals -/
theorem added (h : Built n log f) (hn : n < 2147483648) {clause : List ℤ} {id : Option ClauseId} {f' : Formula}
    (hadd : f.addClause clause = .ok (f', id)) :
    Stores f (litsOf log) ∧ ∃ lits, lits = clause.map Lit.ofInt ∧ Proper f.numVars lits ∧
      ((∃ a, lits = [a] ∧ f' = f.addUnit a ∧ id = none) ∨
        (∃ a b, lits = [a, b] ∧ f' = f.addBinary a b ∧ id = none) ∨
        (lits.length ≠ 1 ∧ lits.length ≠ 2 ∧ f' = (f.addLong lits).1 ∧ id = some ⟨f.offsets.size⟩)) := by
  obtain ⟨hnum, hf⟩ := h.stores hn
  obtain ⟨lits, hv, hcases⟩ := addClause_cases hadd
  obtain ⟨hl, hp⟩ := validate_eq (by rw [hnum]; exact hn) hv
  exact ⟨hf, lits, hl, hp, hcases⟩

/-- the ids that were handed out are the places of the clauses in the pool -/
theorem longsOf_eq (h : Built n log f) (hn : n < 2147483648) : longsOf log = numbered (longs (litsOf log)) := by
  induction h with
  | empty => rfl
  | @add log f f' clause id h hadd ih =>
    obtain ⟨hf, lits, hl, hp, hcases⟩ := h.added hn hadd
    rw [longsOf_append_singleton, litsOf_append_singleton, ih, ← hl]
    obtain ⟨a, rfl, -, rfl⟩ | ⟨a, b, rfl, -, rfl⟩ | ⟨h1, h2, -, rfl⟩ := hcases
    · simp [longs]
    · simp [longs]
    · have hlongs : longs (litsOf log ++ [lits]) = longs (litsOf log) ++ [lits] := by
        simp [longs, three_le_of_ne hp.nonempty h1 h2]
      have hsize : f.offsets.size = (longs (litsOf log)).length + 1 := by
        rw [← Array.length_toList, hf.offsets, List.length_cons, length_offsetsFrom]
      rw [hlongs, numbered_append_singleton, ← hsize]
      rfl

/-- exactly the clauses of three or more literals get an id -/
theorem isSome_id (h : Built n log f) (hn : n < 2147483648) :
    ∀ entry ∈ log, entry.2.isSome = true ↔ 3 ≤ entry.1.length := by
  induction h with
  | empty => simp
  | @add log f f' clause id h hadd ih =>
    obtain ⟨-, lits, hl, hp, hcases⟩ := h.added hn hadd
    have hlen : lits.length = clause.length := by rw [hl, List.length_map]
    intro entry hentry
    rcases List.mem_append.1 hentry with hold | hnew
    · exact ih entry hold
    · rw [List.mem_singleton.1 hnew]
      simp only [← hlen]
      obtain ⟨a, rfl, -, rfl⟩ | ⟨a, b, rfl, -, rfl⟩ | ⟨h1, h2, -, rfl⟩ := hcases
      · simp
      · simp
      · simp [three_le_of_ne hp.nonempty h1 h2]

/-- no literal has a partner twice -/
theorem nodup_partnersOf (h : Built n log f) (hn : n < 2147483648) (x : Lit) : (f.partnersOf x).Nodup := by
  induction h with
  | empty =>
    simp only [partnersOf, Formula.empty, Array.getElem?_replicate]
    split_ifs <;> simp
  | @add log f f' clause id h hadd ih =>
    obtain ⟨hf, lits, -, hp, hcases⟩ := h.added hn hadd
    obtain ⟨a, rfl, rfl, -⟩ | ⟨a, b, rfl, rfl, -⟩ | ⟨-, -, rfl, -⟩ := hcases
    · have hsame : (f.addUnit a).partnersOf x = f.partnersOf x := by
        unfold addUnit
        split_ifs <;> rfl
      rw [hsame]
      exact ih
    · by_cases hb : b ∈ f.partnersOf a
      · rw [addBinary, if_pos (by simpa using hb)]
        exact ih
      · have ha : a ∉ f.partnersOf b := mt hf.mem_partnersOf_comm.1 hb
        rw [hf.partnersOf_addBinary hp hb]
        refine ih.append (by split_ifs <;> simp) ?_
        split_ifs with hxa hxb
        · simpa [hxa] using hb
        · simpa [hxb] using ha
        · simp
    · exact ih

theorem mem_partnersOf (h : Built n log f) (hn : n < 2147483648) (a b : Lit) :
    b ∈ f.partnersOf a ↔ [a, b] ∈ litsOf log ∨ [b, a] ∈ litsOf log :=
  (h.stores hn).2.partners a b

end Built

end Formula

/-! ## Reading the links of a built formula -/

/-- the clause of a link; a binary link has none -/
def Link.clause? : Link → Option ClauseId
  | .binary _ => none
  | .ternary c _ _ => some c
  | .long c _ => some c

namespace Adjacency

open Formula

def occursIn (log : List (List ℤ × Option ClauseId)) (v : Var) : List (ClauseId × List Lit) :=
  (longsOf log).filter fun c => v ∈ c.2.map Lit.var

section Sections

variable {n : ℕ} {log : List (List ℤ × Option ClauseId)} {f : Formula} {v : Var}

theorem occursIn_eq (hn : n < 2147483648) (h : Built n log f) : occursIn log v = f.occurrencesOf v := by
  rw [occursIn, h.longsOf_eq hn, ← (h.stores hn).2.longClauses_eq, occurrencesOf]
  refine List.filter_congr fun c _ => ?_
  rw [Bool.eq_iff_iff]
  simp [List.any_eq_true]

/-- a clause with the variable has one literal more than it has other literals -/
theorem length_othersOf_occursIn (hn : n < 2147483648) (h : Built n log f) :
    ∀ c ∈ occursIn log v, (othersOf v c.2).length + 1 = c.2.length := by
  intro c hc
  rw [occursIn_eq hn h] at hc
  obtain ⟨-, hm, hv⟩ := of_mem_occurrencesOf (h.stores hn).2.files hc
  exact length_othersOf ((h.stores hn).2.proper _ hm).nodup hv

theorem three_le_of_occursIn (hn : n < 2147483648) (h : Built n log f) :
    ∀ c ∈ occursIn log v, 3 ≤ c.2.length := by
  intro c hc
  rw [occursIn_eq hn h] at hc
  have hmem := List.mem_map_of_mem (f := Prod.snd) (List.mem_filter.1 hc).1
  exact ((h.stores hn).2.mem_snd_longClauses.1 hmem).2

end Sections

/-- the ternary links, one for each clause of length three -/
theorem forall₂_ternaryLink {v : Var} {occurs : List (ClauseId × List Lit)}
    (h : ∀ c ∈ occurs, (othersOf v c.2).length + 1 = c.2.length) :
    List.Forall₂ (fun c link => ∃ a b, othersOf v c.2 = [a, b] ∧ link = .ternary c.1 a b)
      (occurs.filter fun c => c.2.length = 3) (occurs.filterMap (ternaryLink v)) := by
  induction occurs with
  | nil => exact .nil
  | cons c occurs ih =>
    have ih' := ih fun d hd => h d (List.mem_cons_of_mem _ hd)
    have hc := h c (by simp)
    by_cases h3 : c.2.length = 3
    · obtain ⟨a, b, hab⟩ := List.length_eq_two.1 (show (othersOf v c.2).length = 2 by omega)
      have ht : ternaryLink v c = some (.ternary c.1 a b) := by simp [ternaryLink, h3, hab]
      rw [List.filter_cons_of_pos (by simpa using h3), List.filterMap_cons_some ht]
      exact .cons ⟨a, b, hab, rfl⟩ ih'
    · have ht : ternaryLink v c = none := by simp [ternaryLink, h3]
      rw [List.filter_cons_of_neg (by simpa using h3), List.filterMap_cons_none ht]
      exact ih'

theorem clause?_of_forall₂ {v : Var} {occurs : List (ClauseId × List Lit)} {links : List Link}
    (h : List.Forall₂ (fun c link => ∃ a b, othersOf v c.2 = [a, b] ∧ link = .ternary c.1 a b) occurs links) :
    links.filterMap Link.clause? = occurs.map Prod.fst := by
  induction h with
  | nil => rfl
  | cons hlink _ ih =>
    obtain ⟨a, b, -, rfl⟩ := hlink
    simp [Link.clause?, ih]

/-- **Round trip.** The pool of a formula built clause by clause, read at a variable, ends without leaving the pool
and gives: a binary link for each partner of the negative and then of the positive literal; a ternary link for each
clause of length three with the variable; a long link for each longer clause with it. The clauses come in the order
of their ids, each with its other literals in clause order. The clauses of the links are those in which the variable
occurs, each once; the partners are the other literals of the binary clauses that were added, each once. -/
theorem links_round_trip {n : ℕ} (hn : n < 2147483648) {log : List (List ℤ × Option ClauseId)} {f : Formula}
    (hf : Built n log f) {v : Var} (hv : v.Within n) :
    ∃ ternary long : List Link,
      let links := (f.partnersOf v.neg ++ f.partnersOf v.pos).map (fun l => Link.binary l.var) ++ (ternary ++ long)
      (ofFormula f).linksOf v = .ok links ∧
      List.Forall₂ (fun c link => ∃ a b, othersOf v c.2 = [a, b] ∧ link = .ternary c.1 a b)
        ((occursIn log v).filter fun c => c.2.length = 3) ternary ∧
      long = ((occursIn log v).filter fun c => 4 ≤ c.2.length).map (fun c => .long c.1 (othersOf v c.2)) ∧
      (links.filterMap Link.clause?).Perm ((occursIn log v).map Prod.fst) ∧
      ((occursIn log v).Pairwise fun c d => c.1.id < d.1.id) ∧
      (∀ entry ∈ log, entry.2.isSome = true ↔ 3 ≤ entry.1.length) ∧
      ∀ a : Lit, (f.partnersOf a).Nodup ∧ ∀ b, b ∈ f.partnersOf a ↔ [a, b] ∈ litsOf log ∨ [b, a] ∈ litsOf log := by
  obtain ⟨hnum, hstores⟩ := hf.stores hn
  have hlen := length_othersOf_occursIn (v := v) hn hf
  have hternary := forall₂_ternaryLink hlen
  have hread := linksOf_ofFormula hstores (v := v) (by rw [hnum]; exact hv)
  have hfour : (occursIn log v).filter (fun c => 4 ≤ c.2.length) =
      (occursIn log v).filter fun c => !decide (c.2.length = 3) := by
    refine List.filter_congr fun c hc => ?_
    have h3 := three_le_of_occursIn hn hf c hc
    rw [Bool.eq_iff_iff]
    simp only [decide_eq_true_iff, Bool.not_eq_true', decide_eq_false_iff_not]
    omega
  refine ⟨(occursIn log v).filterMap (ternaryLink v), _, ?_, hternary, rfl, ?_, ?_, hf.isSome_id hn, fun a =>
    ⟨hf.nodup_partnersOf hn a, hf.mem_partnersOf hn a⟩⟩
  · rw [hread, links, ← occursIn_eq hn hf, hfour]
    rfl
  · have hbinary : ((f.partnersOf v.neg ++ f.partnersOf v.pos).map fun l => Link.binary l.var).filterMap
        Link.clause? = [] := by
      simp [List.filterMap_eq_nil_iff, Link.clause?]
    have hlong : ∀ cs : List (ClauseId × List Lit),
        (cs.map fun c => Link.long c.1 (othersOf v c.2)).filterMap Link.clause? = cs.map Prod.fst := by
      intro cs
      rw [List.filterMap_map]
      exact congrFun List.filterMap_eq_map cs
    rw [List.filterMap_append, List.filterMap_append, hbinary, clause?_of_forall₂ hternary, hlong, hfour,
      List.nil_append, ← List.map_append]
    exact (List.filter_append_perm _ _).map _
  · refine List.Pairwise.filter _ ?_
    rw [hf.longsOf_eq hn]
    exact pairwise_numbered _

/-- two binary clauses, one clause of length three and two longer ones, all with the variable 1; `[3, -1]` is known
and adds nothing, `[2, 3, 5]` does not contain 1 -/
theorem links_round_trip_sections :
    ∃ f links, Built 6 [([1, -2], none), ([-1, 3], none), ([1, 4, -5], some ⟨1⟩), ([3, -1], none),
        ([2, -1, 5, 6], some ⟨2⟩), ([2, 3, 5], some ⟨3⟩), ([-6, 1, 3, 4, 2], some ⟨4⟩)] f ∧
      (ofFormula f).linksOf ⟨1⟩ = .ok links ∧ (links.filterMap Link.clause?).Perm [⟨1⟩, ⟨2⟩, ⟨4⟩] := by
  have hbuilt := Built.empty (n := 6) |>.add (rfl : addClause _ [1, -2] = .ok (_, _))
    |>.add (rfl : addClause _ [-1, 3] = .ok (_, _)) |>.add (rfl : addClause _ [1, 4, -5] = .ok (_, _))
    |>.add (rfl : addClause _ [3, -1] = .ok (_, _)) |>.add (rfl : addClause _ [2, -1, 5, 6] = .ok (_, _))
    |>.add (rfl : addClause _ [2, 3, 5] = .ok (_, _)) |>.add (rfl : addClause _ [-6, 1, 3, 4, 2] = .ok (_, _))
  obtain ⟨ternary, long, hread, -, -, hperm, -⟩ :=
    links_round_trip (by decide) hbuilt (v := ⟨1⟩) ⟨by decide, by decide⟩
  exact ⟨_, _, hbuilt, hread, hperm.trans (by decide)⟩

end Adjacency

end ModelCount
