/-
Reading the adjacency pool back.

`Formula.links f v` is what a variable is connected to, said on the formula: the partners of its two literals,
then its clauses of length three, then its longer clauses, each without the literal of `v`. Results:
- `linksOf_cut`: the pool of a formula read at `v` gives these links, but of a longer clause only the literals up to
  the first that equals the sentinel;
- `linksOf_ofFormula`: with variables below 2^31 nothing is cut, and the pool gives exactly these links.
-/
import Mathlib.Tactic
import Mathlib.Data.List.TakeWhile
import ModelCount.Adjacency
import ModelCount.Proofs.Outcome
import ModelCount.Proofs.Formula

namespace ModelCount

/-! ## Links, said on the formula -/

namespace Formula

def occurrencesOf (f : Formula) (v : Var) : List (ClauseId × List Lit) :=
  f.longClauses.filter fun c => c.2.any fun l => l.var == v

def othersOf (v : Var) (lits : List Lit) : List Lit := lits.filter fun l => l.var != v

def ternaryLink (v : Var) (c : ClauseId × List Lit) : Option Link :=
  if c.2.length = 3 then
    match othersOf v c.2 with
    | [a, b] => some (.ternary c.1 a b)
    | _ => none
  else none

/-- what a variable is connected to -/
def links (f : Formula) (v : Var) : List Link :=
  (f.partnersOf v.neg ++ f.partnersOf v.pos).map (fun l => .binary l.var) ++
    ((f.occurrencesOf v).filterMap (ternaryLink v) ++
      ((f.occurrencesOf v).filter fun c => c.2.length != 3).map fun c => .long c.1 (othersOf v c.2))

end Formula

/-- the link as far as a reader gets that stops at the sentinel -/
def Link.cut : Link → Link
  | .long c lits => .long c (lits.takeWhile fun l => !l.isSentinel)
  | link => link

namespace Adjacency

open Formula

/-! ## Reading sections -/

theorem getElem_of_drop {words : Array ℕ} {pos w : ℕ} {rest : List ℕ} (h : words.toList.drop pos = w :: rest) :
    ∃ hpos : pos < words.size, words[pos] = w ∧ words.toList.drop (pos + 1) = rest := by
  have hlt : pos < words.toList.length := by
    by_contra hge
    rw [List.drop_eq_nil_of_le (by omega)] at h
    cases h
  rw [List.drop_eq_getElem_cons hlt] at h
  have hlt' : pos < words.size := by simpa using hlt
  injection h with h1 h2
  exact ⟨hlt', by simpa using h1, h2⟩

theorem wordAt_of_drop {words : Array ℕ} {pos w : ℕ} {rest : List ℕ} (h : words.toList.drop pos = w :: rest) :
    wordAt words pos = .ok w := by
  obtain ⟨hpos, hw, -⟩ := getElem_of_drop h
  rw [wordAt, Array.getElem?_eq_getElem hpos, hw]

/-- words are read up to the first 0, be it the end or one of them -/
theorem wordsFrom_cut {words : Array ℕ} {ws rest : List ℕ} {pos : ℕ}
    (h : words.toList.drop pos = ws ++ 0 :: rest) : wordsFrom words pos = .ok (ws.takeWhile (· != 0)) := by
  induction ws generalizing pos with
  | nil =>
    obtain ⟨hpos, hw, -⟩ := getElem_of_drop h
    rw [wordsFrom, dif_pos hpos, if_pos hw, List.takeWhile_nil]
  | cons w ws ih =>
    obtain ⟨hpos, hw, hrest⟩ := getElem_of_drop h
    by_cases h0 : w = 0
    · rw [wordsFrom, dif_pos hpos, if_pos (hw.trans h0), List.takeWhile_cons_of_neg (by simpa using h0)]
    · rw [wordsFrom, dif_pos hpos, if_neg (by rw [hw]; exact h0), ih hrest, hw,
        List.takeWhile_cons_of_pos (by simpa using h0)]
      rfl

theorem wordsFrom_eq {words : Array ℕ} {ws rest : List ℕ} {pos : ℕ}
    (h : words.toList.drop pos = ws ++ 0 :: rest) (hz : ∀ w ∈ ws, w ≠ 0) : wordsFrom words pos = .ok ws := by
  rw [wordsFrom_cut h, List.takeWhile_eq_self_iff.2 (by simpa using hz)]

theorem length_longSection (before : ℕ) (runs : List (ClauseId × List ℕ)) :
    (longSection before runs).length = 2 * runs.length := by
  induction runs generalizing before with
  | nil => rfl
  | cons r runs ih =>
    simp only [longSection, List.length_cons, ih]
    omega

/-- the literals of a run start `before` words after the end of the pairs that are still to be read -/
theorem readLong_eq {words : Array ℕ} {runs : List (ClauseId × List ℕ)} {pos : ℕ} {pre rest : List ℕ}
    (h : words.toList.drop pos =
      longSection pre.length runs ++ 0 :: (pre ++ ((runs.flatMap fun r => r.2 ++ [0]) ++ rest)))
    (hid : ∀ r ∈ runs, r.1.id ≠ 0) :
    readLong words pos = .ok (runs.map fun r => .long r.1 ((r.2.takeWhile (· != 0)).map Lit.mk)) := by
  induction runs generalizing pos pre with
  | nil =>
    obtain ⟨hpos, hw, -⟩ := getElem_of_drop h
    rw [readLong, dif_pos hpos, if_pos hw]
    rfl
  | cons r runs ih =>
    obtain ⟨c, lits⟩ := r
    simp only [longSection, List.cons_append, List.flatMap_cons, List.append_assoc] at h
    obtain ⟨hpos, hw, h1⟩ := getElem_of_drop h
    obtain ⟨-, -, h2⟩ := getElem_of_drop h1
    have hlen := length_longSection (pre.length + lits.length + 1) runs
    have hlits : words.toList.drop (pos + 1 + (pre.length + 2 * (runs.length + 1))) =
        lits ++ 0 :: ((runs.flatMap fun r => r.2 ++ [0]) ++ rest) := by
      have e : pos + 1 + (pre.length + 2 * (runs.length + 1)) =
          pos + 1 + 1 + ((longSection (pre.length + lits.length + 1) runs ++ 0 :: pre).length) := by
        simp only [List.length_append, List.length_cons, hlen]
        omega
      rw [e, ← List.drop_drop, h2]
      have e2 : ∀ tail, longSection (pre.length + lits.length + 1) runs ++ 0 :: (pre ++ tail) =
          (longSection (pre.length + lits.length + 1) runs ++ 0 :: pre) ++ tail := by simp
      rw [e2, List.drop_left, List.nil_append]
    have hrest := @ih (pos + 1 + 1) (pre ++ (lits ++ [0]))
      (by rw [h2]; simp [Nat.add_assoc])
      (fun r hr => hid r (List.mem_cons_of_mem _ hr))
    rw [readLong, dif_pos hpos, if_neg (by rw [hw]; exact hid (c, lits) (by simp)), wordAt_of_drop h1,
      Except.ok_bind, wordsFrom_cut hlits, Except.ok_bind, hrest, hw]
    rfl

theorem readTernary_eq {words : Array ℕ} {triples : List (ClauseId × ℕ × ℕ)} {pos : ℕ} {rest : List ℕ}
    (h : words.toList.drop pos = (triples.flatMap fun t => [t.1.id, t.2.1, t.2.2]) ++ 0 :: rest)
    (hid : ∀ t ∈ triples, t.1.id ≠ 0) {links : List Link}
    (hlong : readLong words (pos + 3 * triples.length + 1) = .ok links) :
    readTernary words pos = .ok (triples.map (fun t => .ternary t.1 ⟨t.2.1⟩ ⟨t.2.2⟩) ++ links) := by
  induction triples generalizing pos with
  | nil =>
    obtain ⟨hpos, hw, -⟩ := getElem_of_drop h
    rw [readTernary, dif_pos hpos, if_pos hw]
    exact hlong
  | cons t triples ih =>
    obtain ⟨c, a, b⟩ := t
    simp only [List.flatMap_cons, List.cons_append, List.nil_append] at h
    obtain ⟨hpos, hw, h1⟩ := getElem_of_drop h
    obtain ⟨-, -, h2⟩ := getElem_of_drop h1
    obtain ⟨-, -, h3⟩ := getElem_of_drop h2
    have hrest := ih h3 (fun t ht => hid t (List.mem_cons_of_mem _ ht))
      (by rw [← hlong]; congr 1; simp only [List.length_cons]; omega)
    rw [readTernary, dif_pos hpos, if_neg (by rw [hw]; exact hid (c, a, b) (by simp)), wordAt_of_drop h1,
      Except.ok_bind, wordAt_of_drop h2, Except.ok_bind, hrest, hw]
    rfl

/-! ## The run of a variable -/

theorem length_othersOf {v : Var} {lits : List Lit} (hd : (lits.map Lit.var).Nodup) (hv : v ∈ lits.map Lit.var) :
    (othersOf v lits).length + 1 = lits.length := by
  have h1 : (lits.filter fun l => l.var == v).length = 1 := by
    rw [← List.countP_eq_length_filter]
    have := List.count_eq_one_of_mem hd hv
    rwa [List.count, List.countP_map] at this
  have h2 := List.length_eq_length_filter_add (l := lits) (fun l => l.var == v)
  rw [h1] at h2
  have h3 : (othersOf v lits) = lits.filter fun l => !(l.var == v) := rfl
  rw [h3, h2, Nat.add_comm]

def tripleOf (v : Var) (c : ClauseId × List Lit) : Option (ClauseId × ℕ × ℕ) :=
  if c.2.length = 3 then
    match othersOf v c.2 with
    | [a, b] => some (c.1, a.raw, b.raw)
    | _ => none
  else none

theorem ternarySection_eq {v : Var} {occurs : List (ClauseId × List Lit)}
    (h : ∀ c ∈ occurs, (othersOf v c.2).length + 1 = c.2.length) :
    ternarySection v occurs = (occurs.filterMap (tripleOf v)).flatMap fun t => [t.1.id, t.2.1, t.2.2] := by
  induction occurs with
  | nil => rfl
  | cons c occurs ih =>
    have ih' := ih fun d hd => h d (List.mem_cons_of_mem _ hd)
    have hc := h c (by simp)
    simp only [ternarySection, List.flatMap_cons] at ih' ⊢
    rw [ih']
    by_cases h3 : c.2.length = 3
    · obtain ⟨a, b, hab⟩ := List.length_eq_two.1 (show (othersOf v c.2).length = 2 by omega)
      have hw : others v c.2 = [a.raw, b.raw] := by
        show (othersOf v c.2).map Lit.raw = _
        rw [hab]; rfl
      have ht : tripleOf v c = some (c.1, a.raw, b.raw) := by
        simp [tripleOf, h3, hab]
      rw [if_pos h3, hw, List.filterMap_cons_some ht]
      rfl
    · have ht : tripleOf v c = none := by simp [tripleOf, h3]
      rw [if_neg h3, List.filterMap_cons_none ht]
      rfl

theorem map_tripleOf (v : Var) (occurs : List (ClauseId × List Lit)) :
    (occurs.filterMap (tripleOf v)).map (fun t => Link.ternary t.1 ⟨t.2.1⟩ ⟨t.2.2⟩) =
      occurs.filterMap (ternaryLink v) := by
  rw [List.map_filterMap]
  congr 1
  funext c
  unfold tripleOf ternaryLink
  split_ifs
  · split <;> rfl
  · rfl

theorem of_mem_occurrencesOf {f : Formula} {cls : List (List Lit)} (hf : Files f cls) {v : Var}
    {c : ClauseId × List Lit} (hc : c ∈ f.occurrencesOf v) : 1 ≤ c.1.id ∧ c.2 ∈ cls ∧ v ∈ c.2.map Lit.var := by
  obtain ⟨hm, hany⟩ := List.mem_filter.1 hc
  obtain ⟨l, hl, hlv⟩ := List.any_eq_true.1 hany
  obtain ⟨hid, hcls⟩ := hf.of_mem_longClauses hm
  exact ⟨hid, hcls, List.mem_map.2 ⟨l, hl, by simpa using hlv⟩⟩

/-! The words of a run that end a section when they are zero. -/

section NonZero

variable {f : Formula} {cls : List (List Lit)} {v : Var}

theorem partner_ne_zero (hf : Stores f cls) :
    ∀ l ∈ f.partnersOf v.neg ++ f.partnersOf v.pos, l.var.id ≠ 0 := by
  intro l hl
  have hl' : l.var.Within f.numVars := by
    rcases List.mem_append.1 hl with hl | hl
    · exact (hf.partners_within hl).2.1
    · exact (hf.partners_within hl).2.1
  exact Nat.ne_of_gt hl'.1

theorem tripleOf_id_ne_zero (hf : Files f cls) :
    ∀ t ∈ (f.occurrencesOf v).filterMap (tripleOf v), t.1.id ≠ 0 := by
  intro t ht
  obtain ⟨c, hc, htc⟩ := List.mem_filterMap.1 ht
  have hcid : c.1.id ≠ 0 := Nat.ne_of_gt (of_mem_occurrencesOf hf hc).1
  unfold tripleOf at htc
  split_ifs at htc
  split at htc
  · cases htc; exact hcid
  · cases htc

theorem longRuns_id_ne_zero (hf : Files f cls) : ∀ r ∈ longRuns v (f.occurrencesOf v), r.1.id ≠ 0 := by
  intro r hr
  obtain ⟨c, hc, rfl⟩ := List.mem_map.1 hr
  exact Nat.ne_of_gt (of_mem_occurrencesOf hf (List.mem_filter.1 hc).1).1

end NonZero

/-! Cutting reaches the links of longer clauses alone. -/

section Cut

variable {f : Formula} {v : Var}

theorem takeWhile_others (v : Var) (lits : List Lit) :
    ((others v lits).takeWhile (· != 0)).map Lit.mk = (othersOf v lits).takeWhile fun l => !l.isSentinel := by
  rw [others, List.takeWhile_map, List.map_map]
  exact List.map_id'' (fun _ => rfl) _

theorem cut_ternaryLink {c : ClauseId × List Lit} {link : Link} (h : ternaryLink v c = some link) :
    link.cut = link := by
  unfold ternaryLink at h
  split_ifs at h
  split at h
  · cases h; rfl
  · cases h

theorem cut_links :
    (f.links v).map Link.cut =
      (f.partnersOf v.neg ++ f.partnersOf v.pos).map (fun l => .binary l.var) ++
        ((f.occurrencesOf v).filterMap (ternaryLink v) ++
          ((f.occurrencesOf v).filter fun c => c.2.length != 3).map fun c => (Link.long c.1 (othersOf v c.2)).cut) := by
  have hternary : ((f.occurrencesOf v).filterMap (ternaryLink v)).map Link.cut =
      (f.occurrencesOf v).filterMap (ternaryLink v) := by
    refine (List.map_congr_left fun link hlink => ?_).trans (List.map_id _)
    obtain ⟨c, -, hc⟩ := List.mem_filterMap.1 hlink
    exact cut_ternaryLink hc
  simp only [links, List.map_append, List.map_map, hternary]
  rfl

/-- the links stay as they are exactly if no other literal of a longer clause is the sentinel -/
theorem cut_links_eq_self_iff :
    (f.links v).map Link.cut = f.links v ↔
      ∀ c ∈ f.occurrencesOf v, c.2.length ≠ 3 → ∀ l ∈ othersOf v c.2, l.isSentinel = false := by
  rw [cut_links, links, List.append_cancel_left_eq, List.append_cancel_left_eq, List.map_inj_left]
  simp only [List.mem_filter, bne_iff_ne, and_imp, Link.cut, Link.long.injEq, true_and, List.takeWhile_eq_self_iff,
    Bool.not_eq_true']

end Cut

/-- a run is read back as the links of its variable, the longer clauses cut -/
theorem readRun_eq {f : Formula} {cls : List (List Lit)} (hf : Files f cls) {words : Array ℕ} {v : Var} {pos : ℕ}
    (hb : ∀ l ∈ f.partnersOf v.neg ++ f.partnersOf v.pos, l.var.id ≠ 0) {rest : List ℕ}
    (h : words.toList.drop pos = runOf f v (f.occurrencesOf v) ++ rest) :
    readRun words pos = .ok ((f.links v).map Link.cut) := by
  have hlen : ∀ c ∈ f.occurrencesOf v, (othersOf v c.2).length + 1 = c.2.length := by
    intro c hc
    obtain ⟨-, hm, hv⟩ := of_mem_occurrencesOf hf hc
    exact length_othersOf (hf.nodup _ hm) hv
  simp only [runOf, List.append_assoc, List.cons_append] at h
  set partners := f.partnersOf v.neg ++ f.partnersOf v.pos with hpartners
  have hvars := wordsFrom_eq h (by simpa only [List.forall_mem_map] using hb)
  have hnext : words.toList.drop (pos + (partners.map fun l => l.var.id).length + 1) =
      ternarySection v (f.occurrencesOf v) ++
        0 :: (longSection 0 (longRuns v (f.occurrencesOf v)) ++
          0 :: ((longRuns v (f.occurrencesOf v)).flatMap (fun r => r.2 ++ [0]) ++ rest)) := by
    rw [Nat.add_assoc, ← List.drop_drop, h, ← List.drop_drop, List.drop_left]
    simp
  rw [ternarySection_eq hlen] at hnext
  have hsecond : words.toList.drop (pos + (partners.map fun l => l.var.id).length + 1 +
        3 * ((f.occurrencesOf v).filterMap (tripleOf v)).length + 1) =
      longSection 0 (longRuns v (f.occurrencesOf v)) ++
        0 :: ([] ++ ((longRuns v (f.occurrencesOf v)).flatMap (fun r => r.2 ++ [0]) ++ rest)) := by
    have hl : (((f.occurrencesOf v).filterMap (tripleOf v)).flatMap fun t => [t.1.id, t.2.1, t.2.2]).length =
        3 * ((f.occurrencesOf v).filterMap (tripleOf v)).length := by
      simp [List.length_flatMap, Nat.mul_comm]
    rw [Nat.add_assoc, ← List.drop_drop, hnext, ← hl, ← List.drop_drop, List.drop_left]
    simp
  have hlong := @readLong_eq _ _ _ [] _ hsecond (longRuns_id_ne_zero hf)
  have htern := readTernary_eq hnext (tripleOf_id_ne_zero hf) hlong
  rw [readRun, hvars, Except.ok_bind, htern, Except.ok_bind, map_tripleOf, cut_links, ← hpartners]
  simp only [Except.pure_eq, Except.ok.injEq, List.map_map]
  have hbinary : partners.map (fun l => Link.binary l.var) =
      partners.map ((fun w => Link.binary ⟨w⟩) ∘ fun l => l.var.id) := rfl
  rw [hbinary]
  congr 2
  simp only [longRuns, List.map_map]
  refine List.map_congr_left fun c hc => ?_
  simp only [Function.comp_apply, takeWhile_others, Link.cut]

/-! ## The pool of a formula -/

theorem foldl_occurrence {n : ℕ} {c : ClauseId × List Lit} {lits : List Lit}
    {table : Array (List (ClauseId × List Lit))} (ht : table.size = n + 1) (hd : (lits.map Lit.var).Nodup) :
    (lits.foldl (fun table lit => table.modify lit.var.index (c :: ·)) table).size = n + 1 ∧
      ∀ v : Var, v.Within n →
        (lits.foldl (fun table lit => table.modify lit.var.index (c :: ·)) table)[v.id]?.getD [] =
          if v ∈ lits.map Lit.var then c :: table[v.id]?.getD [] else table[v.id]?.getD [] := by
  induction lits generalizing table with
  | nil => exact ⟨ht, fun v _ => by simp⟩
  | cons l lits ih =>
    simp only [List.map_cons, List.nodup_cons] at hd
    obtain ⟨h1, h2⟩ := @ih (table.modify l.var.index (c :: ·)) (by simpa using ht) hd.2
    refine ⟨h1, fun v hv => ?_⟩
    rw [List.foldl_cons, h2 v hv, Array.getElem?_modify]
    by_cases hvl : v = l.var
    · subst hvl
      have hlt : l.var.id < table.size := by rw [ht]; have := hv.2; omega
      simp [hd.1, Var.index, hlt]
    · have hne : l.var.index ≠ v.id := fun e => hvl (by cases v; cases h : l.var; simp_all [Var.index])
      simp [hvl, hne]

theorem getD_occurrences {n : ℕ} {L : List (ClauseId × List Lit)} (hL : ∀ c ∈ L, (c.2.map Lit.var).Nodup) :
    (L.foldr (fun clause table =>
        clause.2.foldl (fun table lit => table.modify lit.var.index (clause :: ·)) table)
      (Array.replicate (n + 1) [])).size = n + 1 ∧
    ∀ v : Var, v.Within n →
      (L.foldr (fun clause table =>
          clause.2.foldl (fun table lit => table.modify lit.var.index (clause :: ·)) table)
        (Array.replicate (n + 1) []))[v.id]?.getD [] = L.filter fun c => c.2.any fun l => l.var == v := by
  induction L with
  | nil =>
    refine ⟨by simp, fun v hv => ?_⟩
    have := hv.2
    simp [show v.id < n + 1 by omega]
  | cons c L ih =>
    obtain ⟨h1, h2⟩ := ih fun d hd => hL d (List.mem_cons_of_mem _ hd)
    obtain ⟨h3, h4⟩ := foldl_occurrence (c := c) h1 (hL c (by simp))
    refine ⟨h3, fun v hv => ?_⟩
    rw [List.foldr_cons, h4 v hv, h2 v hv, List.filter_cons]
    have : (c.2.any fun l => l.var == v) = true ↔ v ∈ c.2.map Lit.var := by
      simp [List.any_eq_true, List.mem_map]
    by_cases hv' : v ∈ c.2.map Lit.var
    · rw [if_pos hv', if_pos (this.2 hv')]
    · rw [if_neg hv', if_neg (mt this.1 hv')]

theorem occurrences_eq {f : Formula} {cls : List (List Lit)} (hf : Files f cls) {v : Var}
    (hv : v.Within f.numVars) : (occurrences f)[v.id]?.getD [] = f.occurrencesOf v :=
  (getD_occurrences fun _ hc => hf.nodup _ (hf.of_mem_longClauses hc).2).2 v hv

/-- after `k` variables, each of them has its run in the pool -/
theorem runs_of_foldl (f : Formula) (occurs : Array (List (ClauseId × List Lit))) (k : ℕ) :
    let a := (List.range k).foldl (fun a i => addRun f a ⟨i + 1⟩ (occurs[i + 1]?.getD []))
      { words := #[0, 0], starts := #[0] }
    a.starts.size = k + 1 ∧ ∀ v : Var, v.Within k →
      ∃ start rest, a.starts[v.id]? = some start ∧
        a.words.toList.drop start = runOf f v (occurs[v.id]?.getD []) ++ rest := by
  induction k with
  | zero => exact ⟨rfl, fun v hv => by have := hv.1; have := hv.2; omega⟩
  | succ k ih =>
    obtain ⟨hsize, hruns⟩ := ih
    simp only [List.range_succ, List.foldl_append, List.foldl_cons, List.foldl_nil]
    set a := (List.range k).foldl (fun a i => addRun f a ⟨i + 1⟩ (occurs[i + 1]?.getD []))
      { words := #[0, 0], starts := #[0] }
    refine ⟨by simp [addRun, hsize], fun v hv => ?_⟩
    by_cases hk : v.id = k + 1
    · have hv' : v = ⟨k + 1⟩ := by cases v; simp_all
      subst hv'
      refine ⟨a.words.size, [], ?_, ?_⟩
      · simp only [addRun]
        rw [← hsize, Array.getElem?_push_size]
      · simp [addRun]
    · obtain ⟨start, rest, h1, h2⟩ := hruns v ⟨hv.1, by have := hv.2; omega⟩
      have hlt : v.id < a.starts.size := by
        by_contra hge
        rw [Array.getElem?_eq_none (by omega)] at h1
        cases h1
      have hstart : start ≤ a.words.toList.length := by
        by_contra hge
        rw [List.drop_eq_nil_of_le (by omega)] at h2
        simp [runOf] at h2
      refine ⟨start, rest ++ runOf f ⟨k + 1⟩ (occurs[k + 1]?.getD []), ?_, ?_⟩
      · simp only [addRun]
        rw [Array.getElem?_push_lt hlt, ← h1, Array.getElem?_eq_getElem hlt]
      · simp only [addRun, Array.toList_appendList]
        rw [List.drop_append_of_le_length hstart, h2, List.append_assoc]

/-- The pool of a formula, read at a variable with no partner that equals the sentinel, gives the links of the variable,
the longer clauses cut. -/
theorem linksOf_cut {f : Formula} {cls : List (List Lit)} (hf : Files f cls) {v : Var} (hv : v.Within f.numVars)
    (hb : ∀ l ∈ f.partnersOf v.neg ++ f.partnersOf v.pos, l.var.id ≠ 0) :
    (ofFormula f).linksOf v = .ok ((f.links v).map Link.cut) := by
  obtain ⟨-, hruns⟩ := runs_of_foldl f (occurrences f) f.numVars
  obtain ⟨start, rest, h1, h2⟩ := hruns v hv
  rw [occurrences_eq hf hv] at h2
  have hstart : (ofFormula f).starts[v.index]? = some start := h1
  rw [linksOf, hstart]
  exact readRun_eq hf hb h2

/-- **Round trip.** The pool of a formula, read at a variable, gives the links of the variable. -/
theorem linksOf_ofFormula {f : Formula} {cls : List (List Lit)} (hf : Stores f cls) {v : Var}
    (hv : v.Within f.numVars) : (ofFormula f).linksOf v = .ok (f.links v) := by
  have hwhole : (f.links v).map Link.cut = f.links v := by
    refine cut_links_eq_self_iff.2 fun c hc _ l hl => ?_
    have hm := (of_mem_occurrencesOf hf.files hc).2.1
    have := Lit.two_le_raw ((hf.proper _ hm).within l (List.mem_filter.1 hl).1).1
    simp only [Lit.isSentinel, beq_eq_false_iff_ne]
    omega
  rw [linksOf_cut hf.files hv (partner_ne_zero hf), hwhole]

end Adjacency

/-! ## Which links a variable has -/

namespace Formula.Stores

variable {f : Formula} {cls : List (List Lit)} {v : Var}

theorem mem_occurrencesOf (h : Stores f cls) {c : ClauseId × List Lit} :
    c ∈ f.occurrencesOf v ↔ c.1.Within f.numLong ∧ f.literals c.1 = c.2 ∧ v ∈ c.2.map Lit.var := by
  obtain ⟨c, lits⟩ := c
  simp only [occurrencesOf, List.mem_filter, List.any_eq_true, beq_iff_eq, h.mem_longClauses_iff, List.mem_map,
    and_assoc]

/-- a clause in which `v` occurs, sought by its number -/
theorem exists_occurrence (h : Stores f cls) {c : ClauseId} {P : List Lit → Prop} :
    (∃ d ∈ f.occurrencesOf v, d.1 = c ∧ P d.2) ↔
      c.Within f.numLong ∧ v ∈ (f.literals c).map Lit.var ∧ P (f.literals c) := by
  constructor
  · intro hboth
    rcases hboth with ⟨⟨c', lits⟩, hm, hc, hP⟩
    obtain ⟨hw, hl, hv⟩ := h.mem_occurrencesOf.1 hm
    simp only at hw hl hv hc hP
    rw [← hc, hl]
    exact ⟨hw, hv, hP⟩
  · intro hboth
    rcases hboth with ⟨hw, hv, hP⟩
    exact ⟨(c, f.literals c), h.mem_occurrencesOf.2 ⟨hw, rfl, hv⟩, rfl, hP⟩

theorem binary_mem_links {w : Var} :
    Link.binary w ∈ f.links v ↔ ∃ b, b.var = w ∧ (b ∈ f.partnersOf v.neg ∨ b ∈ f.partnersOf v.pos) := by
  have h1 : ∀ c, ternaryLink v c ≠ some (.binary w) := by
    intro c
    unfold ternaryLink
    split_ifs
    · split <;> simp
    · simp
  simp only [links, List.mem_append, List.mem_map, Link.binary.injEq, List.mem_filterMap, h1, and_false,
    exists_false, reduceCtorEq, or_false]
  exact exists_congr fun b => and_comm

/-- a binary clause leads to a variable of the formula -/
theorem within_of_binary (h : Stores f cls) {w : Var} (hlink : Link.binary w ∈ f.links v) : w.Within f.numVars := by
  obtain ⟨b, rfl, hb | hb⟩ := binary_mem_links.1 hlink
  · exact (h.partners_within hb).2.1
  · exact (h.partners_within hb).2.1

theorem ternary_mem_links (h : Stores f cls) {c : ClauseId} {a b : Lit} :
    Link.ternary c a b ∈ f.links v ↔
      c.Within f.numLong ∧ (f.literals c).length = 3 ∧ v ∈ (f.literals c).map Lit.var ∧
        othersOf v (f.literals c) = [a, b] := by
  have h1 : ∀ d, ternaryLink v d = some (.ternary c a b) ↔ d.1 = c ∧ d.2.length = 3 ∧ othersOf v d.2 = [a, b] := by
    intro d
    unfold ternaryLink
    split_ifs with h3
    · split
      · rename_i x y hxy
        simp [hxy, h3]
      · rename_i hne
        simp only [reduceCtorEq, false_iff]
        intro hboth
        rcases hboth with ⟨-, -, e⟩
        exact hne _ _ e
    · simp [h3]
  simp only [links, List.mem_append, List.mem_map, reduceCtorEq, and_false, exists_false, or_false, false_or,
    List.mem_filterMap, h1]
  rw [h.exists_occurrence (P := fun lits => lits.length = 3 ∧ othersOf v lits = [a, b]), List.mem_map]
  tauto

theorem long_mem_links (h : Stores f cls) {c : ClauseId} {lits : List Lit} :
    Link.long c lits ∈ f.links v ↔
      c.Within f.numLong ∧ (f.literals c).length ≠ 3 ∧ v ∈ (f.literals c).map Lit.var ∧
        othersOf v (f.literals c) = lits := by
  have h1 : ∀ d, ternaryLink v d ≠ some (.long c lits) := by
    intro d
    unfold ternaryLink
    split_ifs
    · split <;> simp
    · simp
  simp only [links, List.mem_append, List.mem_map, reduceCtorEq, and_false, exists_false, false_or,
    List.mem_filterMap, h1, List.mem_filter, Link.long.injEq, bne_iff_ne]
  have hand : ∀ d, ((d ∈ f.occurrencesOf v ∧ d.2.length ≠ 3) ∧ d.1 = c ∧ othersOf v d.2 = lits) ↔
      d ∈ f.occurrencesOf v ∧ d.1 = c ∧ d.2.length ≠ 3 ∧ othersOf v d.2 = lits := fun d => by tauto
  rw [exists_congr hand, h.exists_occurrence (P := fun d => d.length ≠ 3 ∧ othersOf v d = lits), List.mem_map]
  tauto

end Formula.Stores

end ModelCount
