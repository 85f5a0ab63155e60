/-
What a formula stores after any sequence of offers, refused ones among them.

A clause is refused for being empty or for its first offence, the place counted from the left, and then the formula
stays as it is (`addClause_error_iff`, `exists_refusal_iff`). So the formula after a sequence of offers is built from
the acceptable clauses among them (`built_offerAll`). Every storage holds those of its length:
- the pool holds the long clauses, numbered from 1, each found at the offset of its number (`Stores.at_offset`);
- the links hold the unordered pairs of the binary clauses, which are counted once each (`Built.numBinary_eq`);
- the unit list holds the distinct units in the order in which they first came (`Built.units_eq`).
-/
import Mathlib.Tactic
import Mathlib.Data.Sym.Sym2
import ModelCount.Proofs.Links

namespace ModelCount.Formula

/-! ## Offences -/

/-- the offence of a number after the ones before it -/
def offence (n : ℕ) (before : List ℤ) (m : ℤ) : Option Error :=
  if m = 0 then some .zeroLiteral
  else if n < m.natAbs then some (.variableOutOfRange m m.natAbs n)
  else if m.natAbs ∈ before.map Int.natAbs then some (.repeatedVariable m.natAbs)
  else none

/-- the offence of a clause at a place -/
def offenceAt (n : ℕ) (clause : List ℤ) (i : ℕ) : Option Error := clause[i]?.bind (offence n (clause.take i))

/-- the error is the one of an empty clause, or that of the first offending place -/
def Refusal (n : ℕ) (clause : List ℤ) (e : Error) : Prop :=
  (clause = [] ∧ e = .emptyClause) ∨ ∃ i, offenceAt n clause i = some e ∧ ∀ j < i, offenceAt n clause j = none

/-- a clause over distinct variables of the formula, as numbers -/
def Acceptable (n : ℕ) (clause : List ℤ) : Prop :=
  clause ≠ [] ∧ 0 ∉ clause ∧ (∀ m ∈ clause, m.natAbs ≤ n) ∧ (clause.map Int.natAbs).Nodup

instance (n : ℕ) (clause : List ℤ) : Decidable (Acceptable n clause) :=
  inferInstanceAs (Decidable (_ ∧ _ ∧ _ ∧ _))

theorem offenceAt_append_length (n : ℕ) (before rest : List ℤ) (m : ℤ) :
    offenceAt n (before ++ m :: rest) before.length = offence n before m := by
  simp [offenceAt]

theorem offence_eq_none {n : ℕ} {before : List ℤ} {m : ℤ} :
    offence n before m = none ↔ m ≠ 0 ∧ m.natAbs ≤ n ∧ m.natAbs ∉ before.map Int.natAbs := by
  unfold offence
  split_ifs with h0 hbig hrep
  · simp [h0]
  · simp [hbig]
  · simp [hrep]
  · exact iff_of_true rfl ⟨h0, Nat.not_lt.1 hbig, hrep⟩

/-- one more number is read unless it offends -/
theorem readLits_cons {n : ℕ} (hn : n < 2147483648) {before : List ℤ} (hb : ∀ k ∈ before, k.natAbs ≤ n) (m : ℤ)
    (rest : List ℤ) :
    readLits n (before.map Lit.ofInt) (m :: rest) =
      match offence n before m with
      | some e => .error e
      | none => readLits n ((before ++ [m]).map Lit.ofInt) rest := by
  have hvars : ∀ m : ℤ, m.natAbs ≤ n →
      ((before.map Lit.ofInt).any (fun l => l.var == (Lit.ofInt m).var) = true ↔
        m.natAbs ∈ before.map Int.natAbs) := by
    intro m hm
    simp only [List.any_eq_true, List.mem_map, beq_iff_eq, exists_exists_and_eq_and]
    refine exists_congr fun k => and_congr_right fun hk => ?_
    have hkn := hb k hk
    rw [Lit.var_ofInt (by omega), Lit.var_ofInt (by omega), Var.mk.injEq]
  simp only [readLits, offence]
  split_ifs with h0 hbig hany hrep hrep
  · rfl
  · rfl
  · rfl
  · exact absurd ((hvars m (Nat.not_lt.1 hbig)).1 hany) hrep
  · exact absurd ((hvars m (Nat.not_lt.1 hbig)).2 hrep) hany
  · simp

theorem readLits_error_iff {n : ℕ} (hn : n < 2147483648) {before rest : List ℤ} (hb : ∀ k ∈ before, k.natAbs ≤ n)
    (e : Error) :
    readLits n (before.map Lit.ofInt) rest = .error e ↔
      ∃ i, offenceAt n (before ++ rest) (before.length + i) = some e ∧
        ∀ j < i, offenceAt n (before ++ rest) (before.length + j) = none := by
  induction rest generalizing before with
  | nil => simp [readLits, offenceAt]
  | cons m rest ih =>
    have hhere : offenceAt n (before ++ m :: rest) (before.length + 0) = offence n before m :=
      offenceAt_append_length n before rest m
    rw [readLits_cons hn hb]
    cases ho : offence n before m with
    | some e' =>
      -- the offence of `m` is the first one, and it hides the later ones
      rw [ho] at hhere
      constructor
      · intro he
        cases he
        exact ⟨0, hhere, by simp⟩
      · intro hex
        obtain ⟨i, hi, hfirst⟩ := hex
        cases i with
        | zero => rw [hhere] at hi; cases hi; rfl
        | succ i => rw [hfirst 0 (Nat.succ_pos i)] at hhere; cases hhere
    | none =>
      have hm := (offence_eq_none.1 ho).2.1
      have hb' : ∀ k ∈ before ++ [m], k.natAbs ≤ n := by
        intro k hk
        rcases List.mem_append.1 hk with hk | hk
        · exact hb k hk
        · rw [List.mem_singleton.1 hk]; exact hm
      have hshift : ∀ i, (before ++ [m]).length + i = before.length + (i + 1) := by
        intro i
        rw [List.length_append, List.length_singleton]
        omega
      rw [ho] at hhere
      show readLits n ((before ++ [m]).map Lit.ofInt) rest = .error e ↔ _
      simp only [ih hb', List.append_assoc, List.singleton_append, hshift]
      constructor
      · intro hex
        obtain ⟨i, hi, hfirst⟩ := hex
        refine ⟨i + 1, hi, fun j hj => ?_⟩
        cases j with
        | zero => exact hhere
        | succ j => exact hfirst j (Nat.lt_of_succ_lt_succ hj)
      · intro hex
        obtain ⟨i, hi, hfirst⟩ := hex
        cases i with
        | zero => rw [hhere] at hi; cases hi
        | succ i => exact ⟨i, hi, fun j hj => hfirst (j + 1) (Nat.succ_lt_succ hj)⟩

theorem addClause_error_iff {f : Formula} (hn : f.numVars < 2147483648) {clause : List ℤ} {e : Error} :
    f.addClause clause = .error e ↔ Refusal f.numVars clause e := by
  have hvalid : f.addClause clause = .error e ↔ validate f.numVars clause = .error e := by
    unfold addClause
    cases hv : validate f.numVars clause with
    | error e' =>
      show (Except.error e' : Except Error (Formula × Option ClauseId)) = .error e ↔ _
      rw [Except.error.injEq, Except.error.injEq]
    | ok lits =>
      refine iff_of_false ?_ (by simp)
      match lits with
      | [] => nofun
      | [a] => nofun
      | [a, b] => nofun
      | a :: b :: c :: rest => nofun
  rw [hvalid, validate, Refusal]
  cases clause with
  | nil => simp [offenceAt, eq_comm]
  | cons m rest =>
    have hread := @readLits_error_iff f.numVars hn [] (m :: rest) (by simp) e
    simp only [List.map_nil, List.nil_append, List.length_nil, Nat.zero_add] at hread
    simpa using hread

/-! ## Acceptable clauses -/

theorem offenceAt_eq_none_iff {n : ℕ} {clause : List ℤ} :
    (∀ i, offenceAt n clause i = none) ↔
      0 ∉ clause ∧ (∀ m ∈ clause, m.natAbs ≤ n) ∧ (clause.map Int.natAbs).Nodup := by
  induction clause using List.reverseRecOn with
  | nil => simp [offenceAt]
  | append_singleton clause m ih =>
    have hold : ∀ i < clause.length, offenceAt n (clause ++ [m]) i = offenceAt n clause i := by
      intro i hi
      simp [offenceAt, List.getElem?_append_left hi, List.take_append_of_le_length hi.le]
    have hsplit : (∀ i, offenceAt n (clause ++ [m]) i = none) ↔
        (∀ i, offenceAt n clause i = none) ∧ offence n clause m = none := by
      constructor
      · intro h
        refine ⟨fun i => ?_, by rw [← offenceAt_append_length n clause [] m]; exact h _⟩
        rcases Nat.lt_or_ge i clause.length with hi | hi
        · rw [← hold i hi]; exact h i
        · simp [offenceAt, List.getElem?_eq_none hi]
      · intro h i
        rcases Nat.lt_trichotomy i clause.length with hi | rfl | hi
        · rw [hold i hi]; exact h.1 i
        · rw [offenceAt_append_length]; exact h.2
        · have : (clause ++ [m])[i]? = none := by
            rw [List.getElem?_eq_none_iff, List.length_append, List.length_singleton]
            exact hi
          simp [offenceAt, this]
    have hnodup : ((clause ++ [m]).map Int.natAbs).Nodup ↔
        (clause.map Int.natAbs).Nodup ∧ m.natAbs ∉ clause.map Int.natAbs := by
      rw [List.map_append, List.map_singleton, List.nodup_append_comm, List.singleton_append, List.nodup_cons,
        and_comm]
    rw [hsplit, ih, offence_eq_none, hnodup]
    simp only [List.mem_append, List.mem_singleton]
    grind

theorem exists_refusal_iff {n : ℕ} {clause : List ℤ} : (∃ e, Refusal n clause e) ↔ ¬ Acceptable n clause := by
  have hplace : (∃ e i, offenceAt n clause i = some e ∧ ∀ j < i, offenceAt n clause j = none) ↔
      ¬ ∀ i, offenceAt n clause i = none := by
    constructor
    · intro hex hnone
      obtain ⟨e, i, hi, -⟩ := hex
      rw [hnone i] at hi
      cases hi
    · intro h
      have hex : ∃ i, offenceAt n clause i ≠ none := not_forall.1 h
      obtain ⟨e, he⟩ := Option.ne_none_iff_exists'.1 (Nat.find_spec hex)
      exact ⟨e, Nat.find hex, he, fun j hj => not_not.1 (Nat.find_min hex hj)⟩
  rw [Acceptable, ← offenceAt_eq_none_iff, not_and_or, not_not, ← hplace]
  simp only [Refusal, exists_or, exists_and_left, exists_eq, and_true]

/-! ## Sequences of offers -/

def offer (f : Formula) (clause : List ℤ) : Formula × Except Error (Option ClauseId) :=
  match f.addClause clause with
  | .ok (f', id) => (f', .ok id)
  | .error e => (f, .error e)

def offerAll (f : Formula) (clauses : List (List ℤ)) : Formula :=
  clauses.foldl (fun f clause => (f.offer clause).1) f

def accepted (n : ℕ) (clauses : List (List ℤ)) : List (List ℤ) := clauses.filter fun c => decide (Acceptable n c)

theorem addClause_cases_acceptable {f : Formula} (hn : f.numVars < 2147483648) (clause : List ℤ) :
    (Acceptable f.numVars clause ∧ ∃ f' id, f.addClause clause = .ok (f', id)) ∨
      (¬ Acceptable f.numVars clause ∧ ∃ e, f.addClause clause = .error e) := by
  cases h : f.addClause clause with
  | ok r =>
    obtain ⟨f', id⟩ := r
    refine .inl ⟨?_, f', id, rfl⟩
    by_contra hacc
    obtain ⟨e, he⟩ := exists_refusal_iff.2 hacc
    rw [(addClause_error_iff hn).2 he] at h
    cases h
  | error e => exact .inr ⟨exists_refusal_iff.1 ⟨e, (addClause_error_iff hn).1 h⟩, e, rfl⟩

/-- the formula after some offers is built from the acceptable ones -/
theorem built_offerAll_of_built {n : ℕ} (hn : n < 2147483648) {log : List (List ℤ × Option ClauseId)} {f : Formula}
    (h : Built n log f) (clauses : List (List ℤ)) :
    ∃ log', Built n (log ++ log') (f.offerAll clauses) ∧ log'.map Prod.fst = accepted n clauses := by
  induction clauses generalizing log f with
  | nil => exact ⟨[], by simpa [offerAll] using h, rfl⟩
  | cons clause rest ih =>
    have hnum : f.numVars = n := (h.stores hn).1
    have hstep : f.offerAll (clause :: rest) = (f.offer clause).1.offerAll rest := rfl
    have hcases := @addClause_cases_acceptable f (by rw [hnum]; exact hn) clause
    rw [hnum] at hcases
    rcases hcases with ⟨hacc, f', id, hadd⟩ | ⟨hacc, e, hadd⟩
    · obtain ⟨log', hbuilt, hlog⟩ := ih (h.add hadd)
      refine ⟨(clause, id) :: log', ?_, ?_⟩
      · rw [hstep, offer, hadd]
        simpa using hbuilt
      · simpa [accepted, hacc] using hlog
    · obtain ⟨log', hbuilt, hlog⟩ := ih h
      refine ⟨log', ?_, ?_⟩
      · rw [hstep, offer, hadd]
        exact hbuilt
      · simpa [accepted, hacc] using hlog

theorem built_offerAll {n : ℕ} (hn : n < 2147483648) (clauses : List (List ℤ)) :
    ∃ log, Built n log ((empty n).offerAll clauses) ∧ log.map Prod.fst = accepted n clauses := by
  simpa using built_offerAll_of_built hn .empty clauses

/-! ## Units and binary clauses in the order and number they came -/

def unitsIn (cls : List (List Lit)) : List Lit := cls.filterMap fun c => match c with
  | [a] => some a
  | _ => none

def pairsIn (cls : List (List Lit)) : List (Sym2 Lit) := cls.filterMap fun c => match c with
  | [a, b] => some s(a, b)
  | _ => none

theorem mem_pairsIn {cls : List (List Lit)} {a b : Lit} : s(a, b) ∈ pairsIn cls ↔ [a, b] ∈ cls ∨ [b, a] ∈ cls := by
  simp only [pairsIn, List.mem_filterMap]
  constructor
  · intro hex
    obtain ⟨c, hc, heq⟩ := hex
    split at heq
    · rename_i x y
      rw [Option.some.injEq, Sym2.eq_iff] at heq
      rcases heq with ⟨rfl, rfl⟩ | ⟨rfl, rfl⟩
      · exact .inl hc
      · exact .inr hc
    · cases heq
  · intro hor
    rcases hor with hc | hc
    · exact ⟨_, hc, rfl⟩
    · exact ⟨_, hc, by rw [Sym2.eq_swap]⟩

theorem unitsIn_append_long {cls : List (List Lit)} {c : List Lit} (h1 : c.length ≠ 1) :
    unitsIn (cls ++ [c]) = unitsIn cls := by
  match c, h1 with
  | [], _ => simp [unitsIn]
  | [_], h1 => simp at h1
  | _ :: _ :: _, _ => simp [unitsIn]

theorem pairsIn_append_long {cls : List (List Lit)} {c : List Lit} (h2 : c.length ≠ 2) :
    pairsIn (cls ++ [c]) = pairsIn cls := by
  match c, h2 with
  | [], _ => simp [pairsIn]
  | [_], _ => simp [pairsIn]
  | [_, _], h2 => simp at h2
  | _ :: _ :: _ :: _, _ => simp [pairsIn]

namespace Built

variable {n : ℕ} {log : List (List ℤ × Option ClauseId)} {f : Formula}

theorem units_eq (h : Built n log f) (hn : n < 2147483648) : f.units = (unitsIn (litsOf log)).eraseDups := by
  induction h with
  | empty => rfl
  | @add log f f' clause id h hadd ih =>
    obtain ⟨-, lits, hl, -, hcases⟩ := h.added hn hadd
    rw [litsOf_append_singleton, ← hl]
    obtain ⟨a, rfl, rfl, -⟩ | ⟨a, b, rfl, rfl, -⟩ | ⟨h1, -, rfl, -⟩ := hcases
    · have happ : unitsIn (litsOf log ++ [[a]]) = unitsIn (litsOf log) ++ [a] := by simp [unitsIn]
      have hmem : a ∈ f.units ↔ a ∈ unitsIn (litsOf log) := by rw [ih, List.mem_eraseDups]
      rw [happ, List.eraseDups_append, ← ih, addUnit]
      by_cases ha : a ∈ f.units
      · rw [if_pos (by simpa using ha)]
        simp [List.removeAll, hmem.1 ha]
      · rw [if_neg (by simpa using ha)]
        simp [List.removeAll, List.eraseDups_cons, mt hmem.2 ha]
    · rw [unitsIn_append_long (by simp), ← ih]
      unfold addBinary
      split_ifs <;> rfl
    · rw [unitsIn_append_long h1, ← ih]
      rfl

theorem numBinary_eq (h : Built n log f) (hn : n < 2147483648) :
    f.numBinary = (pairsIn (litsOf log)).toFinset.card := by
  induction h with
  | empty => rfl
  | @add log f f' clause id h hadd ih =>
    obtain ⟨hf, lits, hl, -, hcases⟩ := h.added hn hadd
    rw [litsOf_append_singleton, ← hl]
    obtain ⟨a, rfl, rfl, -⟩ | ⟨a, b, rfl, rfl, -⟩ | ⟨-, h2, rfl, -⟩ := hcases
    · rw [pairsIn_append_long (by simp), ← ih]
      unfold addUnit
      split_ifs <;> rfl
    · have happ : (pairsIn (litsOf log ++ [[a, b]])).toFinset = insert s(a, b) (pairsIn (litsOf log)).toFinset := by
        ext p
        simp [pairsIn]
      have hmem : b ∈ f.partnersOf a ↔ s(a, b) ∈ (pairsIn (litsOf log)).toFinset := by
        rw [hf.partners, List.mem_toFinset, mem_pairsIn]
      rw [happ, addBinary]
      by_cases hb : b ∈ f.partnersOf a
      · rw [if_pos (by simpa using hb), Finset.insert_eq_of_mem (hmem.1 hb), ih]
      · rw [if_neg (by simpa using hb), Finset.card_insert_of_notMem (mt hmem.2 hb), ← ih]
    · rw [pairsIn_append_long h2, ← ih]
      rfl

end Built

/-! ## Finding a clause by its number -/

/-- the number of a long clause leads to its offset, and the offset to its header and its literals -/
theorem Stores.at_offset {f : Formula} {cls : List (List Lit)} (h : Stores f cls) {id : ClauseId} {lits : List Lit}
    (hm : (id, lits) ∈ numbered (longs cls)) :
    ∃ offset, f.offsetOf id = .ok offset ∧ f.headerAt offset = (id, lits.length) ∧ f.clauseAt offset = lits := by
  obtain ⟨hpos, hlits⟩ : 1 ≤ id.id ∧ (longs cls)[id.id - 1]? = some lits := mem_numbered.1 hm
  have hnum : (numbered (longs cls))[id.id - 1]? = some (id, lits) := by
    have hid : 1 + (id.id - 1) = id.id := by omega
    simp [numbered, hlits, hid]
  have hread := congrArg (fun l => l[id.id - 1]?) h.files.read_offsets
  simp only [List.getElem?_map, List.getElem?_drop, hnum, Option.map_some, Option.map_eq_some_iff] at hread
  obtain ⟨offset, hoffset, hat⟩ := hread
  simp only [Prod.mk.injEq] at hat
  refine ⟨offset, ?_, hat.1, hat.2⟩
  have hplace : f.offsets[id.index]? = some offset := by
    rw [← Array.getElem?_toList, ← hoffset]
    congr 1
    show id.id = 1 + (id.id - 1)
    omega
  have hne : id.isSentinel = false := by simpa [ClauseId.isSentinel] using Nat.ne_of_gt hpos
  rw [offsetOf, hne, hplace]
  rfl

/-- the literal of a number of the formula names the same number -/
theorem toInt_ofInt {m : ℤ} (h : m.natAbs < 2147483648) : (Lit.ofInt m).toInt = m := by
  rw [Lit.toInt, Lit.isPositive_ofInt h, Lit.var_ofInt h]
  simp only [decide_eq_true_eq]
  split_ifs <;> omega

/-- the clauses that a formula over the variables 1 to `n` accepts of some, as literals -/
def stored (n : ℕ) (clauses : List (List ℤ)) : List (List Lit) := (accepted n clauses).map (·.map Lit.ofInt)

theorem toInt_stored {n : ℕ} (hn : n < 2147483648) (clauses : List (List ℤ)) :
    (stored n clauses).map (·.map Lit.toInt) = accepted n clauses := by
  rw [stored, List.map_map]
  refine (List.map_congr_left fun clause hc => ?_).trans (List.map_id _)
  obtain ⟨-, -, hle, -⟩ : Acceptable n clause := by simpa using (List.mem_filter.1 hc).2
  rw [Function.comp_apply, List.map_map]
  refine (List.map_congr_left fun m hm => ?_).trans (List.map_id _)
  have := hle m hm
  exact toInt_ofInt (by omega)

/-- **Storage.** After any sequence of offers, of which some may have been refused:
- the next offer is refused exactly for an empty clause, a 0, a variable that is too large or one that occurs twice,
  with the error of the first offending place, and then the formula stays as it is;
- the long clauses are the accepted ones in their order, numbered from 1, and each is found by its number;
- the links are symmetric, hold nothing twice and are those of the accepted binary clauses, which are counted once
  each whichever literal came first;
- the units are the accepted unit literals, each where it first came. -/
theorem storage_after_offers {n : ℕ} (hn : n < 2147483648) (clauses : List (List ℤ)) :
    let f := (empty n).offerAll clauses
    let cls := stored n clauses
    (∀ clause e, (f.offer clause).2 = .error e ↔ Refusal n clause e) ∧
    (∀ clause, (∃ e, (f.offer clause).2 = .error e) ↔
      clause = [] ∨ 0 ∈ clause ∨ (∃ m ∈ clause, n < m.natAbs) ∨ ¬ (clause.map Int.natAbs).Nodup) ∧
    (∀ clause e, (f.offer clause).2 = .error e → (f.offer clause).1 = f) ∧
    cls.map (·.map Lit.toInt) = accepted n clauses ∧
    f.longClauses = numbered (longs cls) ∧
    (∀ id lits, (id, lits) ∈ numbered (longs cls) →
      ∃ offset, f.offsetOf id = .ok offset ∧ f.headerAt offset = (id, lits.length) ∧ f.clauseAt offset = lits) ∧
    (∀ a, a.var.Within n → f.partners[a.index]? = some (f.partnersOf a)) ∧
    (∀ a b, b ∈ f.partnersOf a ↔ a ∈ f.partnersOf b) ∧
    (∀ a, (f.partnersOf a).Nodup) ∧
    (∀ a b, b ∈ f.partnersOf a ↔ [a, b] ∈ cls ∨ [b, a] ∈ cls) ∧
    f.numBinary = (pairsIn cls).toFinset.card ∧
    f.units = (unitsIn cls).eraseDups := by
  intro f cls
  obtain ⟨log, hbuilt, hlog⟩ := built_offerAll hn clauses
  obtain ⟨hnum, hf⟩ := hbuilt.stores hn
  have hlits : litsOf log = cls := by
    simp only [cls, stored, ← hlog, litsOf, List.map_map, Function.comp_def]
  have hanswer : ∀ clause e, (f.offer clause).2 = .error e ↔ f.addClause clause = .error e := by
    intro clause e
    unfold offer
    cases f.addClause clause <;> simp
  have hrefused : ∀ clause e, (f.offer clause).2 = .error e ↔ Refusal n clause e := by
    intro clause e
    rw [hanswer, addClause_error_iff (by rw [hnum]; exact hn), hnum]
  rw [hlits] at hf
  refine ⟨hrefused, fun clause => ?_, fun clause e he => ?_, toInt_stored hn clauses, hf.longClauses_eq,
    fun id lits hm => hf.at_offset hm, fun a ha => ?_, fun a b => hf.mem_partnersOf_comm,
    hbuilt.nodup_partnersOf hn, hf.partners, ?_, ?_⟩
  · simp only [hrefused, exists_refusal_iff, Acceptable]
    grind
  · unfold offer
    rw [(hanswer clause e).1 he]
  · have hcell : a.index < f.partners.size := by
      rw [hf.partnersSize, hnum]
      exact Lit.raw_lt ha.2
    rw [partnersOf, Array.getElem?_eq_getElem hcell]
    rfl
  · rw [← hlits]; exact hbuilt.numBinary_eq hn
  · rw [← hlits]; exact hbuilt.units_eq hn

/-- a mixed sequence with known clauses, exchanged literals and every kind of offence -/
theorem storage_after_mixed_offers :
    let clauses := [[3], [1, -2], [], [4, -1, 2], [-2, 1], [2, 0], [-3, 1], [3], [1, -1], [5, 2], [-4, 3, 2, 1], [-1]]
    let f := (empty 4).offerAll clauses
    4 < 2147483648 ∧ f.longClauses.map (fun p => (p.1.id, p.2.map Lit.toInt)) = [(1, [4, -1, 2]), (2, [-4, 3, 2, 1])] ∧
      f.numBinary = 2 ∧ f.units.map Lit.toInt = [3, -1] ∧
      (f.offer [1, -5, 0]).2 = .error (.variableOutOfRange (-5) 5 4) := by
  intro clauses f
  have hn : 4 < 2147483648 := by decide
  obtain ⟨hrefused, -, -, -, hlong, -, -, -, -, -, hnum, hunits⟩ := storage_after_offers hn clauses
  refine ⟨hn, ?_, ?_, ?_, ?_⟩
  · rw [hlong]; decide
  · rw [hnum]; decide
  · rw [hunits]; decide
  · exact (hrefused _ _).2 (.inr ⟨1, by decide, by decide⟩)

end ModelCount.Formula
