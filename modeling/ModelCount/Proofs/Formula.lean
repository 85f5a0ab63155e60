/-
What a formula stores: the clauses it was built from, sorted by length.

`Stores f cls` relates a formula to the list of its clauses as literals: every clause is `Proper` (literals
over distinct variables of the formula), the units and binary links are those of `cls`, and the pool holds the
long clauses in order. `Files f cls` is the part of it that holds however large the variables are. Results:
- `files_of_ofClauses`, `stores_of_ofClauses`: a formula that is accepted files its clauses, and stores them as long as
  its variables stay below 2^31;
- `longClauses_eq`: reading the pool gives the long clauses, numbered from 1;
- `exists_perm_of_mem_clauses`, `exists_perm_of_mem`: the clauses of the formula as one list are those of `cls`,
  up to the order of the literals of a binary clause.
-/
import Mathlib.Tactic
import ModelCount.Formula.Basic
import ModelCount.Proofs.Literal

namespace ModelCount.Formula

/-! ## Proper clauses -/

/-- a clause that a formula over the variables 1 to `n` may hold -/
structure Proper (n : ℕ) (c : List Lit) : Prop where
  nonempty : c ≠ []
  nodup : (c.map Lit.var).Nodup
  within : ∀ l ∈ c, l.var.Within n

theorem Proper.pair {n : ℕ} {a b : Lit} (h : Proper n [a, b]) :
    a.var.Within n ∧ b.var.Within n ∧ a.var ≠ b.var := by
  have hne := h.nodup
  simp only [List.map_cons, List.map_nil, List.nodup_cons, List.mem_singleton] at hne
  exact ⟨h.within a (by simp), h.within b (by simp), hne.1⟩

/-- the literals that are read are those of the numbers, over distinct variables -/
theorem readLits_eq {n : ℕ} {rest : List ℤ} {read lits : List Lit} (h : readLits n read rest = .ok lits)
    (hd : (read.map Lit.var).Nodup) : lits = read ++ rest.map Lit.ofInt ∧ (lits.map Lit.var).Nodup := by
  induction rest generalizing read with
  | nil =>
    simp only [readLits, Except.ok.injEq] at h
    subst h
    exact ⟨by simp, hd⟩
  | cons m rest ih =>
    simp only [readLits] at h
    split_ifs at h with h0 hbig hrep
    have hnew : (Lit.ofInt m).var ∉ read.map Lit.var := by
      intro hmem
      obtain ⟨l, hl, hlv⟩ := List.mem_map.1 hmem
      exact hrep (List.any_eq_true.2 ⟨l, hl, by simp [hlv]⟩)
    have hd' : ((read ++ [Lit.ofInt m]).map Lit.var).Nodup := by
      rw [List.map_append, List.nodup_append]
      refine ⟨hd, by simp, ?_⟩
      simp_all
    obtain ⟨h1, h2⟩ := ih h hd'
    exact ⟨by rw [h1]; simp, h2⟩

theorem within_of_readLits {n : ℕ} {rest : List ℤ} {read lits : List Lit} (h : readLits n read rest = .ok lits) :
    ∀ m ∈ rest, m ≠ 0 ∧ m.natAbs ≤ n := by
  induction rest generalizing read with
  | nil => simp
  | cons m rest ih =>
    simp only [readLits] at h
    split_ifs at h with h0 hbig hrep
    intro k hk
    rcases List.mem_cons.1 hk with rfl | hk
    · exact ⟨h0, Nat.not_lt.1 hbig⟩
    · exact ih h k hk

/-- what a valid clause is, however many variables there are -/
theorem validate_spec {n : ℕ} {clause : List ℤ} {lits : List Lit} (h : validate n clause = .ok lits) :
    lits = clause.map Lit.ofInt ∧ clause ≠ [] ∧ (lits.map Lit.var).Nodup ∧ ∀ m ∈ clause, m ≠ 0 ∧ m.natAbs ≤ n := by
  unfold validate at h
  split_ifs at h with hempty
  obtain ⟨h1, h2⟩ := readLits_eq h (by simp)
  exact ⟨by simpa using h1, by simpa using hempty, h2, within_of_readLits h⟩

theorem validate_eq {n : ℕ} (hn : n < 2147483648) {clause : List ℤ} {lits : List Lit}
    (h : validate n clause = .ok lits) : lits = clause.map Lit.ofInt ∧ Proper n lits := by
  obtain ⟨rfl, hne, hnodup, hwithin⟩ := validate_spec h
  refine ⟨rfl, by simpa using hne, hnodup, fun l hl => ?_⟩
  obtain ⟨m, hm, rfl⟩ := List.mem_map.1 hl
  obtain ⟨h0, hle⟩ := hwithin m hm
  rw [Lit.var_ofInt (by omega)]
  exact ⟨by show 1 ≤ m.natAbs; omega, hle⟩

theorem proper_append {n : ℕ} {cls : List (List Lit)} {c : List Lit} (hcls : ∀ d ∈ cls, Proper n d)
    (hc : Proper n c) : ∀ d ∈ cls ++ [c], Proper n d := by
  intro d hd
  rcases List.mem_append.1 hd with hd | hd
  · exact hcls d hd
  · rw [List.mem_singleton.1 hd]; exact hc

/-! ## The pool -/

def numbered (cls : List (List Lit)) : List (ClauseId × List Lit) :=
  (cls.zipIdx 1).map fun p => (⟨p.2⟩, p.1)

def longs (cls : List (List Lit)) : List (List Lit) := cls.filter fun c => decide (3 ≤ c.length)

theorem numbered_append_singleton (cls : List (List Lit)) (c : List Lit) :
    numbered (cls ++ [c]) = numbered cls ++ [(⟨cls.length + 1⟩, c)] := by
  simp [numbered, List.zipIdx_append, Nat.add_comm]

theorem mem_numbered {cls : List (List Lit)} {p : ClauseId × List Lit} :
    p ∈ numbered cls ↔ 1 ≤ p.1.id ∧ cls[p.1.id - 1]? = some p.2 := by
  obtain ⟨⟨i⟩, c⟩ := p
  simp only [numbered, List.mem_map, Prod.exists, Prod.mk.injEq, ClauseId.mk.injEq]
  constructor
  · intro hex
    rcases hex with ⟨c', i', hm, rfl, rfl⟩
    exact List.mk_mem_zipIdx_iff_le_and_getElem?_sub.1 hm
  · intro hm
    exact ⟨c, i, List.mk_mem_zipIdx_iff_le_and_getElem?_sub.2 hm, rfl, rfl⟩

/-- where the clauses start in a pool whose first words are already written -/
def offsetsFrom (start : ℕ) : List (List Lit) → List ℕ
  | [] => []
  | c :: rest => (start + headerSize) :: offsetsFrom (start + headerSize + c.length + 1) rest

def poolWords (numberedClauses : List (ClauseId × List Lit)) : List ℕ :=
  numberedClauses.flatMap fun p => clauseWords p.1 p.2

theorem length_clauseWords (id : ClauseId) (c : List Lit) :
    (clauseWords id c).length = headerSize + c.length + 1 := by
  simp only [clauseWords, headerSize, List.length_cons, List.length_append, List.length_map, List.length_nil]
  omega

theorem length_poolWords_numbered (cls : List (List Lit)) :
    (poolWords (numbered cls)).length = (cls.map fun c => headerSize + c.length + 1).sum := by
  simp only [poolWords, numbered, List.length_flatMap, List.map_map, Function.comp_def, length_clauseWords]
  conv_rhs => rw [← List.zipIdx_map_fst 1 cls, List.map_map]
  rfl

theorem offsetsFrom_append_singleton (start : ℕ) (cls : List (List Lit)) (c : List Lit) :
    offsetsFrom start (cls ++ [c]) =
      offsetsFrom start cls ++ [start + (cls.map fun c => headerSize + c.length + 1).sum + headerSize] := by
  induction cls generalizing start with
  | nil => simp [offsetsFrom]
  | cons d cls ih =>
    simp only [List.cons_append, offsetsFrom, ih, List.map_cons, List.sum_cons]
    congr 3
    omega

theorem length_offsetsFrom (start : ℕ) (cls : List (List Lit)) : (offsetsFrom start cls).length = cls.length := by
  induction cls generalizing start with
  | nil => rfl
  | cons c cls ih => simp [offsetsFrom, ih]

/-- a clause at its offset is read back as it was written -/
theorem read_at {f : Formula} {pre suf : List ℕ} {id : ClauseId} {c : List Lit}
    (h : f.pool.toList = pre ++ (clauseWords id c ++ suf)) :
    (f.headerAt (pre.length + headerSize), f.clauseAt (pre.length + headerSize)) = ((id, c.length), c) := by
  have h0 : f.pool[pre.length]? = some id.id := by
    rw [← Array.getElem?_toList, h]; simp [clauseWords]
  have h1 : f.pool[pre.length + 1]? = some c.length := by
    rw [← Array.getElem?_toList, h, List.getElem?_append_right (by omega)]
    simp [clauseWords]
  have hheader : f.headerAt (pre.length + headerSize) = (id, c.length) := by
    simp [headerAt, h0, h1]
  have hlits : f.clauseAt (pre.length + headerSize) = c := by
    have hdrop : (pre ++ (clauseWords id c ++ suf)).drop (pre.length + headerSize) = c.map Lit.raw ++ (0 :: suf) := by
      rw [← List.drop_drop, List.drop_left]
      simp [clauseWords, headerSize]
    have hl : pre.length + headerSize + c.length - (pre.length + headerSize) = (c.map Lit.raw).length := by
      simp
    calc f.clauseAt (pre.length + headerSize)
        = (((pre ++ (clauseWords id c ++ suf)).drop (pre.length + headerSize)).take (c.map Lit.raw).length).map
            Lit.mk := by rw [clauseAt, hheader, Array.toList_extract, List.extract_eq_take_drop, h, hl]
      _ = (c.map Lit.raw).map Lit.mk := by rw [hdrop, List.take_left]
      _ = c := by
          rw [List.map_map]
          exact List.map_id'' (fun _ => rfl) c
  rw [hheader, hlits]

theorem read_offsetsFrom {f : Formula} {cls : List (List Lit)} {k : ℕ} {pre suf : List ℕ}
    (h : f.pool.toList = pre ++ (poolWords ((cls.zipIdx k).map fun p => (⟨p.2⟩, p.1)) ++ suf)) :
    (offsetsFrom pre.length cls).map (fun offset => (f.headerAt offset, f.clauseAt offset)) =
      (cls.zipIdx k).map fun p => ((⟨p.2⟩, p.1.length), p.1) := by
  induction cls generalizing k pre with
  | nil => rfl
  | cons c cls ih =>
    simp only [List.zipIdx_cons, List.map_cons, poolWords, List.flatMap_cons, List.append_assoc] at h
    simp only [offsetsFrom, List.zipIdx_cons, List.map_cons]
    congr 1
    · exact read_at h
    · have := @ih (k + 1) (pre ++ clauseWords ⟨k⟩ c) (by rw [h]; simp [poolWords])
      rw [← this]
      congr 2
      simp only [List.length_append, length_clauseWords]
      omega

/-! ## Clauses filed by length -/

/-- the formula files these clauses by length; nothing is said of their variables but that those of a clause differ -/
structure Files (f : Formula) (cls : List (List Lit)) : Prop where
  nodup : ∀ c ∈ cls, (c.map Lit.var).Nodup
  partnersSize : f.partners.size = 2 * (f.numVars + 1)
  partners : ∀ a b, b ∈ f.partnersOf a → [a, b] ∈ cls ∨ [b, a] ∈ cls
  pool : f.pool.toList = 0 :: poolWords (numbered (longs cls))
  offsets : f.offsets.toList = 0 :: offsetsFrom 1 (longs cls)

theorem numVars_addUnit (f : Formula) (a : Lit) : (f.addUnit a).numVars = f.numVars := by
  unfold Formula.addUnit
  split_ifs <;> rfl

theorem numVars_addBinary (f : Formula) (a b : Lit) : (f.addBinary a b).numVars = f.numVars := by
  unfold Formula.addBinary
  split_ifs <;> rfl

theorem mem_partnersOf_addBinary {f : Formula} {a b x y : Lit} (h : y ∈ (f.addBinary a b).partnersOf x) :
    y ∈ f.partnersOf x ∨ (x = a ∧ y = b) ∨ (x = b ∧ y = a) := by
  unfold Formula.addBinary at h
  split_ifs at h with hknown
  · exact Or.inl h
  · simp only [partnersOf, Array.getElem?_modify] at h ⊢
    have hindex : ∀ z : Lit, z.index = x.index → x = z := fun z hz => (Lit.ext_raw hz).symm
    cases hx : f.partners[x.index]? with
    | none =>
      rw [hx] at h
      split_ifs at h <;> simp at h
    | some l =>
      rw [hx] at h
      split_ifs at h with h1 h2 h2 <;> simp at h ⊢ <;> grind

namespace Files

variable {f : Formula} {cls : List (List Lit)}

theorem empty (n : ℕ) : Files (Formula.empty n) [] where
  nodup := by simp
  partnersSize := by simp [Formula.empty]
  partners a b := by
    simp only [partnersOf, Formula.empty, Array.getElem?_replicate]
    split_ifs <;> simp
  pool := rfl
  offsets := rfl

/-- the headers and literals at the offsets, in the order of the offsets -/
theorem read_offsets (h : Files f cls) :
    (f.offsets.toList.drop 1).map (fun offset => (f.headerAt offset, f.clauseAt offset)) =
      (numbered (longs cls)).map fun p => ((p.1, p.2.length), p.2) := by
  rw [h.offsets, List.drop_one, List.tail_cons, numbered, List.map_map]
  exact @read_offsetsFrom _ _ _ [0] [] (by rw [h.pool]; simp [numbered])

theorem longClauses_eq (h : Files f cls) : f.longClauses = numbered (longs cls) := by
  have hread := congrArg (List.map fun r => (r.1.1, r.2)) h.read_offsets
  simpa [longClauses, Function.comp_def] using hread

theorem mem_snd_longClauses (h : Files f cls) {lits : List Lit} :
    lits ∈ f.longClauses.map Prod.snd ↔ lits ∈ cls ∧ 3 ≤ lits.length := by
  have : f.longClauses.map Prod.snd = longs cls := by
    rw [h.longClauses_eq, numbered, List.map_map]
    exact List.zipIdx_map_fst 1 _
  rw [this, longs, List.mem_filter, decide_eq_true_iff]

theorem of_mem_longClauses (h : Files f cls) {p : ClauseId × List Lit} (hp : p ∈ f.longClauses) :
    1 ≤ p.1.id ∧ p.2 ∈ cls := by
  refine ⟨?_, (h.mem_snd_longClauses.1 (List.mem_map_of_mem hp)).1⟩
  rw [h.longClauses_eq] at hp
  exact (mem_numbered.1 hp).1

theorem size_offsets (h : Files f cls) : f.offsets.size = (longs cls).length + 1 := by
  rw [← Array.length_toList, h.offsets, List.length_cons, length_offsetsFrom]

theorem nodup_append (h : Files f cls) {c : List Lit} (hc : (c.map Lit.var).Nodup) :
    ∀ d ∈ cls ++ [c], (d.map Lit.var).Nodup := by
  intro d hd
  rcases List.mem_append.1 hd with hd | hd
  · exact h.nodup d hd
  · rw [List.mem_singleton.1 hd]; exact hc

theorem addUnit (h : Files f cls) (a : Lit) : Files (f.addUnit a) (cls ++ [[a]]) := by
  have hl : longs (cls ++ [[a]]) = longs cls := by simp [longs]
  have hrest : (f.addUnit a).partners = f.partners ∧ (f.addUnit a).pool = f.pool ∧
      (f.addUnit a).offsets = f.offsets := by
    unfold Formula.addUnit
    split_ifs <;> simp
  obtain ⟨hp, hpool, hoff⟩ := hrest
  refine ⟨h.nodup_append (by simp), ?_, fun x y hxy => ?_, ?_, ?_⟩
  · rw [numVars_addUnit, hp]; exact h.partnersSize
  · have hold : y ∈ f.partnersOf x := by simpa only [partnersOf, hp] using hxy
    exact (h.partners x y hold).imp (List.mem_append_left _) (List.mem_append_left _)
  · rw [hpool, hl]; exact h.pool
  · rw [hoff, hl]; exact h.offsets

theorem addBinary (h : Files f cls) {a b : Lit} (hab : a.var ≠ b.var) :
    Files (f.addBinary a b) (cls ++ [[a, b]]) := by
  have hl : longs (cls ++ [[a, b]]) = longs cls := by simp [longs]
  have hrest : (f.addBinary a b).partners.size = f.partners.size ∧ (f.addBinary a b).pool = f.pool ∧
      (f.addBinary a b).offsets = f.offsets := by
    unfold Formula.addBinary
    split_ifs <;> simp
  obtain ⟨hp, hpool, hoff⟩ := hrest
  refine ⟨h.nodup_append (by simpa using hab), ?_, fun x y hxy => ?_, ?_, ?_⟩
  · rw [numVars_addBinary, hp]; exact h.partnersSize
  · rcases mem_partnersOf_addBinary hxy with hold | ⟨rfl, rfl⟩ | ⟨rfl, rfl⟩
    · exact (h.partners x y hold).imp (List.mem_append_left _) (List.mem_append_left _)
    · exact Or.inl (by simp)
    · exact Or.inr (by simp)
  · rw [hpool, hl]; exact h.pool
  · rw [hoff, hl]; exact h.offsets

theorem addLong (h : Files f cls) {c : List Lit} (hc : (c.map Lit.var).Nodup) (hlen : 3 ≤ c.length) :
    Files (f.addLong c).1 (cls ++ [c]) := by
  have hl : longs (cls ++ [c]) = longs cls ++ [c] := by simp [longs, hlen]
  have hpsize : f.pool.size = 1 + ((longs cls).map fun c => headerSize + c.length + 1).sum := by
    rw [← Array.length_toList, h.pool, List.length_cons, length_poolWords_numbered, Nat.add_comm]
  refine ⟨h.nodup_append hc, h.partnersSize, fun x y hxy => ?_, ?_, ?_⟩
  · exact (h.partners x y hxy).imp (List.mem_append_left _) (List.mem_append_left _)
  · rw [hl, numbered_append_singleton]
    simp only [Formula.addLong, Array.toList_appendList, h.pool, poolWords, List.flatMap_append, List.flatMap_cons,
      List.flatMap_nil, List.append_nil, List.cons_append, h.size_offsets]
  · rw [hl, offsetsFrom_append_singleton]
    simp only [Formula.addLong, Array.toList_push, h.offsets, hpsize, List.cons_append]

end Files

/-! ## What a formula stores -/

/-- the formula stores these clauses, sorted by length -/
structure Stores (f : Formula) (cls : List (List Lit)) : Prop where
  proper : ∀ c ∈ cls, Proper f.numVars c
  units : ∀ a, a ∈ f.units ↔ [a] ∈ cls
  partnersSize : f.partners.size = 2 * (f.numVars + 1)
  partners : ∀ a b, b ∈ f.partnersOf a ↔ [a, b] ∈ cls ∨ [b, a] ∈ cls
  pool : f.pool.toList = 0 :: poolWords (numbered (longs cls))
  offsets : f.offsets.toList = 0 :: offsetsFrom 1 (longs cls)

theorem stores_empty (n : ℕ) : Stores (empty n) [] where
  proper := by simp
  units := by simp [empty]
  partnersSize := by simp [empty]
  partners a b := by
    simp only [partnersOf, empty, Array.getElem?_replicate, List.not_mem_nil, or_self, iff_false]
    split_ifs <;> simp
  pool := rfl
  offsets := rfl

namespace Stores

variable {f : Formula} {cls : List (List Lit)}

theorem files (h : Stores f cls) : Files f cls where
  nodup c hc := (h.proper c hc).nodup
  partnersSize := h.partnersSize
  partners a b := (h.partners a b).1
  pool := h.pool
  offsets := h.offsets

theorem longClauses_eq (h : Stores f cls) : f.longClauses = numbered (longs cls) := h.files.longClauses_eq

theorem numLong_eq (h : Stores f cls) : f.numLong = (longs cls).length := by
  simp [numLong, h.files.size_offsets]

theorem addUnit (h : Stores f cls) {a : Lit} (ha : Proper f.numVars [a]) :
    Stores (f.addUnit a) (cls ++ [[a]]) := by
  have hfiles := h.files.addUnit a
  have hpartners : (f.addUnit a).partners = f.partners := by
    unfold Formula.addUnit
    split_ifs <;> rfl
  have hunits : ∀ b, b ∈ (f.addUnit a).units ↔ b ∈ f.units ∨ b = a := by
    intro b
    unfold Formula.addUnit
    split_ifs with hc
    · constructor
      · exact Or.inl
      · intro hor
        rcases hor with hb | rfl
        · exact hb
        · simpa using hc
    · simp
  refine ⟨?_, ?_, hfiles.partnersSize, ?_, hfiles.pool, hfiles.offsets⟩
  · rw [numVars_addUnit]; exact proper_append h.proper ha
  · intro b
    rw [hunits, h.units, List.mem_append, List.mem_singleton]
    simp
  · intro b c
    have := h.partners b c
    simp only [partnersOf, hpartners] at this ⊢
    simpa using this

/-- a new binary clause is added at the end of the partners of its two literals -/
theorem partnersOf_addBinary (h : Stores f cls) {a b : Lit} (hab : Proper f.numVars [a, b])
    (hnew : b ∉ f.partnersOf a) (x : Lit) :
    (f.addBinary a b).partnersOf x =
      f.partnersOf x ++ if x = a then [b] else if x = b then [a] else [] := by
  have hne : a.index ≠ b.index := by
    intro hi
    have hab' : a = b := Lit.ext_raw hi
    exact hab.pair.2.2 (congrArg Lit.var hab')
  have ha : a.index < f.partners.size := by
    rw [h.partnersSize]; exact Lit.raw_lt hab.pair.1.2
  have hb : b.index < f.partners.size := by
    rw [h.partnersSize]; exact Lit.raw_lt hab.pair.2.1.2
  have hxa : x.index = a.index ↔ x = a := ⟨Lit.ext_raw, fun e => e ▸ rfl⟩
  have hxb : x.index = b.index ↔ x = b := ⟨Lit.ext_raw, fun e => e ▸ rfl⟩
  rw [Formula.addBinary, if_neg (by simpa using hnew)]
  simp only [partnersOf, Array.getElem?_modify]
  by_cases h1 : x = a
  · subst h1
    simp [hne.symm, ha]
  · by_cases h2 : x = b
    · subst h2
      simp [hne, hb, h1]
    · have h1' : a.index ≠ x.index := fun e => h1 (hxa.1 e.symm)
      have h2' : b.index ≠ x.index := fun e => h2 (hxb.1 e.symm)
      simp [h1, h2, h1', h2']

theorem mem_partnersOf_comm (h : Stores f cls) {x y : Lit} : y ∈ f.partnersOf x ↔ x ∈ f.partnersOf y := by
  rw [h.partners, h.partners]
  exact or_comm

theorem mem_addBinary (h : Stores f cls) {a b : Lit} (hab : Proper f.numVars [a, b]) (x y : Lit) :
    y ∈ (f.addBinary a b).partnersOf x ↔ y ∈ f.partnersOf x ∨ (x = a ∧ y = b) ∨ (x = b ∧ y = a) := by
  refine ⟨mem_partnersOf_addBinary, fun hor => ?_⟩
  by_cases hb : b ∈ f.partnersOf a
  · rw [Formula.addBinary, if_pos (by simpa using hb)]
    rcases hor with hy | ⟨rfl, rfl⟩ | ⟨rfl, rfl⟩
    · exact hy
    · exact hb
    · exact h.mem_partnersOf_comm.1 hb
  · have hne : a ≠ b := fun e => hab.pair.2.2 (congrArg Lit.var e)
    rw [h.partnersOf_addBinary hab hb, List.mem_append]
    rcases hor with hy | ⟨rfl, rfl⟩ | ⟨rfl, rfl⟩
    · exact Or.inl hy
    · simp
    · simp [hne.symm]

theorem addBinary (h : Stores f cls) {a b : Lit} (hab : Proper f.numVars [a, b]) :
    Stores (f.addBinary a b) (cls ++ [[a, b]]) := by
  have hfiles := h.files.addBinary hab.pair.2.2
  have hunits : (f.addBinary a b).units = f.units := by
    unfold Formula.addBinary
    split_ifs <;> rfl
  refine ⟨?_, ?_, hfiles.partnersSize, ?_, hfiles.pool, hfiles.offsets⟩
  · rw [numVars_addBinary]; exact proper_append h.proper hab
  · intro c
    rw [hunits, h.units]
    simp
  · intro x y
    rw [h.mem_addBinary hab, h.partners]
    simp only [List.mem_append, List.mem_singleton, List.cons.injEq, and_true]
    tauto

theorem addLong (h : Stores f cls) {c : List Lit} (hc : Proper f.numVars c) (hlen : 3 ≤ c.length) :
    Stores (f.addLong c).1 (cls ++ [c]) := by
  have hfiles := h.files.addLong hc.nodup hlen
  have hshort : ∀ d : List Lit, d.length < 3 → (d ∈ cls ++ [c] ↔ d ∈ cls) := by
    intro d hd
    simp only [List.mem_append, List.mem_singleton, or_iff_left_iff_imp]
    intro heq
    subst heq
    omega
  refine ⟨proper_append h.proper hc, ?_, h.partnersSize, ?_, hfiles.pool, hfiles.offsets⟩
  · intro a
    rw [hshort _ (by simp)]; exact h.units a
  · intro a b
    rw [hshort _ (by simp), hshort _ (by simp)]; exact h.partners a b

end Stores

/-! ## Accepted formulas -/

/-- a clause that is accepted goes where its length says; only a long one gets an id -/
theorem addClause_cases {f f' : Formula} {clause : List ℤ} {id : Option ClauseId}
    (h : f.addClause clause = .ok (f', id)) :
    ∃ lits, validate f.numVars clause = .ok lits ∧
      ((∃ a, lits = [a] ∧ f' = f.addUnit a ∧ id = none) ∨
        (∃ a b, lits = [a, b] ∧ f' = f.addBinary a b ∧ id = none) ∨
        (lits.length ≠ 1 ∧ lits.length ≠ 2 ∧ f' = (f.addLong lits).1 ∧ id = some ⟨f.offsets.size⟩)) := by
  unfold addClause at h
  cases hv : validate f.numVars clause with
  | error e => rw [hv] at h; cases h
  | ok lits =>
    rw [hv] at h
    refine ⟨lits, rfl, ?_⟩
    match lits, h with
    | [a], h => cases h; exact .inl ⟨a, rfl, rfl, rfl⟩
    | [a, b], h => cases h; exact .inr (.inl ⟨a, b, rfl, rfl, rfl⟩)
    | [], h => cases h; exact .inr (.inr ⟨by simp, by simp, rfl, rfl⟩)
    | a :: b :: c :: lits, h => cases h; exact .inr (.inr ⟨by simp, by simp, rfl, rfl⟩)

theorem numVars_addClause {f f' : Formula} {clause : List ℤ} {id : Option ClauseId}
    (h : f.addClause clause = .ok (f', id)) : f'.numVars = f.numVars := by
  obtain ⟨lits, -, ⟨a, -, rfl, -⟩ | ⟨a, b, -, rfl, -⟩ | ⟨-, -, rfl, -⟩⟩ := addClause_cases h
  · exact numVars_addUnit f a
  · exact numVars_addBinary f a b
  · rfl

theorem three_le_of_ne {c : List Lit} (h0 : c ≠ []) (h1 : c.length ≠ 1) (h2 : c.length ≠ 2) : 3 ≤ c.length := by
  have := List.length_pos_iff.2 h0
  omega

theorem files_addClause {f f' : Formula} {cls : List (List Lit)} {clause : List ℤ} {id : Option ClauseId}
    (hf : Files f cls) (h : f.addClause clause = .ok (f', id)) : Files f' (cls ++ [clause.map Lit.ofInt]) := by
  obtain ⟨lits, hv, hcases⟩ := addClause_cases h
  obtain ⟨hl, hne, hnodup, -⟩ := validate_spec hv
  rw [← hl]
  obtain ⟨a, rfl, rfl, -⟩ | ⟨a, b, rfl, rfl, -⟩ | ⟨h1, h2, rfl, -⟩ := hcases
  · exact hf.addUnit a
  · exact hf.addBinary (by simpa using hnodup)
  · exact hf.addLong hnodup (three_le_of_ne (by rw [hl]; simpa using hne) h1 h2)

theorem stores_addClause {f f' : Formula} {cls : List (List Lit)} {clause : List ℤ} {id : Option ClauseId}
    (hf : Stores f cls) (hn : f.numVars < 2147483648) (h : f.addClause clause = .ok (f', id)) :
    Stores f' (cls ++ [clause.map Lit.ofInt]) := by
  obtain ⟨lits, hv, hcases⟩ := addClause_cases h
  obtain ⟨hl, hp⟩ := validate_eq hn hv
  rw [← hl]
  obtain ⟨a, rfl, rfl, -⟩ | ⟨a, b, rfl, rfl, -⟩ | ⟨h1, h2, rfl, -⟩ := hcases
  · exact hf.addUnit hp
  · exact hf.addBinary hp
  · exact hf.addLong hp (three_le_of_ne hp.nonempty h1 h2)

/-- what one more clause carries over holds of all the clauses in the end -/
theorem addClauses_induction {n : ℕ} {P : Formula → List (List Lit) → Prop}
    (hstep : ∀ f f' cls clause id, f.numVars = n → P f cls → f.addClause clause = .ok (f', id) →
      P f' (cls ++ [clause.map Lit.ofInt]))
    {f f' : Formula} {cls : List (List Lit)} {clauses : List (List ℤ)} (hn : f.numVars = n) (hf : P f cls)
    (h : f.addClauses clauses = (f', none)) : f'.numVars = n ∧ P f' (cls ++ clauses.map (·.map Lit.ofInt)) := by
  induction clauses generalizing f cls with
  | nil =>
    simp only [addClauses, Prod.mk.injEq, and_true] at h
    subst h
    exact ⟨hn, by simpa using hf⟩
  | cons clause rest ih =>
    simp only [addClauses] at h
    cases ha : f.addClause clause with
    | error e => rw [ha] at h; simp at h
    | ok r =>
      obtain ⟨g, id⟩ := r
      rw [ha] at h
      obtain ⟨h1, h2⟩ := ih ((numVars_addClause ha).trans hn) (hstep f g cls clause id hn hf ha) h
      exact ⟨h1, by simpa using h2⟩

theorem addClauses_of_ofClauses {n : ℕ} {clauses : List (List ℤ)} {f : Formula} (h : ofClauses n clauses = .ok f) :
    (empty n).addClauses clauses = (f, none) := by
  unfold ofClauses at h
  cases hc : (empty n).addClauses clauses with
  | mk g o =>
    rw [hc] at h
    cases o with
    | some e => cases h
    | none => cases h; rfl

/-- an accepted formula files the literals of its clauses -/
theorem files_of_ofClauses {n : ℕ} {clauses : List (List ℤ)} {f : Formula} (h : ofClauses n clauses = .ok f) :
    f.numVars = n ∧ Files f (clauses.map (·.map Lit.ofInt)) :=
  addClauses_induction (fun _ _ _ _ _ _ hf ha => files_addClause hf ha) rfl (.empty n) (addClauses_of_ofClauses h)

/-- an accepted formula stores the literals of its clauses -/
theorem stores_of_ofClauses {n : ℕ} {clauses : List (List ℤ)} {f : Formula} (hn : n < 2147483648)
    (h : ofClauses n clauses = .ok f) : f.numVars = n ∧ Stores f (clauses.map (·.map Lit.ofInt)) :=
  addClauses_induction (n := n) (fun _ _ _ _ _ hnum hf ha => stores_addClause hf (by omega) ha) rfl (stores_empty n)
    (addClauses_of_ofClauses h)

theorem validate_of_addClause {f : Formula} {clause : List ℤ} {r : Formula × Option ClauseId}
    (h : f.addClause clause = .ok r) : ∃ lits, validate f.numVars clause = .ok lits := by
  unfold addClause at h
  cases hv : validate f.numVars clause with
  | error e => rw [hv] at h; cases h
  | ok lits => exact ⟨lits, rfl⟩

/-- every clause of an accepted formula is valid for it -/
theorem validate_of_addClauses {clauses : List (List ℤ)} {g g' : Formula} (h : g.addClauses clauses = (g', none)) :
    ∀ clause ∈ clauses, ∃ lits, validate g.numVars clause = .ok lits := by
  induction clauses generalizing g with
  | nil => simp
  | cons clause rest ih =>
    intro c hc
    simp only [addClauses] at h
    cases ha : g.addClause clause with
    | error e => rw [ha] at h; simp at h
    | ok r =>
      rw [ha] at h
      rcases List.mem_cons.1 hc with rfl | hc
      · exact validate_of_addClause ha
      · have hnum : r.1.numVars = g.numVars := numVars_addClause ha
        rw [← hnum]
        exact ih h c hc

/-- the clauses of an accepted formula name variables of the formula, and never 0 -/
theorem within_of_ofClauses {n : ℕ} {clauses : List (List ℤ)} {f : Formula} (h : ofClauses n clauses = .ok f) :
    ∀ clause ∈ clauses, ∀ m ∈ clause, m ≠ 0 ∧ m.natAbs ≤ n := by
  intro clause hc m hm
  obtain ⟨lits, hv⟩ := validate_of_addClauses (addClauses_of_ofClauses h) clause hc
  exact (validate_spec hv).2.2.2 m hm

theorem natAbs_le_of_ofClauses {n : ℕ} {clauses : List (List ℤ)} {f : Formula} (h : ofClauses n clauses = .ok f) :
    ∀ clause ∈ clauses, ∀ m ∈ clause, m.natAbs ≤ n :=
  fun clause hc m hm => (within_of_ofClauses h clause hc m hm).2

/-! ## The clauses as a list -/

def literals (f : Formula) (c : ClauseId) : List Lit :=
  ((f.longClauses.find? fun p => p.1 == c).map Prod.snd).getD []

/-- the binary clauses, each once, the literal with the smaller word first -/
def binaryClauses (f : Formula) : List (List Lit) :=
  (List.range f.partners.size).flatMap fun i =>
    ((f.partnersOf ⟨i⟩).filter fun b => decide (i < b.raw)).map fun b => [⟨i⟩, b]

def clauses (f : Formula) : List (List Lit) :=
  f.units.map (fun a => [a]) ++ f.binaryClauses ++ f.longClauses.map Prod.snd

namespace Stores

variable {f : Formula} {cls : List (List Lit)}

theorem mem_longClauses_iff (h : Stores f cls) {c : ClauseId} {lits : List Lit} :
    (c, lits) ∈ f.longClauses ↔ c.Within f.numLong ∧ f.literals c = lits := by
  have hmem : ∀ c lits, (c, lits) ∈ f.longClauses ↔ 1 ≤ c.id ∧ (longs cls)[c.id - 1]? = some lits := by
    intro c lits
    rw [h.longClauses_eq]
    exact mem_numbered
  have hlits : ∀ c lits, (c, lits) ∈ f.longClauses → f.literals c = lits := by
    intro c lits hm
    unfold literals
    cases hf : f.longClauses.find? (fun p => p.1 == c) with
    | none =>
      rw [List.find?_eq_none] at hf
      exact absurd (by simp) (hf _ hm)
    | some p =>
      obtain ⟨c', lits'⟩ := p
      have hc : c' = c := by simpa using List.find?_some hf
      have h1 := (hmem c' lits').1 (List.mem_of_find?_eq_some hf)
      have h2 := (hmem c lits).1 hm
      rw [hc, h2.2] at h1
      simpa using h1.2.symm
  constructor
  · intro hm
    refine ⟨?_, hlits c lits hm⟩
    obtain ⟨h1, h2⟩ := (hmem c lits).1 hm
    obtain ⟨hlt, -⟩ := List.getElem?_eq_some_iff.1 h2
    rw [ClauseId.Within, h.numLong_eq]
    omega
  · intro hboth
    rcases hboth with ⟨⟨h1, h2⟩, rfl⟩
    rw [h.numLong_eq] at h2
    have hlt : c.id - 1 < (longs cls).length := by omega
    have hm := (hmem c (longs cls)[c.id - 1]).2 ⟨h1, List.getElem?_eq_getElem hlt⟩
    rw [hlits c _ hm]
    exact hm

theorem mem_snd_longClauses (h : Stores f cls) {lits : List Lit} :
    lits ∈ f.longClauses.map Prod.snd ↔ lits ∈ cls ∧ 3 ≤ lits.length := h.files.mem_snd_longClauses

theorem literals_mem (h : Stores f cls) {c : ClauseId} (hc : c.Within f.numLong) :
    f.literals c ∈ cls ∧ 3 ≤ (f.literals c).length :=
  h.mem_snd_longClauses.1 (List.mem_map.2 ⟨(c, f.literals c), h.mem_longClauses_iff.2 ⟨hc, rfl⟩, rfl⟩)

theorem partners_within (h : Stores f cls) {a b : Lit} (hb : b ∈ f.partnersOf a) :
    a.var.Within f.numVars ∧ b.var.Within f.numVars ∧ a.var ≠ b.var := by
  rcases (h.partners a b).1 hb with hc | hc
  · exact (h.proper _ hc).pair
  · obtain ⟨hb', ha', hne⟩ := (h.proper _ hc).pair
    exact ⟨ha', hb', hne.symm⟩

theorem mem_binaryClauses (h : Stores f cls) {c : List Lit} :
    c ∈ f.binaryClauses ↔ ∃ a b, c = [a, b] ∧ a.raw < b.raw ∧ b ∈ f.partnersOf a := by
  simp only [binaryClauses, List.mem_flatMap, List.mem_range, List.mem_map, List.mem_filter, decide_eq_true_iff]
  constructor
  · intro hex
    rcases hex with ⟨i, -, b, ⟨hb, hlt⟩, rfl⟩
    exact ⟨⟨i⟩, b, rfl, hlt, hb⟩
  · intro hex
    rcases hex with ⟨a, b, rfl, hlt, hb⟩
    refine ⟨a.raw, ?_, b, ⟨hb, hlt⟩, rfl⟩
    rw [h.partnersSize]
    exact Lit.raw_lt (h.partners_within hb).1.2

theorem exists_perm_of_mem_clauses (h : Stores f cls) {c : List Lit} (hc : c ∈ f.clauses) :
    ∃ d ∈ cls, c.Perm d := by
  simp only [clauses, List.mem_append] at hc
  rcases hc with (hc | hc) | hc
  · obtain ⟨a, ha, rfl⟩ := List.mem_map.1 hc
    exact ⟨[a], (h.units a).1 ha, List.Perm.refl _⟩
  · obtain ⟨a, b, rfl, -, hb⟩ := h.mem_binaryClauses.1 hc
    rcases (h.partners a b).1 hb with hm | hm
    · exact ⟨_, hm, List.Perm.refl _⟩
    · exact ⟨_, hm, List.Perm.swap _ _ _⟩
  · exact ⟨c, (h.mem_snd_longClauses.1 hc).1, List.Perm.refl _⟩

theorem exists_perm_of_mem (h : Stores f cls) {d : List Lit} (hd : d ∈ cls) : ∃ c ∈ f.clauses, c.Perm d := by
  have hp := h.proper d hd
  simp only [clauses, List.mem_append]
  match d, hd, hp with
  | [], _, hp => exact absurd rfl hp.nonempty
  | [a], hd, _ => exact ⟨[a], Or.inl (Or.inl (List.mem_map.2 ⟨a, (h.units a).2 hd, rfl⟩)), List.Perm.refl _⟩
  | [a, b], hd, hp =>
    have hne : a.raw ≠ b.raw := fun e => hp.pair.2.2 (congrArg Lit.var (Lit.ext_raw e))
    rcases Nat.lt_or_gt_of_ne hne with hlt | hlt
    · refine ⟨[a, b], Or.inl (Or.inr (h.mem_binaryClauses.2 ⟨a, b, rfl, hlt, ?_⟩)), List.Perm.refl _⟩
      exact (h.partners a b).2 (Or.inl hd)
    · refine ⟨[b, a], Or.inl (Or.inr (h.mem_binaryClauses.2 ⟨b, a, rfl, hlt, ?_⟩)), List.Perm.swap _ _ _⟩
      exact (h.partners b a).2 (Or.inr hd)
  | a :: b :: c :: rest, hd, _ =>
    exact ⟨_, Or.inr (h.mem_snd_longClauses.2 ⟨hd, by simp⟩), List.Perm.refl _⟩

theorem proper_of_mem_clauses (h : Stores f cls) {c : List Lit} (hc : c ∈ f.clauses) : Proper f.numVars c := by
  obtain ⟨d, hd, hp⟩ := h.exists_perm_of_mem_clauses hc
  have hpd := h.proper d hd
  refine ⟨?_, ?_, ?_⟩
  · intro e
    rw [e] at hp
    exact hpd.nonempty hp.nil_eq.symm
  · exact (hp.map Lit.var).nodup_iff.2 hpd.nodup
  · intro l hl
    exact hpd.within l (hp.subset hl)

end Stores

end ModelCount.Formula
