/-
Visiting one clause: what meeting its literals does, and what undoing it restores.

`Met values e₀ ms e` compares the state before the literals `ms` were met with the state after: their unseen
variables are reached, in clause order, and every literal without a value has scored once. The visit of a longer
clause meets all its other literals (`scan_spec`), unless one of them belongs to no candidate and is not false;
then the marks, the reached variables and the scores are what they were and the clause is excluded (`Undone`).
-/
import Mathlib.Tactic
import ModelCount.Explorer
import ModelCount.Proofs.Marks
import ModelCount.Proofs.Connection

namespace ModelCount.Explorer

def scoreOf (e : Explorer) (v : Var) : ℕ := e.scores[v.index]?.getD 0

/-- the links are those of the formula, and all its variables and long clauses have their cells; marks, scores and
reached variables may be anything -/
structure Fits (f : Formula) (e : Explorer) : Prop where
  maxVar : e.maxVar = f.maxVar
  adjacency : e.adjacency = .ofFormula f
  scores : e.scores.size = f.numVars + 1
  slots : e.marks.numSlots = max f.numVars f.numLong + 1

/-- the variables up to `n` and the long clauses up to `k` have their cells; the links may be anything -/
structure Roomy (n k : ℕ) (e : Explorer) : Prop where
  scores : n < e.scores.size
  vars : n < e.marks.numSlots
  clauses : k < e.marks.numSlots

namespace Roomy

variable {n k : ℕ} {e : Explorer} {v : Var} {c : ClauseId}

theorem index_lt_scores (h : e.Roomy n k) (hv : v.Within n) : v.index < e.scores.size := hv.2.trans_lt h.scores

theorem index_lt_slots (h : e.Roomy n k) (hv : v.Within n) : v.index < e.marks.numSlots := hv.2.trans_lt h.vars

theorem clause_lt_slots (h : e.Roomy n k) (hc : c.Within k) : c.index < e.marks.numSlots := hc.2.trans_lt h.clauses

end Roomy

namespace Fits

variable {f : Formula} {e : Explorer} {v : Var} {c : ClauseId}

theorem roomy (h : e.Fits f) : e.Roomy f.numVars f.numLong where
  scores := by rw [h.scores]; exact Nat.lt_succ_self _
  vars := by rw [h.slots]; exact Nat.lt_succ_of_le (le_max_left _ _)
  clauses := by rw [h.slots]; exact Nat.lt_succ_of_le (le_max_right _ _)

theorem index_lt_scores (h : e.Fits f) (hv : v.Within f.numVars) : v.index < e.scores.size :=
  h.roomy.index_lt_scores hv

theorem index_lt_slots (h : e.Fits f) (hv : v.Within f.numVars) : v.index < e.marks.numSlots :=
  h.roomy.index_lt_slots hv

theorem clause_lt_slots (h : e.Fits f) (hc : c.Within f.numLong) : c.index < e.marks.numSlots :=
  h.roomy.clause_lt_slots hc

end Fits

/-- the explorer that is built with a formula -/
theorem fits_ofFormula (f : Formula) : (ofFormula f).Fits f :=
  ⟨rfl, rfl, by simp [ofFormula, Formula.maxVar, Var.index],
    by simp [ofFormula, Marks.numSlots, Marks.sized, Formula.maxVar, Formula.maxClause, Var.index, ClauseId.index]⟩

/-- the same links, cells and bound super-component -/
structure Alike (e e' : Explorer) : Prop where
  maxVar : e'.maxVar = e.maxVar
  maxClause : e'.maxClause = e.maxClause
  adjacency : e'.adjacency = e.adjacency
  scores : e'.scores.size = e.scores.size
  slots : e'.marks.numSlots = e.marks.numSlots
  binding : e'.marks.binding = e.marks.binding

theorem Alike.refl (e : Explorer) : Alike e e := ⟨rfl, rfl, rfl, rfl, rfl, rfl⟩

theorem Alike.trans {e e' e'' : Explorer} (h : Alike e e') (h' : Alike e' e'') : Alike e e'' :=
  ⟨h'.maxVar.trans h.maxVar, h'.maxClause.trans h.maxClause, h'.adjacency.trans h.adjacency,
    h'.scores.trans h.scores, h'.slots.trans h.slots, h'.binding.trans h.binding⟩

theorem Alike.fits {f : Formula} {e e' : Explorer} (h : Alike e e') (hf : e.Fits f) : e'.Fits f :=
  ⟨h.maxVar.trans hf.maxVar, h.adjacency.trans hf.adjacency, h.scores.trans hf.scores, h.slots.trans hf.slots⟩

theorem Alike.roomy {n k : ℕ} {e e' : Explorer} (h : Alike e e') (hr : e.Roomy n k) : e'.Roomy n k :=
  ⟨hr.scores.trans_eq h.scores.symm, hr.vars.trans_eq h.slots.symm, hr.clauses.trans_eq h.slots.symm⟩

/-! ## Scores -/

def withScore (e : Explorer) (v : Var) (s : ℕ) : Explorer := { e with scores := e.scores.setIfInBounds v.index s }

theorem score_eq {e : Explorer} {v : Var} (h : v.index < e.scores.size) : e.score v = .ok (e.scoreOf v) := by
  unfold score scoreOf
  rw [Array.getElem?_eq_getElem h]
  rfl

theorem score_congr {e e' : Explorer} {v : Var} (hsize : e'.scores.size = e.scores.size)
    (h : e'.scoreOf v = e.scoreOf v) : e'.score v = e.score v := by
  by_cases hlt : v.index < e.scores.size
  · rw [score_eq hlt, score_eq (hsize ▸ hlt), h]
  · unfold score
    rw [Array.getElem?_eq_none (Nat.not_lt.1 hlt), Array.getElem?_eq_none (Nat.not_lt.1 (hsize ▸ hlt))]

theorem scoreOf_ofFormula (f : Formula) (v : Var) : (ofFormula f).scoreOf v = 0 := by
  unfold scoreOf ofFormula
  rw [Array.getElem?_replicate]
  split_ifs <;> rfl

theorem scoreOf_withScore {e : Explorer} {v w : Var} {s : ℕ} (h : v.index < e.scores.size) :
    (e.withScore v s).scoreOf w = if w = v then s else e.scoreOf w := by
  unfold scoreOf withScore
  simp only [Array.getElem?_setIfInBounds]
  by_cases hw : w = v
  · subst hw; simp [h]
  · have : v.index ≠ w.index := fun e => hw (Marks.Var.index_inj.1 e).symm
    simp [hw, this]

theorem alike_withScore (e : Explorer) (v : Var) (s : ℕ) : Alike e (e.withScore v s) :=
  ⟨rfl, rfl, rfl, by simp [withScore], rfl, rfl⟩

/-- a score is full: that of a variable in `P` which comes to the limit with `points` more points -/
def ScoreFull (P : Var → Prop) (points : ℕ) (e : Explorer) (fault : Fault) : Prop :=
  fault = .scoreFull ∧ ∃ v, P v ∧ 4294967296 ≤ e.scoreOf v + points

theorem ScoreFull.mono {P P' : Var → Prop} {points points' : ℕ} {e e' : Explorer} {fault : Fault}
    (h : ScoreFull P points e fault) (hP : ∀ v, P v → P' v)
    (hle : ∀ v, P v → e.scoreOf v + points ≤ e'.scoreOf v + points') : ScoreFull P' points' e' fault := by
  obtain ⟨hfault, v, hv, hfull⟩ := h
  exact ⟨hfault, v, hP v hv, hfull.trans (hle v hv)⟩

theorem raise_spec {e : Explorer} {v : Var} (h : v.index < e.scores.size) :
    Ends (ScoreFull (· = v) 1 e) (e.raise v) fun e' => e' = e.withScore v (e.scoreOf v + 1) := by
  unfold raise
  apply Ends.bind_of_eq (score_eq h)
  split_ifs with hlt
  · exact rfl
  · exact ⟨rfl, v, rfl, Nat.not_lt.1 hlt⟩

theorem lower_eq {e : Explorer} {v : Var} (h : v.index < e.scores.size) (hpos : 0 < e.scoreOf v) :
    e.lower v = .ok (e.withScore v (e.scoreOf v - 1)) := by
  rw [lower, score_eq h, Except.ok_bind, if_pos hpos]
  rfl

/-! ## Reaching -/

theorem touch_eq {e : Explorer} {v : Var} (h : v.index < e.marks.numSlots) :
    e.touch v = .ok (if e.marks.varMark v = .unseen then e.reach v else e) := by
  rw [touch, Marks.var_eq h, Except.ok_bind]
  split_ifs <;> rfl

theorem alike_reach (e : Explorer) (v : Var) : Alike e (e.reach v) :=
  ⟨rfl, rfl, rfl, rfl, Marks.numSlots_putVar, rfl⟩

/-- `e` comes from `e₀` by reaching the unseen ones among some variables, in their order -/
structure Reaches (e₀ : Explorer) (ws : List Var) (e : Explorer) : Prop where
  alike : Alike e₀ e
  reached : e.reached.toList = e₀.reached.toList ++ ws.filter fun v => e₀.marks.varMark v == .unseen
  varMark : ∀ v, e.marks.varMark v =
    if v ∈ ws ∧ e₀.marks.varMark v = .unseen then .seen else e₀.marks.varMark v
  clauseMark : ∀ c, e.marks.clauseMark c = e₀.marks.clauseMark c

theorem Reaches.nil (e : Explorer) : Reaches e [] e :=
  ⟨Alike.refl e, by simp, fun v => by simp, fun c => rfl⟩

theorem Reaches.of_score {e₀ e : Explorer} {ws : List Var} (h : Reaches e₀ ws e) (v : Var) (s : ℕ) :
    Reaches e₀ ws (e.withScore v s) :=
  ⟨h.alike.trans (alike_withScore e v s), h.reached, h.varMark, h.clauseMark⟩

/-- one more variable -/
theorem Reaches.touch {e₀ e : Explorer} {ws : List Var} (h : Reaches e₀ ws e) {w : Var} (hw : w ∉ ws)
    (hlt : w.index < e₀.marks.numSlots) :
    Reaches e₀ (ws ++ [w]) (if e.marks.varMark w = .unseen then e.reach w else e) := by
  have hmark : e.marks.varMark w = e₀.marks.varMark w := by
    rw [h.varMark, if_neg (fun hc => hw hc.1)]
  have hlt' : w.index < e.marks.numSlots := by rw [h.alike.slots]; exact hlt
  by_cases hu : e₀.marks.varMark w = .unseen
  · rw [if_pos (hmark.trans hu)]
    refine ⟨h.alike.trans (alike_reach e w), ?_, fun v => ?_, fun c => ?_⟩
    · simp [reach, h.reached, hu]
    · simp only [reach, Marks.varMark_putVar hlt', h.varMark, List.mem_append, List.mem_singleton]
      by_cases hv : v = w
      · subst hv
        simp [hu]
      · simp [hv]
    · simp [reach, h.clauseMark]
  · rw [if_neg (fun hc => hu (hmark.symm.trans hc))]
    refine ⟨h.alike, ?_, fun v => ?_, h.clauseMark⟩
    · simp [h.reached, hu]
    · rw [h.varMark]
      by_cases hv : v = w
      · subst hv
        simp [hu]
      · simp [hv]

/-! ## Meeting literals -/

structure Met (values : Assignment) (e₀ : Explorer) (ms : List Lit) (e : Explorer) : Prop where
  reaches : Reaches e₀ (ms.map Lit.var) e
  score : ∀ v, e.scoreOf v =
    e₀.scoreOf v + ms.countP fun l => decide (l.var = v) && values.val l == .unassigned

theorem Met.nil (values : Assignment) (e : Explorer) : Met values e [] e :=
  ⟨Reaches.nil e, fun v => by simp⟩

variable {n k : ℕ} {values : Assignment}

/-- a variable that is not met keeps its score -/
theorem Met.scoreOf_eq {e₀ e : Explorer} {ms : List Lit} (h : Met values e₀ ms e) {v : Var}
    (hv : v ∉ ms.map Lit.var) : e.scoreOf v = e₀.scoreOf v := by
  rw [h.score, List.countP_eq_zero.2, Nat.add_zero]
  intro l hl
  have hne : l.var ≠ v := fun heq => hv (heq ▸ List.mem_map_of_mem hl)
  simp [hne]

theorem meet_spec {e₀ e : Explorer} {ms : List Lit} {l : Lit} (hf : e₀.Roomy n k) (hv : values.Fits n)
    (h : Met values e₀ ms e) (hl : l.var.Within n) (hnew : l.var ∉ ms.map Lit.var) :
    Ends (ScoreFull (fun v => v = l.var ∧ values.val l = .unassigned) 1 e₀) (e.meet values l)
      (Met values e₀ (ms ++ [l])) := by
  have hfe : e.Roomy n k := h.reaches.alike.roomy hf
  have hslots := hf.index_lt_slots hl
  have hcount : ∀ v, (ms ++ [l]).countP (fun l => decide (l.var = v) && values.val l == .unassigned) =
      ms.countP (fun l => decide (l.var = v) && values.val l == .unassigned) +
        if l.var = v ∧ values.val l = .unassigned then 1 else 0 := by
    intro v
    rw [List.countP_append, List.countP_singleton]
    simp
  unfold meet
  apply Ends.bind_of_eq (hv.isActive_eq hl)
  by_cases ha : values.val l = .unassigned
  · rw [if_pos (by simp [ha])]
    refine ((raise_spec (hfe.index_lt_scores hl)).weaken fun fault hfull => ?_).bind ?_
    · refine hfull.mono (fun v hvl => ⟨hvl, ha⟩) fun v hvl => ?_
      rw [hvl, h.scoreOf_eq hnew]
    intro e' heq
    subst heq
    rw [touch_eq ((alike_withScore e _ _).roomy hfe |>.index_lt_slots hl)]
    have hr := (h.reaches.of_score l.var (e.scoreOf l.var + 1)).touch hnew hslots
    refine ⟨by simpa using hr, fun v => ?_⟩
    have hs : ∀ v, (e.withScore l.var (e.scoreOf l.var + 1)).scoreOf v =
        if v = l.var then e.scoreOf l.var + 1 else e.scoreOf v :=
      fun v => scoreOf_withScore (hfe.index_lt_scores hl)
    have hif : ∀ x : Explorer, (if x.marks.varMark l.var = .unseen then x.reach l.var else x).scoreOf v =
        x.scoreOf v := by
      intro x; split_ifs <;> rfl
    rw [hif, hs, hcount, h.score v, h.score l.var]
    by_cases hvl : v = l.var
    · subst hvl
      simp [ha, Nat.add_assoc]
    · have : l.var ≠ v := fun e => hvl e.symm
      simp [hvl, this]
  · rw [if_neg (by simp [ha]), touch_eq (hfe.index_lt_slots hl)]
    have hr := h.reaches.touch hnew hslots
    refine ⟨by simpa using hr, fun v => ?_⟩
    have hif : (if e.marks.varMark l.var = .unseen then e.reach l.var else e).scoreOf v = e.scoreOf v := by
      split_ifs <;> rfl
    rw [hif, h.score, hcount]
    simp [ha]

/-! ## Excluding a clause -/

/-- `e` differs from `e₀` only in that the clause is excluded -/
structure Undone (e₀ : Explorer) (c : ClauseId) (e : Explorer) : Prop where
  alike : Alike e₀ e
  reached : e.reached.toList = e₀.reached.toList
  varMark : ∀ v, e.marks.varMark v = e₀.marks.varMark v
  clauseMark : ∀ d, e.marks.clauseMark d = if d = c then .outside else e₀.marks.clauseMark d
  score : ∀ v, e.scoreOf v = e₀.scoreOf v

/-- giving the points of met literals back, in any order -/
theorem foldlM_unmeet {e : Explorer} {ms : List Lit} {base : Var → ℕ} (hf : e.Roomy n k) (hv : values.Fits n)
    (hw : ∀ l ∈ ms, l.var.Within n)
    (hs : ∀ v, e.scoreOf v = base v + ms.countP fun l => decide (l.var = v) && values.val l == .unassigned) :
    ∃ scores, ms.foldlM (unmeet values) e = .ok { e with scores := scores } ∧ scores.size = e.scores.size ∧
      ∀ v, ({ e with scores := scores } : Explorer).scoreOf v = base v := by
  induction ms generalizing e with
  | nil => exact ⟨e.scores, rfl, rfl, fun v => by simpa using hs v⟩
  | cons l ms ih =>
    have hl := hw l (by simp)
    have hlt := hf.index_lt_scores hl
    have hstep : ∃ s, unmeet values e l = .ok { e with scores := s } ∧ s.size = e.scores.size ∧
        ∀ v, ({ e with scores := s } : Explorer).scoreOf v =
          base v + ms.countP fun l => decide (l.var = v) && values.val l == .unassigned := by
      rw [unmeet, hv.isActive_eq hl, Except.ok_bind]
      by_cases ha : values.val l = .unassigned
      · have hpos : e.scoreOf l.var = base l.var +
            ms.countP (fun m => decide (m.var = l.var) && values.val m == .unassigned) + 1 := by
          rw [hs, List.countP_cons]
          simp [ha, Nat.add_assoc]
        rw [if_pos (by simp [ha]), lower_eq hlt (by omega)]
        refine ⟨_, rfl, by simp, fun v => ?_⟩
        apply (scoreOf_withScore hlt).trans
        by_cases hvl : v = l.var
        · subst hvl
          rw [if_pos rfl, hpos]
          omega
        · have : l.var ≠ v := fun e => hvl e.symm
          rw [if_neg hvl, hs, List.countP_cons]
          simp [this]
      · rw [if_neg (by simp [ha])]
        refine ⟨e.scores, rfl, rfl, fun v => ?_⟩
        apply (hs v).trans
        rw [List.countP_cons]
        simp [ha]
    obtain ⟨s, h1, h2, h3⟩ := hstep
    obtain ⟨s', k1, k2, k3⟩ := @ih { e with scores := s }
      ⟨hf.scores.trans_eq h2.symm, hf.vars, hf.clauses⟩ (fun m hm => hw m (List.mem_cons_of_mem _ hm)) h3
    refine ⟨s', ?_, k2.trans h2, k3⟩
    rw [List.foldlM_cons, h1, Except.ok_bind, k1]

/-- **Exact rollback.** Undoing the visit of a clause restores everything but the mark of the clause. -/
theorem undo_eq {e₀ e : Explorer} {ms : List Lit} {c : ClauseId} (hf : e₀.Roomy n k) (hv : values.Fits n)
    (hw : ∀ l ∈ ms, l.var.Within n) (hc : c.Within k) (h : Met values e₀ ms.reverse e) :
    ∃ e', e.undo values c e₀.reached.size ms = .ok e' ∧ Undone e₀ c e' := by
  have hfe : e.Roomy n k := h.reaches.alike.roomy hf
  set released := (e.reached.extract e₀.reached.size e.reached.size).toList
  have hrel : released = (ms.reverse.map Lit.var).filter fun v => e₀.marks.varMark v == .unseen := by
    have hsize : ∀ a : Array Var, a.size = a.toList.length := fun a => Array.length_toList.symm
    simp only [released, Array.toList_extract, List.extract_eq_take_drop]
    rw [h.reaches.reached, hsize e₀.reached, List.drop_left, hsize, h.reaches.reached]
    exact List.take_of_length_le (by simp)
  have hmem : ∀ v, v ∈ released ↔ v ∈ ms.reverse.map Lit.var ∧ e₀.marks.varMark v = .unseen := by
    intro v; rw [hrel]; simp
  have hslots : ∀ v ∈ released, v.index < e.marks.numSlots := by
    intro v hvr
    obtain ⟨l, hl, rfl⟩ := List.mem_map.1 ((hmem v).1 hvr).1
    exact hfe.index_lt_slots (hw l (List.mem_reverse.1 hl))
  obtain ⟨m, h1, h2, h3, h4, h5⟩ := Marks.setVars_eq (x := .unseen) hslots
  set e1 : Explorer := { e with marks := m.putClause c .outside, reached := e.reached.shrink e₀.reached.size }
  have hslots1 : e1.marks.numSlots = e.marks.numSlots := Marks.numSlots_putClause.trans h2
  have he1 : e1.Roomy n k :=
    ⟨hfe.scores, hfe.vars.trans_eq hslots1.symm, hfe.clauses.trans_eq hslots1.symm⟩
  obtain ⟨scores, k1, k2, k3⟩ := @foldlM_unmeet n k values e1 ms e₀.scoreOf he1 hv hw (by
    intro v
    rw [show e1.scoreOf v = e.scoreOf v from rfl, h.score, List.countP_reverse])
  refine ⟨_, ?_, ?_, ?_, fun v => ?_, fun d => ?_, k3⟩
  · unfold undo
    simp only
    rw [h1, Except.ok_bind]
    exact k1
  · exact ⟨h.reaches.alike.maxVar, h.reaches.alike.maxClause, h.reaches.alike.adjacency,
      k2.trans h.reaches.alike.scores, hslots1.trans h.reaches.alike.slots, h3.trans h.reaches.alike.binding⟩
  · show (e.reached.shrink e₀.reached.size).toList = e₀.reached.toList
    rw [Array.toList_shrink, h.reaches.reached, ← Array.length_toList, List.take_left]
  · show (m.putClause c .outside).varMark v = _
    rw [Marks.varMark_putClause, h4, h.reaches.varMark]
    by_cases hvr : v ∈ released
    · rw [if_pos hvr, ((hmem v).1 hvr).2]
    · rw [if_neg hvr, if_neg (fun hh => hvr ((hmem v).2 hh))]
  · show (m.putClause c .outside).clauseMark d = _
    rw [Marks.clauseMark_putClause (by rw [h2]; exact hfe.clause_lt_slots hc), h5, h.reaches.clauseMark]

/-! ## The visit of a longer clause -/

/-- a literal through which a clause may be satisfied from outside -/
def Open (values : Assignment) (e : Explorer) (l : Lit) : Prop :=
  e.marks.varMark l.var = .outside ∧ values.val l ≠ .isFalse

instance (values : Assignment) (e : Explorer) (l : Lit) : Decidable (Open values e l) :=
  inferInstanceAs (Decidable (_ ∧ _))

/-- what a scan may end with: an open literal excludes the clause, otherwise all literals were met -/
def Scanned (values : Assignment) (e₀ : Explorer) (c : ClauseId) (lits : List Lit) (r : Option Bool × Explorer) :
    Prop :=
  ((∃ l ∈ lits, Open values e₀ l) ∧ r.1 = none ∧ Undone e₀ c r.2) ∨
    ((∀ l ∈ lits, ¬ Open values e₀ l) ∧ Met values e₀ lits r.2 ∧
      ∃ b, r.1 = some b ∧ (b = true ↔ ∀ l ∈ lits, e₀.marks.varMark l.var ≠ .outside))

/-- a scan gives points to active variables that are not outside -/
def Scored (values : Assignment) (e : Explorer) (lits : List Lit) (v : Var) : Prop :=
  (∃ l ∈ lits, l.var = v ∧ values.val l = .unassigned) ∧ e.marks.varMark v ≠ .outside

/-- the middle of a scan: the literals that were met are not open, and the flag says whether some of them are outside -/
structure Scanning (values : Assignment) (e₀ : Explorer) (ms : List Lit) (allActive : Bool) (e : Explorer) : Prop where
  met : Met values e₀ ms e
  closed : ∀ l ∈ ms, ¬ Open values e₀ l
  flag : allActive = true ↔ ∀ l ∈ ms, e₀.marks.varMark l.var ≠ .outside

namespace Scanning

variable {e₀ e e' : Explorer} {ms : List Lit} {allActive : Bool} {l : Lit}

theorem nil (values : Assignment) (e : Explorer) : Scanning values e [] true e := ⟨.nil values e, by simp, by simp⟩

/-- a literal that was not met yet has its mark -/
theorem varMark (h : Scanning values e₀ ms allActive e) (hnew : l.var ∉ ms.map Lit.var) :
    e.marks.varMark l.var = e₀.marks.varMark l.var := by
  rw [h.met.reaches.varMark, if_neg (fun hm => hnew hm.1)]

theorem closed_append (h : Scanning values e₀ ms allActive e) (hl : ¬ Open values e₀ l) :
    ∀ m ∈ ms ++ [l], ¬ Open values e₀ m := by
  intro m hm
  rcases List.mem_append.1 hm with hm | hm
  · exact h.closed m hm
  · rwa [List.mem_singleton.1 hm]

/-- a false literal from outside is passed over -/
theorem skip (h : Scanning values e₀ ms allActive e) (hout : e₀.marks.varMark l.var = .outside)
    (hfalse : values.val l = .isFalse) (hnew : l.var ∉ ms.map Lit.var) (hlt : l.var.index < e₀.marks.numSlots) :
    Scanning values e₀ (ms ++ [l]) false e := by
  refine ⟨⟨?_, fun v => ?_⟩, h.closed_append fun hopen => hopen.2 hfalse, by simp [hout]⟩
  · have hr := h.met.reaches.touch hnew hlt
    rw [if_neg (by rw [h.varMark hnew, hout]; simp)] at hr
    simpa using hr
  · rw [h.met.score, List.countP_append]
    simp [hfalse]

/-- a literal from inside is met -/
theorem meet (h : Scanning values e₀ ms allActive e) (hin : e₀.marks.varMark l.var ≠ .outside)
    (hmet : Met values e₀ (ms ++ [l]) e') : Scanning values e₀ (ms ++ [l]) allActive e' := by
  refine ⟨hmet, h.closed_append fun hopen => hin hopen.1, ?_⟩
  rw [h.flag]
  simp [or_imp, forall_and, hin]

end Scanning

theorem scan_aux {e₀ : Explorer} {c : ClauseId} (hf : e₀.Roomy n k) (hv : values.Fits n)
    (hc : c.Within k) {rest met : List Lit} {allActive : Bool} {e : Explorer}
    (hw : ∀ l ∈ met.reverse ++ rest, l.var.Within n) (hd : ((met.reverse ++ rest).map Lit.var).Nodup)
    (h : Scanning values e₀ met.reverse allActive e) :
    Ends (ScoreFull (Scored values e₀ (met.reverse ++ rest)) 1 e₀)
      (scan values c e₀.reached.size met rest allActive e).result (Scanned values e₀ c (met.reverse ++ rest)) := by
  induction rest generalizing met allActive e with
  | nil =>
    rw [List.append_nil]
    exact Or.inr ⟨h.closed, h.met, allActive, rfl, h.flag⟩
  | cons l rest ih =>
    have hfe : e.Roomy n k := h.met.reaches.alike.roomy hf
    have hl : l.var.Within n := hw l (by simp)
    have hnew : l.var ∉ met.reverse.map Lit.var := by
      rw [List.map_append, List.nodup_append] at hd
      exact fun hm => hd.2.2 _ hm _ (by simp) rfl
    have happ : met.reverse ++ l :: rest = (l :: met).reverse ++ rest := by simp
    rw [scan]
    simp only [Traced.result_bind, Traced.result_lift]
    apply Ends.bind_of_eq (Marks.var_eq (hfe.index_lt_slots hl))
    rw [h.varMark hnew]
    by_cases hout : e₀.marks.varMark l.var = .outside
    · rw [if_neg (by simp [hout])]
      simp only [Traced.result_bind, Traced.result_lift]
      apply Ends.bind_of_eq (hv.isResolved_eq hl)
      by_cases hfalse : values.val l = .isFalse
      · rw [if_pos (by simp [hfalse]), happ]
        refine ih (happ ▸ hw) (happ ▸ hd) ?_
        rw [List.reverse_cons]
        exact h.skip hout hfalse hnew (hf.index_lt_slots hl)
      · rw [if_neg (by simp [hfalse])]
        simp only [Traced.result_bind, Traced.result_lift, Traced.result_emit]
        obtain ⟨e', h1, h2⟩ := undo_eq hf hv
          (fun m hm => hw m (List.mem_append_left _ (List.mem_reverse.2 hm))) hc h.met
        refine Ends.bind_of_eq rfl (Ends.bind_of_eq h1 ?_)
        exact Or.inl ⟨⟨l, by simp, hout, hfalse⟩, rfl, h2⟩
    · rw [if_pos hout]
      simp only [Traced.result_bind, Traced.result_lift]
      refine ((meet_spec hf hv h.met hl hnew).weaken fun fault hfull => ?_).bind fun e' he' => ?_
      · refine hfull.mono (fun v hvl => ?_) fun v _ => le_rfl
        obtain ⟨rfl, ha⟩ := hvl
        exact ⟨⟨l, by simp, rfl, ha⟩, hout⟩
      rw [happ]
      refine ih (happ ▸ hw) (happ ▸ hd) ?_
      rw [List.reverse_cons]
      exact h.meet hout he'

theorem scan_spec {e₀ : Explorer} {c : ClauseId} (hf : e₀.Roomy n k) (hv : values.Fits n)
    (hc : c.Within k) {lits : List Lit} (hw : ∀ l ∈ lits, l.var.Within n)
    (hd : (lits.map Lit.var).Nodup) :
    Ends (ScoreFull (Scored values e₀ lits) 1 e₀) (scan values c e₀.reached.size [] lits true e₀).result
      (Scanned values e₀ c lits) :=
  @scan_aux n k values e₀ c hf hv hc lits [] true e₀ hw hd (Scanning.nil values e₀)

/-! ## Whole visits -/

variable {e₀ e : Explorer} {v : Var} {c : ClauseId} {lits : List Lit}

/-- literals of distinct variables give a variable a point if one of them is its own and has no value -/
theorem countP_met (hd : (lits.map Lit.var).Nodup) (w : Var) :
    lits.countP (fun l => decide (l.var = w) && values.val l == .unassigned) =
      if ∃ l ∈ lits, l.var = w ∧ values.val l = .unassigned then 1 else 0 := by
  induction lits with
  | nil => simp
  | cons l lits ih =>
    obtain ⟨hnew, hd'⟩ := List.nodup_cons.1 hd
    rw [List.countP_cons, ih hd']
    by_cases hl : l.var = w
    · -- no later literal has the variable of this one
      have hnone : ¬ ∃ m ∈ lits, m.var = w ∧ values.val m = .unassigned := by
        intro hex
        obtain ⟨m, hm, hmw, -⟩ := hex
        exact hnew (hl ▸ hmw ▸ List.mem_map_of_mem hm)
      simp [hl, hnone]
    · simp [hl]

/-- `e` comes from `e₀` by pulling `w` in from `v`: it is reached, and both have one point more -/
structure Fetches (e₀ : Explorer) (v w : Var) (e : Explorer) : Prop where
  reaches : Reaches e₀ [w] e
  score : ∀ u, e.scoreOf u = e₀.scoreOf u + if u = v ∨ u = w then 1 else 0

/-- **Visiting a clause of length two** from a variable that is not unseen pulls the other one in, if that is unseen. -/
theorem visitBinary_ends {w : Var} (he : e.Roomy n k) (hv : v.Within n) (hw : w.Within n)
    (hseen : e.marks.varMark v ≠ .unseen) :
    Ends (ScoreFull (fun u => e.marks.varMark w = .unseen ∧ (u = v ∨ u = w)) 1 e) (e.visitBinary v w) fun e' =>
      (e.marks.varMark w ≠ .unseen ∧ e' = e) ∨ (e.marks.varMark w = .unseen ∧ Fetches e v w e') := by
  unfold visitBinary
  refine Ends.bind_of_eq (Marks.var_eq (he.index_lt_slots hw)) ?_
  split_ifs with hu
  · have hne : v ≠ w := by
      rintro rfl
      exact hseen hu
    have hr : Reaches e [w] (e.reach w) := by
      have htouch := (Reaches.nil e).touch (w := w) (by simp) (he.index_lt_slots hw)
      rwa [if_pos hu] at htouch
    have hlt : w.index < (e.reach w).scores.size := he.index_lt_scores hw
    refine ((raise_spec hlt).weaken fun fault hfull => ?_).bind ?_
    · exact hfull.mono (fun u hu' => ⟨hu, Or.inr hu'⟩) fun _ _ => le_rfl
    intro e1 heq
    have hr1 : Reaches e [w] e1 := heq ▸ hr.of_score w _
    have hscore : ∀ u, e1.scoreOf u = if u = w then e.scoreOf w + 1 else e.scoreOf u := fun u => by
      rw [heq]
      exact scoreOf_withScore hlt
    have hlt1 := (hr1.alike.roomy he).index_lt_scores hv
    refine ((raise_spec hlt1).weaken fun fault hfull => ?_).mono ?_
    · refine hfull.mono (fun u hu' => ⟨hu, Or.inl hu'⟩) fun u hu' => ?_
      rw [hscore, if_neg (hu' ▸ hne)]
    intro e2 heq2
    refine Or.inr ⟨hu, heq2 ▸ hr1.of_score v _, fun u => ?_⟩
    rw [heq2, scoreOf_withScore hlt1, hscore, hscore, if_neg hne]
    by_cases huv : u = v
    · simp [huv]
    · by_cases huw : u = w
      · simp [huw, hne.symm]
      · simp [huv, huw]
  · exact Or.inl ⟨hu, rfl⟩

/-- `e` comes from `e₀` by a visit from `v` after which the clause `c`, whose other literals are `lits`, is seen -/
structure Joins (values : Assignment) (e₀ : Explorer) (v : Var) (c : ClauseId) (lits : List Lit) (allActive : Bool)
    (e : Explorer) : Prop where
  alike : Alike e₀ e
  clauseMark : ∀ d, e.marks.clauseMark d = if d = c then .seen allActive else e₀.marks.clauseMark d
  varMark : ∀ w, e.marks.varMark w =
    if w ∈ lits.map Lit.var ∧ e₀.marks.varMark w = .unseen then .seen else e₀.marks.varMark w
  reached : e.reached.toList =
    e₀.reached.toList ++ (lits.map Lit.var).filter fun w => e₀.marks.varMark w == .unseen
  score : ∀ w, e.scoreOf w =
    e₀.scoreOf w + if w = v ∨ ∃ l ∈ lits, l.var = w ∧ values.val l = .unassigned then 1 else 0

/-- the variable visited from gets its point, before or after the other literals are met, and the clause is marked -/
theorem Reaches.joins (h : Reaches e₀ (lits.map Lit.var) e) (hd : (v :: lits.map Lit.var).Nodup)
    (hc : c.index < e.marks.numSlots) (hscore : ∀ w, e.scoreOf w = (if w = v then e₀.scoreOf v + 1 else e₀.scoreOf w) +
      lits.countP fun l => decide (l.var = w) && values.val l == .unassigned) (b : Bool) :
    Joins values e₀ v c lits b { e with marks := e.marks.putClause c (.seen b) } := by
  obtain ⟨hnot, hd'⟩ := List.nodup_cons.1 hd
  refine ⟨⟨h.alike.maxVar, h.alike.maxClause, h.alike.adjacency, h.alike.scores,
    Marks.numSlots_putClause.trans h.alike.slots, h.alike.binding⟩, fun d => ?_, fun w => ?_, h.reached, fun w => ?_⟩
  · exact (Marks.clauseMark_putClause hc).trans (by rw [h.clauseMark])
  · exact Marks.varMark_putClause.trans (h.varMark w)
  · refine (hscore w).trans ?_
    rw [countP_met hd']
    by_cases hw : w = v
    · -- no other literal has the variable visited from
      subst hw
      have hnone : ¬ ∃ l ∈ lits, l.var = w ∧ values.val l = .unassigned :=
        fun ⟨l, hl, hlw, _⟩ => hnot (hlw ▸ List.mem_map_of_mem hl)
      simp [hnone]
    · simp [hw]

/-- the other literals are met first -/
theorem Met.joins (h : Met values e₀ lits e) (hd : (v :: lits.map Lit.var).Nodup) (hv : v.index < e.scores.size)
    (hc : c.index < e.marks.numSlots) (b : Bool) :
    Joins values e₀ v c lits b { e.withScore v (e.scoreOf v + 1) with marks := e.marks.putClause c (.seen b) } := by
  have hnot : v ∉ lits.map Lit.var := (List.nodup_cons.1 hd).1
  refine (h.reaches.of_score v _).joins hd hc (fun w => ?_) b
  rw [scoreOf_withScore hv, h.scoreOf_eq hnot]
  by_cases hwv : w = v
  · rw [if_pos hwv, if_pos hwv, List.countP_eq_zero.2, Nat.add_zero]
    intro l hl
    have hne : l.var ≠ w := fun heq => hnot (hwv ▸ heq ▸ List.mem_map_of_mem hl)
    simp [hne]
  · rw [if_neg hwv, if_neg hwv, h.score]

/-- the state after such a visit, but for the mark of the clause -/
theorem Joins.reaches {b : Bool} (h : Joins values e₀ v c lits b e) (hc : c.index < e.marks.numSlots)
    (hu : e₀.marks.clauseMark c = .unseen) :
    Reaches e₀ (lits.map Lit.var) { e with marks := e.marks.putClause c .unseen } := by
  refine ⟨⟨h.alike.maxVar, h.alike.maxClause, h.alike.adjacency, h.alike.scores,
    Marks.numSlots_putClause.trans h.alike.slots, h.alike.binding⟩, h.reached,
    fun w => Marks.varMark_putClause.trans (h.varMark w), fun d => ?_⟩
  refine (Marks.clauseMark_putClause hc).trans ?_
  rw [h.clauseMark]
  split_ifs with hd
  · rw [hd, hu]
  · rfl

/-- **Visiting a clause of length three** that is unseen: a true literal excludes it, otherwise it is seen, and whatever
is met without a value has one point more. -/
theorem visitTernary_ends {a b : Lit} (he : e.Roomy n k) (hvalues : values.Fits n) (hc : c.Within k)
    (hw : ∀ w ∈ v :: [a, b].map Lit.var, w.Within n) (hd : (v :: [a, b].map Lit.var).Nodup)
    (hu : e.marks.clauseMark c = .unseen) :
    Ends (ScoreFull (fun w => (∀ l ∈ [a, b], values.val l ≠ .isTrue) ∧
        (w = v ∨ ∃ l ∈ [a, b], l.var = w ∧ values.val l = .unassigned)) 1 e)
      (e.visitTernary values v c a b) fun e' =>
        ((∃ l ∈ [a, b], values.val l = .isTrue) ∧ e' = { e with marks := e.marks.putClause c .outside }) ∨
          (∀ l ∈ [a, b], values.val l ≠ .isTrue) ∧
            Joins values e v c [a, b] (values.val a == .unassigned && values.val b == .unassigned) e' := by
  obtain ⟨hv, ha, hb⟩ : v.Within n ∧ a.var.Within n ∧ b.var.Within n := by simpa using hw
  have hlt := he.index_lt_scores hv
  have hscore : ∀ w, (e.withScore v (e.scoreOf v + 1)).scoreOf w = if w = v then e.scoreOf v + 1 else e.scoreOf w :=
    fun w => scoreOf_withScore hlt
  unfold visitTernary
  refine Ends.bind_of_eq (Marks.clause_eq (he.clause_lt_slots hc)) ?_
  rw [if_neg (by simp [hu])]
  refine Ends.bind_of_eq (hvalues.eitherSatisfied_eq ha hb) ?_
  split_ifs with htrue
  · exact Or.inl ⟨by simpa using htrue, rfl⟩
  · obtain ⟨hva, hvb⟩ : v ≠ a.var ∧ v ≠ b.var := by simpa [not_or] using (List.nodup_cons.1 hd).1
    have hab : a.var ≠ b.var := by simpa using (List.nodup_cons.1 hd).2
    have hnone : ∀ l ∈ [a, b], values.val l ≠ .isTrue := by simpa [not_or] using htrue
    -- the points of the variable visited from do not count for the literals that are met
    have hmeet : ∀ l ∈ [a, b], v ≠ l.var → ∀ fault, ScoreFull (fun w => w = l.var ∧ values.val l = .unassigned) 1
        (e.withScore v (e.scoreOf v + 1)) fault →
        ScoreFull (fun w => (∀ l ∈ [a, b], values.val l ≠ .isTrue) ∧
          (w = v ∨ ∃ l ∈ [a, b], l.var = w ∧ values.val l = .unassigned)) 1 e fault := by
      intro l hl hne fault hfull
      refine hfull.mono (fun w hw => ⟨hnone, Or.inr ⟨l, hl, hw.1.symm, hw.2⟩⟩) fun w hw => ?_
      rw [hscore, hw.1, if_neg hne.symm]
    have he1 : (e.withScore v (e.scoreOf v + 1)).Roomy n k := (alike_withScore e v _).roomy he
    refine ((raise_spec hlt).weaken fun fault hfull =>
      hfull.mono (fun w hw => ⟨hnone, Or.inl hw⟩) fun w _ => le_rfl).bind ?_
    intro e1 heq
    subst heq
    refine ((meet_spec he1 hvalues (Met.nil values _) ha (by simp)).weaken (hmeet a (by simp) hva)).bind fun e2 h2 => ?_
    refine ((meet_spec he1 hvalues h2 hb (by simpa using hab.symm)).weaken (hmeet b (by simp) hvb)).bind fun e3 h3 => ?_
    refine Ends.bind_of_eq (hvalues.bothActive_eq ha hb) (Or.inr ⟨hnone, ?_⟩)
    have hreaches : Reaches e ([a, b].map Lit.var) e3 :=
      ⟨(alike_withScore e v _).trans h3.reaches.alike, h3.reaches.reached, h3.reaches.varMark, h3.reaches.clauseMark⟩
    refine hreaches.joins hd ((h3.reaches.alike.roomy he1).clause_lt_slots hc) (fun w => ?_) _
    rw [← hscore]
    exact h3.score w

/-- **Visiting a longer clause** that is unseen: an open literal excludes it, otherwise it is seen, and whatever is met
without a value has one point more. -/
theorem visitLong_ends (he : e.Roomy n k) (hvalues : values.Fits n) (hc : c.Within k)
    (hw : ∀ w ∈ v :: lits.map Lit.var, w.Within n) (hd : (v :: lits.map Lit.var).Nodup)
    (hu : e.marks.clauseMark c = .unseen) :
    Ends (ScoreFull (fun w => w = v ∨ Scored values e lits w) 1 e) (e.visitLong values v c lits).result fun e' =>
      ((∃ l ∈ lits, Open values e l) ∧ Undone e c e') ∨
        (∀ l ∈ lits, ¬ Open values e l) ∧
          ∃ b, (b = true ↔ ∀ l ∈ lits, e.marks.varMark l.var ≠ .outside) ∧ Joins values e v c lits b e' := by
  obtain ⟨hnot, hd'⟩ := List.nodup_cons.1 hd
  have hlits : ∀ l ∈ lits, l.var.Within n := fun l hl => hw _ (List.mem_cons_of_mem _ (List.mem_map_of_mem hl))
  simp only [visitLong, Traced.result_bind, Traced.result_lift]
  refine Ends.bind_of_eq (Marks.clause_eq (he.clause_lt_slots hc)) ?_
  rw [if_neg (by simp [hu])]
  simp only [Traced.result_bind]
  refine ((scan_spec he hvalues hc hlits hd').weaken fun fault hfull =>
    hfull.mono (fun w hw => Or.inr hw) fun w _ => le_rfl).bind fun r hr => ?_
  obtain ⟨answer, e1⟩ := r
  rcases hr with ⟨hopen, rfl, hundone⟩ | ⟨hclosed, hmet, b, rfl, hb⟩
  · exact Or.inl ⟨hopen, hundone⟩
  · have hroom := hmet.reaches.alike.roomy he
    have hlt := hroom.index_lt_scores (hw v List.mem_cons_self)
    have hsame : e1.scoreOf v = e.scoreOf v := hmet.scoreOf_eq hnot
    simp only [Traced.result_bind, Traced.result_lift]
    refine ((raise_spec hlt).weaken fun fault hfull => hfull.mono (fun w hw => Or.inl hw) fun w hw => ?_).bind ?_
    · rw [hw, hsame]
    intro e2 heq
    subst heq
    exact Or.inr ⟨hclosed, b, hb, hmet.joins hd hlt (hroom.clause_lt_slots hc) b⟩

end ModelCount.Explorer
