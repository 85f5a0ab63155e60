/-
Walks keep to their scratch state.

Whatever formula the links belong to and whatever the values are, a walk, its preparation and the claiming of what it
reached read links, values, scores and marks only. The faults they can meet are those of tables that are too short, of
counters that run over, of marks that serve nothing or something else, and of walks that go on for too long
(`Scratch`); no fault of the store is among them. The node takes factors on the way and keeps its place on the stack
(`explore_place`).
-/
import Mathlib.Tactic
import ModelCount.Explorer
import ModelCount.Proofs.Branch
import ModelCount.Proofs.Outcome

namespace ModelCount

/-- the faults of links, values, scores and marks -/
def Scratch (fault : Fault) : Prop :=
  fault ∈ [.marksEmpty, .marksUnbound, .marksBoundElsewhere, .outOfRange, .scoreFull, .overflow, .contract, .stepsSpent]

instance : DecidablePred Scratch := fun _ => List.instDecidableMemOfLawfulBEq _ _

/-- the computation gives a result or meets a fault of its scratch state -/
def OnScratch {α : Type} (r : Except Fault α) : Prop := Ends Scratch r fun _ => True

variable {α β : Type} {values : Assignment} {e : Explorer} {m : Marks}

namespace OnScratch

theorem ok (a : α) : OnScratch (.ok a) := True.intro

theorem fail {fault : Fault} (h : Scratch fault) : OnScratch (.error fault : Except Fault α) := h

theorem bind {r : Except Fault α} {f : α → Except Fault β} (h : OnScratch r) (hf : ∀ a, OnScratch (f a)) :
    OnScratch (r >>= f) := Ends.bind h fun a _ => hf a

theorem foldlM {f : β → α → Except Fault β} {l : List α} {b : β} (hf : ∀ b a, OnScratch (f b a)) :
    OnScratch (l.foldlM f b) := Ends.foldlM_state (fun _ => True) True.intro fun a _ b _ => hf b a

end OnScratch

/-- past a requirement it holds -/
theorem require_holds (p : Prop) [Decidable p] : Ends Scratch (require p .contract) fun _ => p := by
  unfold require
  split_ifs with h
  · exact h
  · exact (by decide : Scratch .contract)

theorem require_onScratch (p : Prop) [Decidable p] : OnScratch (require p .contract) :=
  (require_holds p).mono fun _ _ => True.intro

/-! ## Values and marks -/

theorem Assignment.value_onScratch (l : Lit) : OnScratch (values.value l) := by
  unfold Assignment.value
  split
  · exact OnScratch.ok _
  · exact OnScratch.fail (by decide)

theorem Assignment.isActive_onScratch (l : Lit) : OnScratch (values.isActive l) :=
  (value_onScratch l).bind fun _ => OnScratch.ok _

theorem Assignment.isSatisfied_onScratch (l : Lit) : OnScratch (values.isSatisfied l) :=
  (value_onScratch l).bind fun _ => OnScratch.ok _

theorem Assignment.isResolved_onScratch (l : Lit) : OnScratch (values.isResolved l) :=
  (value_onScratch l).bind fun _ => OnScratch.ok _

theorem Assignment.eitherSatisfied_onScratch (a b : Lit) : OnScratch (values.eitherSatisfied a b) := by
  refine (isSatisfied_onScratch a).bind fun yes => ?_
  split_ifs
  · exact OnScratch.ok _
  · exact isSatisfied_onScratch b

theorem Assignment.bothActive_onScratch (a b : Lit) : OnScratch (values.bothActive a b) := by
  refine (isActive_onScratch a).bind fun yes => ?_
  split_ifs
  · exact isActive_onScratch b
  · exact OnScratch.ok _

namespace Marks

theorem var_onScratch (v : Var) : OnScratch (m.var v) := by
  unfold Marks.var
  split
  · exact OnScratch.ok _
  · exact OnScratch.fail (by decide)

theorem clause_onScratch (c : ClauseId) : OnScratch (m.clause c) := by
  unfold Marks.clause
  split
  · exact OnScratch.ok _
  · exact OnScratch.fail (by decide)

theorem setVars_onScratch (vars : List Var) (x : VarMark) : OnScratch (m.setVars vars x) := by
  refine OnScratch.foldlM fun m v => ?_
  unfold setVar
  split_ifs
  · exact OnScratch.ok _
  · exact OnScratch.fail (by decide)

theorem setClauses_onScratch (clauses : List ClauseId) (x : ClauseMark) : OnScratch (m.setClauses clauses x) := by
  refine OnScratch.foldlM fun m c => ?_
  unfold setClause
  split_ifs
  · exact OnScratch.ok _
  · exact OnScratch.fail (by decide)

theorem bind_onScratch (index : ℕ) (comp : Component) : OnScratch (m.bind index comp) := by
  unfold Marks.bind
  split_ifs
  · exact OnScratch.fail (by decide)
  · exact OnScratch.ok _

theorem claimVars_onScratch (p : Parcel) (vars : List Var) : OnScratch (m.claimVars p vars) := by
  induction vars generalizing m p with
  | nil => exact OnScratch.ok _
  | cons v rest ih =>
    unfold claimVars
    refine (var_onScratch v).bind fun mark => ?_
    split_ifs
    · exact ih _
    · exact ih p

theorem claimClauses_onScratch (p : Parcel) (clauses : List ClauseId) : OnScratch (m.claimClauses p clauses) := by
  induction clauses generalizing m p with
  | nil => exact OnScratch.ok _
  | cons c rest ih =>
    unfold claimClauses
    refine (clause_onScratch c).bind fun mark => ?_
    split
    · exact ih _
    · exact ih p

theorem claimInto_onScratch (buffer : Array ℕ) (comp : Component) : OnScratch (m.claimInto buffer comp) := by
  unfold claimInto
  split
  · exact OnScratch.fail (by decide)
  · split_ifs
    · exact OnScratch.fail (by decide)
    · exact (claimVars_onScratch _ _).bind fun _ => (claimClauses_onScratch _ _).bind fun _ => OnScratch.ok _

theorem claim_onScratch (comp : Component) : OnScratch (m.claim comp) :=
  (claimInto_onScratch _ comp).bind fun _ => OnScratch.ok _

end Marks

/-! ## Links -/

namespace Adjacency

variable {words : Array ℕ}

theorem wordAt_onScratch (pos : ℕ) : OnScratch (wordAt words pos) := by
  unfold wordAt
  split
  · exact OnScratch.ok _
  · exact OnScratch.fail (by decide)

theorem wordsFrom_onScratch (pos : ℕ) : OnScratch (wordsFrom words pos) := by
  fun_induction wordsFrom words pos with
  | case1 => exact OnScratch.ok _
  | case2 pos _ _ ih => exact ih.bind fun _ => OnScratch.ok _
  | case3 => exact OnScratch.fail (by decide)

theorem readLong_onScratch (pos : ℕ) : OnScratch (readLong words pos) := by
  fun_induction readLong words pos with
  | case1 => exact OnScratch.ok _
  | case2 pos _ _ ih =>
    exact (wordAt_onScratch _).bind fun _ => (wordsFrom_onScratch _).bind fun _ => ih.bind fun _ => OnScratch.ok _
  | case3 => exact OnScratch.fail (by decide)

theorem readTernary_onScratch (pos : ℕ) : OnScratch (readTernary words pos) := by
  fun_induction readTernary words pos with
  | case1 => exact readLong_onScratch _
  | case2 pos _ _ ih =>
    exact (wordAt_onScratch _).bind fun _ => (wordAt_onScratch _).bind fun _ => ih.bind fun _ => OnScratch.ok _
  | case3 => exact OnScratch.fail (by decide)

theorem linksOf_onScratch (a : Adjacency) (v : Var) : OnScratch (a.linksOf v) := by
  unfold linksOf
  split
  · exact (wordsFrom_onScratch _).bind fun _ => (readTernary_onScratch _).bind fun _ => OnScratch.ok _
  · exact OnScratch.fail (by decide)

end Adjacency

/-! ## Walks -/

namespace Explorer

theorem score_onScratch (v : Var) : OnScratch (e.score v) := by
  unfold score
  split
  · exact OnScratch.ok _
  · exact OnScratch.fail (by decide)

theorem offer_onScratch (v : Var) : OnScratch (offer values e v) := by
  refine (Assignment.isActive_onScratch _).bind fun active => ?_
  split_ifs
  · exact OnScratch.ok _
  · exact OnScratch.fail (by decide)
  · exact OnScratch.ok _

theorem prepare_onScratch (index : ℕ) (comp : Component) : OnScratch (e.prepare index comp values) :=
  (Marks.bind_onScratch _ _).bind fun _ => (OnScratch.foldlM fun _ v => offer_onScratch v).bind fun _ =>
    (Marks.setClauses_onScratch _ _).bind fun _ => OnScratch.ok _

theorem isCandidate_onScratch (v : Var) : OnScratch (e.isCandidate v values) := by
  refine (require_onScratch _).bind fun _ => (Marks.var_onScratch v).bind fun mark => ?_
  split_ifs
  · exact Assignment.isActive_onScratch _
  · exact OnScratch.ok _

theorem raise_onScratch (v : Var) : OnScratch (e.raise v) := by
  refine (score_onScratch v).bind fun s => ?_
  split_ifs
  · exact OnScratch.ok _
  · exact OnScratch.fail (by decide)

theorem lower_onScratch (v : Var) : OnScratch (e.lower v) := by
  refine (score_onScratch v).bind fun s => ?_
  split_ifs
  · exact OnScratch.ok _
  · exact OnScratch.fail (by decide)

theorem touch_onScratch (v : Var) : OnScratch (e.touch v) := by
  refine (Marks.var_onScratch v).bind fun mark => ?_
  split_ifs <;> exact OnScratch.ok _

theorem meet_onScratch (l : Lit) : OnScratch (meet values e l) := by
  refine (Assignment.isActive_onScratch l).bind fun active => ?_
  split_ifs
  · exact (raise_onScratch _).bind fun _ => touch_onScratch _
  · exact touch_onScratch _

theorem visitBinary_onScratch (v w : Var) : OnScratch (e.visitBinary v w) := by
  refine (Marks.var_onScratch w).bind fun mark => ?_
  split_ifs
  · exact (raise_onScratch _).bind fun _ => raise_onScratch _
  · exact OnScratch.ok _

theorem visitTernary_onScratch (v : Var) (c : ClauseId) (a b : Lit) :
    OnScratch (visitTernary values v c a b e) := by
  refine (Marks.clause_onScratch c).bind fun mark => ?_
  split_ifs
  · exact OnScratch.ok _
  · refine (Assignment.eitherSatisfied_onScratch a b).bind fun satisfied => ?_
    split_ifs
    · exact OnScratch.ok _
    · exact (raise_onScratch _).bind fun _ => (meet_onScratch _).bind fun _ => (meet_onScratch _).bind fun _ =>
        (Assignment.bothActive_onScratch _ _).bind fun _ => OnScratch.ok _

theorem undo_onScratch (c : ClauseId) (height : ℕ) (met : List Lit) : OnScratch (undo values c height met e) := by
  refine (Marks.setVars_onScratch _ _).bind fun marks => OnScratch.foldlM fun e l => ?_
  refine (Assignment.isActive_onScratch l).bind fun active => ?_
  split_ifs
  · exact lower_onScratch _
  · exact OnScratch.ok _

theorem scan_onScratch (c : ClauseId) (height : ℕ) (met rest : List Lit) (allActive : Bool) :
    OnScratch (scan values c height met rest allActive e).result := by
  induction rest generalizing met allActive e with
  | nil => exact OnScratch.ok _
  | cons l rest ih =>
    simp only [scan, Traced.result_bind, Traced.result_lift]
    refine (Marks.var_onScratch _).bind fun mark => ?_
    split_ifs
    · simp only [Traced.result_bind, Traced.result_lift]
      exact (meet_onScratch l).bind fun _ => ih _ _
    · simp only [Traced.result_bind, Traced.result_lift]
      refine (Assignment.isResolved_onScratch l).bind fun resolved => ?_
      split_ifs
      · exact ih _ _
      · simp only [Traced.result_bind, Traced.result_lift, Traced.result_emit]
        exact (undo_onScratch c height met).bind fun _ => OnScratch.ok _

theorem visitLong_onScratch (v : Var) (c : ClauseId) (lits : List Lit) :
    OnScratch (visitLong values v c lits e).result := by
  simp only [visitLong, Traced.result_bind, Traced.result_lift]
  refine (Marks.clause_onScratch c).bind fun mark => ?_
  split_ifs
  · exact OnScratch.ok _
  · simp only [Traced.result_bind]
    refine (scan_onScratch c _ [] lits true).bind fun answer => ?_
    split
    · simp only [Traced.result_bind, Traced.result_lift]
      exact (raise_onScratch v).bind fun _ => OnScratch.ok _
    · exact OnScratch.ok _

theorem follow_onScratch (v : Var) (link : Link) : OnScratch (follow values v e link).result := by
  cases link with
  | binary w => exact visitBinary_onScratch v w
  | ternary c a b => exact visitTernary_onScratch v c a b
  | long c lits => exact visitLong_onScratch v c lits

theorem walk_onScratch (steps i : ℕ) : OnScratch (walk values steps i e).result := by
  induction steps generalizing i e with
  | zero => exact OnScratch.fail (by decide)
  | succ steps ih =>
    unfold walk
    split
    · exact OnScratch.ok _
    · simp only [Traced.result_bind, Traced.result_lift, Traced.result_foldlM]
      exact (Adjacency.linksOf_onScratch _ _).bind fun _ =>
        (OnScratch.foldlM fun _ link => follow_onScratch _ link).bind fun _ => ih _

/-- **Exploring** meets faults of the scratch state only, and the node keeps its place on the stack. -/
theorem explore_place (node : Node) (v : Var) :
    Ends Scratch (e.explore node v values).result fun r =>
      r.2.2.superIndex = node.superIndex ∧ r.2.2.base = node.base := by
  simp only [explore, Traced.result_bind, Traced.result_lift]
  refine Ends.bind (P := fun _ => True) (Marks.var_onScratch v) fun mark _ => ?_
  refine Ends.bind (P := fun _ => True) (require_onScratch _) fun _ _ => ?_
  refine Ends.bind (P := fun _ => True) (walk_onScratch _ _) fun e' _ => ?_
  split_ifs
  · exact ⟨Node.superIndex_setActive, Node.base_setActive⟩
  · exact ⟨rfl, rfl⟩

end Explorer

end ModelCount
