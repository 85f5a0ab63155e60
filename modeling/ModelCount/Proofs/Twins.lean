/-
Two walks over equal marks.

A walk reads links, values and marks; what it scores is written and never asked. So two walks that begin with equal
links and marks do the same, step by step, whatever the scores are and whatever they served before (`Twin`), as long as
neither meets a fault. Preparing a super-component clears all marks, so that two passes over it begin alike wherever
they stand in the work (`prepare_agree`), and at every variable they find the same (`probe_agree`).
-/
import Mathlib.Tactic
import ModelCount.Explorer
import ModelCount.Proofs.Outcome

namespace ModelCount

variable {α β α' β' : Type}

/-- where both runs give a result, the results are related -/
def Agree (R : α → β → Prop) (r : Except Fault α) (r' : Except Fault β) : Prop :=
  ∀ a a', r = .ok a → r' = .ok a' → R a a'

/-- equal answers, and what goes on beside them is related -/
def Beside {γ : Type} (R : α → β → Prop) (p : γ × α) (q : γ × β) : Prop := q.1 = p.1 ∧ R p.2 q.2

namespace Agree

variable {R : α → β → Prop} {S : α' → β' → Prop}

theorem ok {a : α} {b : β} (h : R a b) : Agree R (.ok a) (.ok b) := by
  intro a' b' ha hb
  cases ha
  cases hb
  exact h

theorem fail {fault : Fault} {r' : Except Fault β} : Agree R (.error fault) r' := fun _ _ h => by cases h

theorem fail' {fault : Fault} {r : Except Fault α} : Agree R r (.error fault) := fun _ _ _ h => by cases h

theorem same (r : Except Fault α) : Agree Eq r r := by
  intro a b ha hb
  rw [ha] at hb
  exact Except.ok.inj hb

/-- runs about which nothing is asked -/
theorem anything (r : Except Fault α) (r' : Except Fault β) : Agree (fun _ _ => True) r r' := fun _ _ _ _ => True.intro

theorem bind {r : Except Fault α} {r' : Except Fault β} {f : α → Except Fault α'} {f' : β → Except Fault β'}
    (h : Agree R r r') (hf : ∀ a b, R a b → Agree S (f a) (f' b)) : Agree S (r >>= f) (r' >>= f') := by
  intro a' b' ha' hb'
  obtain ⟨a, ha, hfa⟩ := exists_of_bind ha'
  obtain ⟨b, hb, hfb⟩ := exists_of_bind hb'
  exact hf a b (h a b ha hb) a' b' hfa hfb

/-- what both runs ask alike has one answer -/
theorem ask {r : Except Fault α} {f : α → Except Fault α'} {f' : α → Except Fault β'}
    (hf : ∀ a, Agree S (f a) (f' a)) : Agree S (r >>= f) (r >>= f') := (same r).bind fun a _ hab => hab ▸ hf a

theorem foldlM {γ : Type} {f : α → γ → Except Fault α} {f' : β → γ → Except Fault β} {l : List γ} {a : α} {b : β}
    (h : R a b) (hf : ∀ a b, R a b → ∀ x, Agree R (f a x) (f' b x)) : Agree R (l.foldlM f a) (l.foldlM f' b) := by
  induction l generalizing a b with
  | nil => exact ok h
  | cons x l ih =>
    rw [List.foldlM_cons, List.foldlM_cons]
    exact (hf a b h x).bind fun _ _ h' => ih h'

end Agree

/-! ## Marks -/

namespace Marks

/-- the slots are equal, whatever super-component they serve -/
def Same (m m' : Marks) : Prop := m'.slots = m.slots

variable {m m' : Marks}

theorem Same.var (h : Same m m') (v : Var) : m'.var v = m.var v := by
  unfold Marks.var
  rw [h]

theorem Same.clause (h : Same m m') (c : ClauseId) : m'.clause c = m.clause c := by
  unfold Marks.clause
  rw [h]

theorem Same.numSlots (h : Same m m') : m'.numSlots = m.numSlots := congrArg Array.size h

theorem Same.putVar (h : Same m m') (v : Var) (x : VarMark) : Same (m.putVar v x) (m'.putVar v x) := by
  unfold Same Marks.putVar
  rw [h]

theorem Same.putClause (h : Same m m') (c : ClauseId) (x : ClauseMark) : Same (m.putClause c x) (m'.putClause c x) := by
  unfold Same Marks.putClause
  rw [h]

theorem setVars_agree (h : Same m m') (vars : List Var) (x : VarMark) :
    Agree Same (m.setVars vars x) (m'.setVars vars x) := by
  refine Agree.foldlM h fun m m' h v => ?_
  unfold setVar
  rw [h]
  split_ifs
  · exact .ok (h.putVar v x)
  · exact .fail

theorem setClauses_agree (h : Same m m') (clauses : List ClauseId) (x : ClauseMark) :
    Agree Same (m.setClauses clauses x) (m'.setClauses clauses x) := by
  refine Agree.foldlM h fun m m' h c => ?_
  unfold setClause
  rw [h]
  split_ifs
  · exact .ok (h.putClause c x)
  · exact .fail

/-- binding clears the slots, so that their number is all that is left of them -/
theorem bind_agree (h : m'.numSlots = m.numSlots) (index index' : ℕ) (comp : Component) :
    Agree Same (m.bind index comp) (m'.bind index' comp) := by
  have hclear : Array.replicate m'.numSlots Slot.clear = Array.replicate m.numSlots Slot.clear := by rw [h]
  unfold Marks.bind
  split_ifs
  · exact .fail
  · exact .fail
  · exact .fail'
  · exact .ok hclear

theorem claimVars_agree (h : Same m m') (p : Parcel) (vars : List Var) :
    Agree (Beside Same) (m.claimVars p vars) (m'.claimVars p vars) := by
  induction vars generalizing m m' p with
  | nil => exact .ok ⟨rfl, h⟩
  | cons v rest ih =>
    unfold claimVars
    rw [h.var]
    refine .ask fun mark => ?_
    split_ifs
    · exact ih (h.putVar v .claimed) _
    · exact ih h p

theorem claimClauses_agree (h : Same m m') (p : Parcel) (clauses : List ClauseId) :
    Agree (Beside Same) (m.claimClauses p clauses) (m'.claimClauses p clauses) := by
  induction clauses generalizing m m' p with
  | nil => exact .ok ⟨rfl, h⟩
  | cons c rest ih =>
    unfold claimClauses
    rw [h.clause]
    refine .ask fun mark => ?_
    split
    · exact ih (h.putClause c .claimed) _
    · exact ih h p

theorem claimInto_agree (h : Same m m') (buffer : Array ℕ) (comp : Component) :
    Agree (Beside Same) (m.claimInto buffer comp) (m'.claimInto buffer comp) := by
  unfold claimInto
  cases m.binding with
  | none => exact .fail
  | some bound =>
    cases m'.binding with
    | none => exact .fail'
    | some bound' =>
      simp only
      split_ifs
      · exact .fail
      · exact .fail
      · exact .fail'
      · refine (claimVars_agree h _ comp.vars).bind fun r r' hr => ?_
        obtain ⟨p, marks⟩ := r
        obtain ⟨p', marks'⟩ := r'
        obtain ⟨rfl, hsame⟩ : p' = p ∧ Same marks marks' := hr
        exact (claimClauses_agree hsame _ comp.clauses).bind fun t t' ht =>
          .ok ⟨congrArg Parcel.closeClauses ht.1, ht.2⟩

theorem claim_agree (h : Same m m') (comp : Component) :
    Agree (Beside (Beside Same)) (m.claim comp) (m'.claim comp) := by
  refine (claimInto_agree h #[] comp).bind fun r r' hr => ?_
  obtain ⟨p, marks⟩ := r
  obtain ⟨p', marks'⟩ := r'
  obtain ⟨rfl, hsame⟩ : p' = p ∧ Same marks marks' := hr
  exact .ok ⟨rfl, rfl, hsame⟩

end Marks

/-! ## Steps of a walk -/

namespace Explorer

open Marks

variable {e e' : Explorer} {values : Assignment}

structure Peer (e e' : Explorer) : Prop where
  adjacency : e'.adjacency = e.adjacency
  marks : Same e.marks e'.marks

structure Twin (e e' : Explorer) : Prop extends Peer e e' where
  reached : e'.reached = e.reached

theorem Twin.putClause (h : Twin e e') (c : ClauseId) (x : ClauseMark) :
    Twin { e with marks := e.marks.putClause c x } { e' with marks := e'.marks.putClause c x } :=
  ⟨⟨h.adjacency, h.marks.putClause c x⟩, h.reached⟩

theorem Twin.reach (h : Twin e e') (v : Var) : Twin (e.reach v) (e'.reach v) :=
  ⟨⟨h.adjacency, h.marks.putVar v .seen⟩, congrArg (·.push v) h.reached⟩

/-- scores do not matter -/
theorem Twin.scored (h : Twin e e') (scores scores' : Array ℕ) :
    Twin { e with scores := scores } { e' with scores := scores' } := ⟨⟨h.adjacency, h.marks⟩, h.reached⟩

theorem raise_agree (h : Twin e e') (v : Var) : Agree Twin (e.raise v) (e'.raise v) := by
  refine (Agree.anything _ _).bind fun s s' _ => ?_
  split_ifs
  · exact .ok (h.scored _ _)
  · exact .fail'
  · exact .fail
  · exact .fail

theorem lower_agree (h : Twin e e') (v : Var) : Agree Twin (e.lower v) (e'.lower v) := by
  refine (Agree.anything _ _).bind fun s s' _ => ?_
  split_ifs
  · exact .ok (h.scored _ _)
  · exact .fail'
  · exact .fail
  · exact .fail

theorem touch_agree (h : Twin e e') (v : Var) : Agree Twin (e.touch v) (e'.touch v) := by
  unfold touch
  rw [h.marks.var]
  refine .ask fun mark => ?_
  split_ifs
  · exact .ok (h.reach v)
  · exact .ok h

theorem meet_agree (h : Twin e e') (l : Lit) : Agree Twin (meet values e l) (meet values e' l) := by
  refine .ask fun active => ?_
  split_ifs
  · exact (raise_agree h l.var).bind fun _ _ h => touch_agree h l.var
  · exact touch_agree h l.var

theorem visitBinary_agree (h : Twin e e') (v w : Var) : Agree Twin (e.visitBinary v w) (e'.visitBinary v w) := by
  unfold visitBinary
  rw [h.marks.var]
  refine .ask fun mark => ?_
  split_ifs
  · exact (raise_agree (h.reach w) w).bind fun _ _ h => raise_agree h v
  · exact .ok h

theorem visitTernary_agree (h : Twin e e') (v : Var) (c : ClauseId) (a b : Lit) :
    Agree Twin (visitTernary values v c a b e) (visitTernary values v c a b e') := by
  unfold visitTernary
  rw [h.marks.clause]
  refine .ask fun mark => ?_
  split_ifs
  · exact .ok h
  · refine .ask fun satisfied => ?_
    split_ifs
    · exact .ok (h.putClause c .outside)
    · refine (raise_agree h v).bind fun _ _ h => (meet_agree h a).bind fun _ _ h => (meet_agree h b).bind fun _ _ h => ?_
      exact .ask fun allActive => .ok (h.putClause c (.seen allActive))

theorem undo_agree (h : Twin e e') (c : ClauseId) (height : ℕ) (met : List Lit) :
    Agree Twin (undo values c height met e) (undo values c height met e') := by
  unfold undo
  rw [h.reached]
  refine (setVars_agree h.marks _ .unseen).bind fun m m' hm => ?_
  refine Agree.foldlM ⟨⟨h.adjacency, hm.putClause c .outside⟩, rfl⟩ fun e e' h l => ?_
  refine .ask fun active => ?_
  split_ifs
  · exact lower_agree h l.var
  · exact .ok h

theorem scan_agree (h : Twin e e') (c : ClauseId) (height : ℕ) (met rest : List Lit) (allActive : Bool) :
    Agree (Beside Twin) (scan values c height met rest allActive e).result
      (scan values c height met rest allActive e').result := by
  induction rest generalizing met allActive e e' with
  | nil => exact .ok ⟨rfl, h⟩
  | cons l rest ih =>
    simp only [scan, Traced.result_bind, Traced.result_lift]
    rw [h.marks.var]
    refine .ask fun mark => ?_
    split_ifs
    · simp only [Traced.result_bind, Traced.result_lift]
      exact (meet_agree h l).bind fun _ _ h => ih h _ _
    · simp only [Traced.result_bind, Traced.result_lift]
      refine .ask fun resolved => ?_
      split_ifs
      · exact ih h _ _
      · simp only [Traced.result_bind, Traced.result_lift, Traced.result_emit]
        exact (undo_agree h c height met).bind fun _ _ h => .ok ⟨rfl, h⟩

theorem visitLong_agree (h : Twin e e') (v : Var) (c : ClauseId) (lits : List Lit) :
    Agree Twin (visitLong values v c lits e).result (visitLong values v c lits e').result := by
  simp only [visitLong, Traced.result_bind, Traced.result_lift]
  rw [h.marks.clause]
  refine .ask fun mark => ?_
  split_ifs
  · exact .ok h
  · simp only [Traced.result_bind]
    rw [h.reached]
    refine (scan_agree h c _ [] lits true).bind fun r r' hr => ?_
    obtain ⟨answer, e₁⟩ := r
    obtain ⟨answer', e₁'⟩ := r'
    obtain ⟨rfl, h₁⟩ : answer' = answer ∧ _ := hr
    cases answer' with
    | some allActive =>
      simp only [Traced.result_bind, Traced.result_lift]
      exact (raise_agree h₁ v).bind fun _ _ h => .ok (h.putClause c (.seen allActive))
    | none => exact .ok h₁

theorem follow_agree (h : Twin e e') (v : Var) (link : Link) :
    Agree Twin (follow values v e link).result (follow values v e' link).result := by
  cases link with
  | binary w => exact visitBinary_agree h v w
  | ternary c a b => exact visitTernary_agree h v c a b
  | long c lits => exact visitLong_agree h v c lits

theorem walk_agree (h : Twin e e') (steps i : ℕ) :
    Agree Twin (walk values steps i e).result (walk values steps i e').result := by
  induction steps generalizing i e e' with
  | zero => exact .fail
  | succ steps ih =>
    unfold walk
    rw [h.reached]
    split
    · exact .ok h
    · simp only [Traced.result_bind, Traced.result_lift, Traced.result_foldlM]
      rw [h.adjacency]
      refine .ask fun links => ?_
      exact (Agree.foldlM h fun _ _ h link => follow_agree h _ link).bind fun _ _ h => ih h _

/-! ## Whole walks -/

theorem collect_agree (h : Peer e e') (v : Var) :
    Agree Twin (e.collect v values).result (e'.collect v values).result := by
  unfold collect
  rw [h.marks.numSlots]
  have hfirst : Twin { e with marks := e.marks.putVar v .seen, reached := #[v] }
      { e' with marks := e'.marks.putVar v .seen, reached := #[v] } := ⟨⟨h.adjacency, h.marks.putVar v .seen⟩, rfl⟩
  exact walk_agree hfirst _ _

theorem explore_agree (h : Peer e e') (node node' : Node) (v : Var) :
    Agree (fun r r' => r'.1 = r.1 ∧ Peer r.2.1 r'.2.1) (e.explore node v values).result
      (e'.explore node' v values).result := by
  simp only [explore, Traced.result_bind, Traced.result_lift]
  rw [h.marks.var]
  refine .ask fun mark => .ask fun _ => (collect_agree h v).bind fun e₁ e₁' h₁ => ?_
  rw [h₁.reached]
  split_ifs
  · exact .ok ⟨rfl, h₁.adjacency, h₁.marks.putVar v .claimed⟩
  · exact .ok ⟨rfl, h₁.toPeer⟩

theorem offer_agree (h : Peer e e') (v : Var) : Agree Peer (offer values e v) (offer values e' v) := by
  refine .ask fun active => ?_
  split_ifs
  · exact .ok ⟨h.adjacency, h.marks.putVar v .unseen⟩
  · exact .fail'
  · exact .fail
  · exact .fail
  · exact .ok h

/-- **Preparing.** Where the links are the same and there are as many slots, two passes begin alike. -/
theorem prepare_agree (hlinks : e'.adjacency = e.adjacency) (hslots : e'.marks.numSlots = e.marks.numSlots)
    (index index' : ℕ) (comp : Component) :
    Agree Peer (e.prepare index comp values) (e'.prepare index' comp values) := by
  refine (bind_agree hslots index index' comp).bind fun m m' hm => ?_
  have hbound : Peer { e with marks := m } { e' with marks := m' } := ⟨hlinks, hm⟩
  refine (Agree.foldlM hbound fun _ _ h v => offer_agree h v).bind fun e₁ e₁' h => ?_
  exact (setClauses_agree h.marks comp.clauses .unseen).bind fun m m' hm => .ok ⟨h.adjacency, hm⟩

theorem isCandidate_agree (h : Peer e e') (v : Var) :
    Agree Eq (e.isCandidate v values) (e'.isCandidate v values) := by
  refine (Agree.anything _ _).bind fun _ _ _ => ?_
  rw [h.marks.var]
  refine .ask fun mark => ?_
  split_ifs
  · exact .same _
  · exact .ok rfl

end Explorer

end ModelCount
