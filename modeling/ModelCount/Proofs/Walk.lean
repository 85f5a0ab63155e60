/-
The walk from a candidate reaches exactly its class.

`Marked` says what the marks mean while the classes in `C` are claimed and the variables `R` are reached: a
candidate is claimed, seen or unseen, and a clause that is not unseen has been settled: excluded clauses are not
kept, seen and claimed ones are kept and have all their candidates in `R` or `C`. Following a link keeps this and
settles the link (`follow_spec`), so that at the end of the walk the reached variables are closed under joining
(`collect_spec`). A visit gives no variable more than one point, and it pays for the points: a variable or a clause is
unseen no more (`Spends`). Hence scores stay below the number of variables and clauses.
-/
import Mathlib.Tactic
import ModelCount.Proofs.Visit

namespace ModelCount

open Formula

/-- the meaning of the marks, with the claimed candidates `C` and the reached ones `R` -/
structure Marked (f : Formula) (values : Assignment) (comp : Component) (C : Var → Prop) (R : List Var)
    (m : Marks) : Prop where
  claimedCandidate : ∀ v, C v → Candidate values comp v
  reachedCandidate : ∀ v ∈ R, Candidate values comp v ∧ ¬ C v
  claimed : ∀ v, m.varMark v = .claimed ↔ C v
  seen : ∀ v, m.varMark v = .seen ↔ v ∈ R
  unseen : ∀ v, m.varMark v = .unseen ↔ Candidate values comp v ∧ ¬ C v ∧ v ∉ R
  clauseUnseen : ∀ c, m.clauseMark c = .unseen → c ∈ comp.clauses
  clauseOutside : ∀ c, m.clauseMark c = .outside → ¬ f.Kept values comp c
  clauseSeen : ∀ c b, m.clauseMark c = .seen b → f.Kept values comp c ∧ (b = true ↔ f.AllActive values comp c) ∧
    ∀ w ∈ f.varsOf c, Candidate values comp w → w ∈ R ∨ C w
  /-- after unit propagation no seen clause is left over from a free variable -/
  seenTouches : f.NoLonely values comp → ∀ c b, m.clauseMark c = .seen b → ∃ w ∈ f.varsOf c, w ∈ R
  clauseClaimed : ∀ c, m.clauseMark c = .claimed → f.Kept values comp c ∧
    ∀ w ∈ f.varsOf c, Candidate values comp w → C w

namespace Marked

variable {f : Formula} {cls : List (List Lit)} {values : Assignment} {comp : Component} {C : Var → Prop}
  {R : List Var} {m m' : Marks}

theorem outside_iff (h : Marked f values comp C R m) (v : Var) :
    m.varMark v = .outside ↔ ¬ Candidate values comp v := by
  constructor
  · intro ho hc
    by_cases h1 : C v
    · rw [(h.claimed v).2 h1] at ho; cases ho
    · by_cases h2 : v ∈ R
      · rw [(h.seen v).2 h2] at ho; cases ho
      · rw [(h.unseen v).2 ⟨hc, h1, h2⟩] at ho; cases ho
  · intro hc
    cases hm : m.varMark v with
    | outside => rfl
    | unseen => exact absurd ((h.unseen v).1 hm).1 hc
    | seen => exact absurd (h.reachedCandidate v ((h.seen v).1 hm)).1 hc
    | claimed => exact absurd (h.claimedCandidate v ((h.claimed v).1 hm)) hc

/-- what was reached is unseen no more -/
theorem ne_unseen (h : Marked f values comp C R m) {v : Var} (hv : v ∈ R) : m.varMark v ≠ .unseen :=
  fun hu => ((h.unseen v).1 hu).2.2 hv

/-- a candidate that is not unseen is reached or claimed -/
theorem reached_or_claimed (h : Marked f values comp C R m) {v : Var} (hv : Candidate values comp v)
    (hu : m.varMark v ≠ .unseen) : v ∈ R ∨ C v := by
  by_contra hn
  rw [not_or] at hn
  exact hu ((h.unseen v).2 ⟨hv, hn.2, hn.1⟩)

/-- the marks keep their meaning if those of the variables stay, and if every clause whose mark changes is settled
rightly: it is excluded and not kept, or seen with all its candidates reached or claimed -/
theorem settle (h : Marked f values comp C R m) (hv : ∀ v, m'.varMark v = m.varMark v)
    (hc : ∀ c, m'.clauseMark c = m.clauseMark c ∨ (m'.clauseMark c = .outside ∧ ¬ f.Kept values comp c) ∨
      ∃ b, m'.clauseMark c = .seen b ∧ f.Kept values comp c ∧ (b = true ↔ f.AllActive values comp c) ∧
        (∀ w ∈ f.varsOf c, Candidate values comp w → w ∈ R ∨ C w) ∧ ∃ w ∈ f.varsOf c, w ∈ R) :
    Marked f values comp C R m' := by
  refine ⟨h.claimedCandidate, h.reachedCandidate, ?_, ?_, ?_, ?_, ?_, ?_, ?_, ?_⟩
  · intro v; rw [hv]; exact h.claimed v
  · intro v; rw [hv]; exact h.seen v
  · intro v; rw [hv]; exact h.unseen v
  · intro c hm
    rcases hc c with he | ⟨he, -⟩ | ⟨b, he, -⟩
    · exact h.clauseUnseen c (he.symm.trans hm)
    · cases he.symm.trans hm
    · cases he.symm.trans hm
  · intro c hm
    rcases hc c with he | ⟨-, hk⟩ | ⟨b, he, -⟩
    · exact h.clauseOutside c (he.symm.trans hm)
    · exact hk
    · cases he.symm.trans hm
  · intro c b hm
    rcases hc c with he | ⟨he, -⟩ | ⟨b', he, hk, hb, hall, -⟩
    · exact h.clauseSeen c b (he.symm.trans hm)
    · cases he.symm.trans hm
    · cases he.symm.trans hm
      exact ⟨hk, hb, hall⟩
  · intro hl c b hm
    rcases hc c with he | ⟨he, -⟩ | ⟨b', -, -, -, -, hone⟩
    · exact h.seenTouches hl c b (he.symm.trans hm)
    · cases he.symm.trans hm
    · exact hone
  · intro c hm
    rcases hc c with he | ⟨he, -⟩ | ⟨b, he, -⟩
    · exact h.clauseClaimed c (he.symm.trans hm)
    · cases he.symm.trans hm
    · cases he.symm.trans hm

/-- a clause is excluded -/
theorem exclude (h : Marked f values comp C R m) {c : ClauseId} (hk : ¬ f.Kept values comp c)
    (hv : ∀ v, m'.varMark v = m.varMark v)
    (hc : ∀ d, m'.clauseMark d = if d = c then .outside else m.clauseMark d) : Marked f values comp C R m' := by
  refine h.settle hv fun d => ?_
  rw [hc]
  split_ifs with hdc
  · exact Or.inr (Or.inl ⟨rfl, hdc ▸ hk⟩)
  · exact Or.inl rfl

/-- a kept clause is seen, all its candidates being reached or claimed -/
theorem see (h : Marked f values comp C R m) {c : ClauseId} {b : Bool} (hk : f.Kept values comp c)
    (hb : b = true ↔ f.AllActive values comp c) (hall : ∀ w ∈ f.varsOf c, Candidate values comp w → w ∈ R ∨ C w)
    (hone : ∃ w ∈ f.varsOf c, w ∈ R) (hv : ∀ v, m'.varMark v = m.varMark v)
    (hc : ∀ d, m'.clauseMark d = if d = c then .seen b else m.clauseMark d) : Marked f values comp C R m' := by
  refine h.settle hv fun d => ?_
  rw [hc]
  split_ifs with hdc
  · subst hdc
    exact Or.inr (Or.inr ⟨b, rfl, hk, hb, hall, hone⟩)
  · exact Or.inl rfl

/-- more candidates are reached -/
theorem grow (h : Marked f values comp C R m) {new : List Var}
    (hnew : ∀ v ∈ new, m.varMark v = .unseen)
    (hv : ∀ v, m'.varMark v = if v ∈ new then .seen else m.varMark v)
    (hc : ∀ c, m'.clauseMark c = m.clauseMark c) : Marked f values comp C (R ++ new) m' := by
  have hun : ∀ v ∈ new, Candidate values comp v ∧ ¬ C v ∧ v ∉ R := fun v hv => (h.unseen v).1 (hnew v hv)
  refine ⟨h.claimedCandidate, ?_, ?_, ?_, ?_, ?_, ?_, ?_, ?_, ?_⟩
  · intro v hm
    rcases List.mem_append.1 hm with hm | hm
    · exact h.reachedCandidate v hm
    · exact ⟨(hun v hm).1, (hun v hm).2.1⟩
  · intro v
    rw [hv]
    split_ifs with hm
    · simpa using (hun v hm).2.1
    · exact h.claimed v
  · intro v
    rw [hv, List.mem_append]
    split_ifs with hm
    · simp [hm]
    · simp [hm, h.seen]
  · intro v
    rw [hv, List.mem_append]
    split_ifs with hm
    · simp [hm]
    · simp [hm, h.unseen]
  · intro c; rw [hc]; exact h.clauseUnseen c
  · intro c; rw [hc]; exact h.clauseOutside c
  · intro c b hs
    rw [hc] at hs
    obtain ⟨h1, h2, h3⟩ := h.clauseSeen c b hs
    refine ⟨h1, h2, fun w hw hcand => ?_⟩
    rcases h3 w hw hcand with hr | hr
    · exact Or.inl (List.mem_append_left _ hr)
    · exact Or.inr hr
  · intro hl c b hs
    rw [hc] at hs
    obtain ⟨w, hw, hr⟩ := h.seenTouches hl c b hs
    exact ⟨w, hw, List.mem_append_left _ hr⟩
  · intro c; rw [hc]; exact h.clauseClaimed c

/-- all reached candidates are claimed, and with them the seen clauses, unless there can be none -/
theorem claim (h : Marked f values comp C R m)
    (hv : ∀ v, m'.varMark v = if v ∈ R then .claimed else m.varMark v)
    (hc : ∀ c, ((∃ b, m.clauseMark c = .seen b) ∧ m'.clauseMark c = .claimed) ∨
      (m'.clauseMark c = m.clauseMark c ∧ (f.NoLonely values comp → ∀ b, m.clauseMark c ≠ .seen b))) :
    Marked f values comp (fun v => C v ∨ v ∈ R) [] m' := by
  refine ⟨?_, by simp, ?_, ?_, ?_, ?_, ?_, ?_, ?_, ?_⟩
  · intro v hor
    rcases hor with hw | hw
    · exact h.claimedCandidate v hw
    · exact (h.reachedCandidate v hw).1
  · intro v
    rw [hv]
    split_ifs with hw
    · simp [hw]
    · simp [hw, h.claimed]
  · intro v
    rw [hv]
    split_ifs with hw
    · simp
    · simp [h.seen, hw]
  · intro v
    rw [hv]
    split_ifs with hw
    · simp [hw]
    · simp [hw, h.unseen]
  · intro c hm
    rcases hc c with ⟨-, he⟩ | ⟨he, -⟩
    · cases he.symm.trans hm
    · exact h.clauseUnseen c (he.symm.trans hm)
  · intro c hm
    rcases hc c with ⟨-, he⟩ | ⟨he, -⟩
    · cases he.symm.trans hm
    · exact h.clauseOutside c (he.symm.trans hm)
  · intro c b hm
    rcases hc c with ⟨-, he⟩ | ⟨he, -⟩
    · cases he.symm.trans hm
    · obtain ⟨h1, h2, h3⟩ := h.clauseSeen c b (he.symm.trans hm)
      exact ⟨h1, h2, fun w hw hwc => Or.inr (h3 w hw hwc).symm⟩
  · intro hl c b hm
    rcases hc c with ⟨-, he⟩ | ⟨he, hnone⟩
    · cases he.symm.trans hm
    · exact absurd (he.symm.trans hm) (hnone hl b)
  · intro c hm
    rcases hc c with ⟨⟨b, hb⟩, -⟩ | ⟨he, -⟩
    · obtain ⟨h1, -, h3⟩ := h.clauseSeen c b hb
      exact ⟨h1, fun w hw hwc => (h3 w hw hwc).symm⟩
    · obtain ⟨h1, h2⟩ := h.clauseClaimed c (he.symm.trans hm)
      exact ⟨h1, fun w hw hwc => Or.inl (h2 w hw hwc)⟩

end Marked

namespace Explorer

/-! ## Paying for points -/

def unseen (f : Formula) (e : Explorer) : ℕ :=
  ((Finset.Icc 1 f.numVars).filter fun i => e.marks.varMark ⟨i⟩ = .unseen).card +
    ((Finset.Icc 1 f.numLong).filter fun i => e.marks.clauseMark ⟨i⟩ = .unseen).card

/-- every point is paid for with a variable or a clause that is unseen no more -/
def Spends (f : Formula) (e e' : Explorer) : Prop := ∀ v, e'.scoreOf v + e'.unseen f ≤ e.scoreOf v + e.unseen f

/-- nothing becomes unseen -/
structure Sees (e e' : Explorer) : Prop where
  var : ∀ v, e'.marks.varMark v = .unseen → e.marks.varMark v = .unseen
  clause : ∀ c, e'.marks.clauseMark c = .unseen → e.marks.clauseMark c = .unseen

section Points

variable {f : Formula} {values : Assignment} {comp : Component} {e e' e'' : Explorer}

theorem unseen_le : e.unseen f ≤ f.numVars + f.numLong := by
  have hvars := Finset.card_filter_le (Finset.Icc 1 f.numVars) fun i => e.marks.varMark ⟨i⟩ = .unseen
  have hclauses := Finset.card_filter_le (Finset.Icc 1 f.numLong) fun i => e.marks.clauseMark ⟨i⟩ = .unseen
  rw [Nat.card_Icc, Nat.add_sub_cancel] at hvars hclauses
  exact Nat.add_le_add hvars hclauses

theorem Sees.unseen_le (h : Sees e e') : e'.unseen f ≤ e.unseen f :=
  Nat.add_le_add (Finset.card_le_card (Finset.monotone_filter_right _ fun _ _ => h.var _))
    (Finset.card_le_card (Finset.monotone_filter_right _ fun _ _ => h.clause _))

theorem Sees.unseen_lt_of_var (h : Sees e e') {v : Var} (hv : v.Within f.numVars)
    (hu : e.marks.varMark v = .unseen) (hu' : e'.marks.varMark v ≠ .unseen) : e'.unseen f < e.unseen f := by
  refine Nat.add_lt_add_of_lt_of_le (Finset.card_lt_card ?_)
    (Finset.card_le_card (Finset.monotone_filter_right _ fun _ _ => h.clause _))
  refine (Finset.ssubset_iff_of_subset (Finset.monotone_filter_right _ fun _ _ => h.var _)).2 ⟨v.id, ?_, fun hm => ?_⟩
  · exact Finset.mem_filter.2 ⟨Finset.mem_Icc.2 hv, hu⟩
  · exact hu' (Finset.mem_filter.1 hm).2

theorem Sees.unseen_lt_of_clause (h : Sees e e') {c : ClauseId} (hc : c.Within f.numLong)
    (hu : e.marks.clauseMark c = .unseen) (hu' : e'.marks.clauseMark c ≠ .unseen) : e'.unseen f < e.unseen f := by
  refine Nat.add_lt_add_of_le_of_lt (Finset.card_le_card (Finset.monotone_filter_right _ fun _ _ => h.var _))
    (Finset.card_lt_card ?_)
  refine (Finset.ssubset_iff_of_subset (Finset.monotone_filter_right _ fun _ _ => h.clause _)).2
    ⟨c.id, ?_, fun hm => ?_⟩
  · exact Finset.mem_filter.2 ⟨Finset.mem_Icc.2 hc, hu⟩
  · exact hu' (Finset.mem_filter.1 hm).2

/-- a clause that is unseen can pay for one more point -/
theorem one_le_unseen {c : ClauseId} (hc : c.Within f.numLong) (hu : e.marks.clauseMark c = .unseen) :
    1 ≤ e.unseen f := by
  have hmem : c.id ∈ (Finset.Icc 1 f.numLong).filter fun i => e.marks.clauseMark ⟨i⟩ = .unseen :=
    Finset.mem_filter.2 ⟨Finset.mem_Icc.2 hc, hu⟩
  exact (Finset.card_pos.2 ⟨_, hmem⟩).trans_le (Nat.le_add_left _ _)

/-- and so can a variable that is unseen -/
theorem one_le_unseen_of_var {v : Var} (hv : v.Within f.numVars) (hu : e.marks.varMark v = .unseen) :
    1 ≤ e.unseen f := by
  have hmem : v.id ∈ (Finset.Icc 1 f.numVars).filter fun i => e.marks.varMark ⟨i⟩ = .unseen :=
    Finset.mem_filter.2 ⟨Finset.mem_Icc.2 hv, hu⟩
  exact (Finset.card_pos.2 ⟨_, hmem⟩).trans_le (Nat.le_add_right _ _)

/-- reaching makes nothing unseen -/
theorem Reaches.sees {ws : List Var} (h : Reaches e ws e') : Sees e e' := by
  refine ⟨fun v hv => ?_, fun c hc => (h.clauseMark c).symm.trans hc⟩
  rw [h.varMark] at hv
  split_ifs at hv
  exact hv

/-- a visit makes nothing unseen -/
theorem Joins.sees {v : Var} {c : ClauseId} {lits : List Lit} {b : Bool} (h : Joins values e v c lits b e') :
    Sees e e' := by
  refine ⟨fun w hw => ?_, fun d hd => ?_⟩
  · rw [h.varMark] at hw
    split_ifs at hw
    exact hw
  · rw [h.clauseMark] at hd
    split_ifs at hd
    exact hd

theorem Spends.refl (f : Formula) (e : Explorer) : Spends f e e := fun _ => le_rfl

theorem Spends.trans (h : Spends f e e') (h' : Spends f e' e'') : Spends f e e'' := fun v => (h' v).trans (h v)

/-- only the marks change -/
theorem Sees.spends (h : Sees e e') (hs : ∀ v, e'.scoreOf v = e.scoreOf v) : Spends f e e' := fun v => by
  rw [hs]
  exact Nat.add_le_add_left h.unseen_le _

/-- marking a variable as anything but unseen costs nothing -/
theorem spends_putVar {v : Var} {x : VarMark} {reached : Array Var} (hlt : v.index < e.marks.numSlots)
    (hx : x ≠ .unseen) : Spends f e { e with marks := e.marks.putVar v x, reached := reached } := by
  refine Sees.spends ⟨fun w hw => ?_, fun c hc => Marks.clauseMark_putVar.symm.trans hc⟩ fun _ => rfl
  have hw' : (e.marks.putVar v x).varMark w = .unseen := hw
  rw [Marks.varMark_putVar hlt] at hw'
  split_ifs at hw'
  · exact absurd hw' hx
  · exact hw'

/-- one point for each variable, where something is unseen no more -/
theorem spends_of_lt (h : e'.unseen f < e.unseen f) (hs : ∀ v, e'.scoreOf v ≤ e.scoreOf v + 1) : Spends f e e' := by
  intro v
  have := hs v
  omega

/-- a score is full that a walk may raise, with as many points to come as there are unseen variables and clauses -/
def Crowded (f : Formula) (values : Assignment) (comp : Component) (e : Explorer) : Fault → Prop :=
  ScoreFull (f.Pointed values comp) (e.unseen f) e

theorem Crowded.of_spends {fault : Fault} (h : Crowded f values comp e' fault) (hs : Spends f e e') :
    Crowded f values comp e fault :=
  ScoreFull.mono h (fun _ hv => hv) fun v _ => hs v

end Points

/-! ## Walks -/

/-- a walk from `v₀` inside a super-component, the candidates `C` being claimed -/
structure Walk (f : Formula) (values : Assignment) (comp : Component) (index : ℕ) (C : Var → Prop) (v₀ : Var)
    (e : Explorer) : Prop where
  fits : e.Fits f
  binding : e.marks.binding = some (index, comp.id)
  nodup : e.reached.toList.Nodup
  connected : ∀ v ∈ e.reached.toList, f.Connected values comp v₀ v
  marked : Marked f values comp C e.reached.toList e.marks

/-- later in a walk: what was reached stays reached, a settled clause stays settled, and points are paid for -/
structure Later (f : Formula) (e e' : Explorer) : Prop where
  reached : e.reached.toList <+: e'.reached.toList
  clause : ∀ c, e'.marks.clauseMark c = .unseen → e.marks.clauseMark c = .unseen
  spends : Spends f e e'

theorem Later.refl (f : Formula) (e : Explorer) : Later f e e := ⟨List.prefix_refl _, fun _ => id, Spends.refl f e⟩

theorem Later.trans {f : Formula} {e e' e'' : Explorer} (h : Later f e e') (h' : Later f e' e'') : Later f e e'' :=
  ⟨h.reached.trans h'.reached, fun c hc => h.clause c (h'.clause c hc), h.spends.trans h'.spends⟩

def Handled (values : Assignment) (comp : Component) (C : Var → Prop) (e : Explorer) : Link → Prop
  | .binary w => Candidate values comp w → w ∈ e.reached.toList ∨ C w
  | .ternary c _ _ => e.marks.clauseMark c ≠ .unseen
  | .long c _ => e.marks.clauseMark c ≠ .unseen

variable {f : Formula} {cls : List (List Lit)} {values : Assignment} {comp : Component} {index : ℕ} {C : Var → Prop}
  {v₀ : Var} {e e' : Explorer}

theorem Handled.later {link : Link} (h : Handled values comp C e link) (hl : Later f e e') :
    Handled values comp C e' link := by
  cases link with
  | binary w =>
    intro hw
    rcases h hw with hr | hr
    · exact Or.inl (hl.reached.subset hr)
    · exact Or.inr hr
  | ternary c a b => exact fun hc => h (hl.clause c hc)
  | long c lits => exact fun hc => h (hl.clause c hc)

namespace Walk

/-- reaching variables that are connected to the start -/
theorem reaches (h : Walk f values comp index C v₀ e) {ws : List Var} (hr : Reaches e ws e') (hd : ws.Nodup)
    (hconn : ∀ w ∈ ws, Candidate values comp w → f.Connected values comp v₀ w) :
    Walk f values comp index C v₀ e' ∧ e.reached.toList <+: e'.reached.toList := by
  have hmem : ∀ v, v ∈ ws.filter (fun v => e.marks.varMark v == .unseen) ↔ v ∈ ws ∧ e.marks.varMark v = .unseen := by
    simp
  refine ⟨⟨hr.alike.fits h.fits, hr.alike.binding.trans h.binding, ?_, ?_, ?_⟩, ?_⟩
  · rw [hr.reached, List.nodup_append]
    refine ⟨h.nodup, hd.filter _, ?_⟩
    intro v hv w hw heq
    subst heq
    have hu := ((hmem v).1 hw).2
    exact ((h.marked.unseen v).1 hu).2.2 hv
  · intro v hv
    rw [hr.reached, List.mem_append] at hv
    rcases hv with hv | hv
    · exact h.connected v hv
    · obtain ⟨hw, hu⟩ := (hmem v).1 hv
      exact hconn v hw ((h.marked.unseen v).1 hu).1
  · rw [hr.reached]
    refine h.marked.grow (fun v hv => ((hmem v).1 hv).2) (fun v => ?_) hr.clauseMark
    rw [hr.varMark]
    by_cases hv : v ∈ ws ∧ e.marks.varMark v = .unseen
    · rw [if_pos hv, if_pos ((hmem v).2 hv)]
    · rw [if_neg hv, if_neg (fun hm => hv ((hmem v).1 hm))]
  · rw [hr.reached]; exact List.prefix_append _ _

end Walk

/-! ## Following one link -/

/-- a candidate that is pulled in through a binary clause -/
theorem Walk.fetch (hs : Setting f cls values comp) (h : Walk f values comp index C v₀ e) {v w : Var}
    (hv : v ∈ e.reached.toList) (hw : w.Within f.numVars) (hlink : Link.binary w ∈ f.links v)
    (hu : e.marks.varMark w = .unseen) (hf : Fetches e v w e') :
    Walk f values comp index C v₀ e' ∧ Later f e e' ∧ w ∈ e'.reached.toList := by
  have hvc := (h.marked.reachedCandidate v hv).1
  have hwc := ((h.marked.unseen w).1 hu).1
  have hne : v ≠ w := by
    rintro rfl
    exact h.marked.ne_unseen hv hu
  have hjoin : f.Joined values comp v w := ⟨hvc, hwc, Or.inl ((hs.binary_iff (hs.within hvc) hne).2 hlink)⟩
  have hseen : e'.marks.varMark w ≠ .unseen := by
    rw [hf.reaches.varMark, if_pos ⟨by simp, hu⟩]
    simp
  obtain ⟨hwalk, hl⟩ := h.reaches hf.reaches (by simp) (by
    intro u hu _
    rw [List.mem_singleton.1 hu]
    exact (h.connected v hv).tail hjoin)
  refine ⟨hwalk, ⟨hl, hf.reaches.sees.clause, spends_of_lt (hf.reaches.sees.unseen_lt_of_var hw hu hseen) fun u => ?_⟩,
    ?_⟩
  · rw [hf.score]
    split_ifs
    · exact le_rfl
    · exact Nat.le_succ _
  · rw [hf.reaches.reached]
    simp [hu]

theorem visitBinary_spec (hs : Setting f cls values comp) {v w : Var} (h : Walk f values comp index C v₀ e)
    (hv : v ∈ e.reached.toList) (hlink : Link.binary w ∈ f.links v) :
    Ends (Crowded f values comp e) (e.visitBinary v w) fun e' =>
      Walk f values comp index C v₀ e' ∧ Later f e e' ∧ Handled values comp C e' (.binary w) := by
  have hvc := (h.marked.reachedCandidate v hv).1
  have hw := hs.stores.within_of_binary hlink
  refine ((visitBinary_ends h.fits.roomy (hs.within hvc) hw (h.marked.ne_unseen hv)).weaken
    fun fault hfull => ?_).mono fun e' he' => ?_
  · -- the variable that is pulled in pays for both points
    refine hfull.mono (fun u hboth => ?_) fun u hboth => Nat.add_le_add_left (one_le_unseen_of_var hw hboth.1) _
    obtain ⟨hu, rfl | rfl⟩ := hboth
    · exact pointed_of_candidate hvc
    · exact pointed_of_candidate ((h.marked.unseen _).1 hu).1
  · rcases he' with ⟨hu, rfl⟩ | ⟨hu, hf⟩
    · exact ⟨h, Later.refl f _, fun hc => h.marked.reached_or_claimed hc hu⟩
    · obtain ⟨hwalk, hlater, hreached⟩ := h.fetch hs hv hw hlink hu hf
      exact ⟨hwalk, hlater, fun _ => Or.inl hreached⟩

/-- a clause that is not kept is excluded -/
theorem Walk.exclude (h : Walk f values comp index C v₀ e) {c : ClauseId} (hk : ¬ f.Kept values comp c)
    (ha : Alike e e') (hr : e'.reached.toList = e.reached.toList)
    (hv : ∀ v, e'.marks.varMark v = e.marks.varMark v)
    (hc : ∀ d, e'.marks.clauseMark d = if d = c then .outside else e.marks.clauseMark d)
    (hscore : ∀ v, e'.scoreOf v = e.scoreOf v) :
    Walk f values comp index C v₀ e' ∧ Later f e e' ∧ e'.marks.clauseMark c ≠ .unseen := by
  have hsees : Sees e e' := by
    refine ⟨fun v hm => (hv v).symm.trans hm, fun d hd => ?_⟩
    rw [hc] at hd
    split_ifs at hd
    exact hd
  refine ⟨⟨ha.fits h.fits, ha.binding.trans h.binding, ?_, ?_, ?_⟩, ⟨?_, hsees.clause, hsees.spends hscore⟩, ?_⟩
  · rw [hr]; exact h.nodup
  · rw [hr]; exact h.connected
  · rw [hr]; exact h.marked.exclude hk hv hc
  · rw [hr]
  · rw [hc, if_pos rfl]
    simp

/-- a kept clause that was visited from one of its candidates -/
theorem Walk.join (hs : Setting f cls values comp) (h : Walk f values comp index C v₀ e) {v : Var} {c : ClauseId}
    {b : Bool} (hv : v ∈ e.reached.toList) (hcw : c.Within f.numLong) (hvc : v ∈ f.varsOf c)
    (hu : e.marks.clauseMark c = .unseen) (hj : Joins values e v c (othersOf v (f.literals c)) b e')
    (hk : f.Kept values comp c) (hb : b = true ↔ f.AllActive values comp c) :
    Walk f values comp index C v₀ e' ∧ Later f e e' ∧ e'.marks.clauseMark c ≠ .unseen := by
  have hcand := (h.marked.reachedCandidate v hv).1
  have hmem : ∀ w, w ∈ f.varsOf c ↔ w = v ∨ w ∈ (othersOf v (f.literals c)).map Lit.var :=
    fun w => mem_vars_iff hvc
  have hd : ((othersOf v (f.literals c)).map Lit.var).Nodup :=
    (hs.proper hcw).nodup.sublist (List.filter_sublist.map _)
  have hlt : c.index < e'.marks.numSlots := hj.alike.slots ▸ h.fits.clause_lt_slots hcw
  -- the state before the clause is marked, where only variables have been reached
  obtain ⟨h1, hl⟩ := h.reaches (hj.reaches hlt hu) hd (by
    intro w hw hwc
    exact (h.connected v hv).tail ⟨hcand, hwc, Or.inr ⟨c, hk, hvc, (hmem w).2 (Or.inr hw)⟩⟩)
  have hall : ∀ w ∈ f.varsOf c, Candidate values comp w → w ∈ e'.reached.toList ∨ C w := by
    intro w hw hwc
    rcases (hmem w).1 hw with rfl | hw
    · exact Or.inl (hl.subset hv)
    · refine h1.marked.reached_or_claimed hwc ?_
      rw [Marks.varMark_putClause, hj.varMark]
      by_cases hu : e.marks.varMark w = .unseen
      · rw [if_pos ⟨hw, hu⟩]; simp
      · rw [if_neg (fun hc => hu hc.2)]; exact hu
  have hmarked : Marked f values comp C e'.reached.toList e'.marks := by
    refine h1.marked.see hk hb hall ⟨v, hvc, hl.subset hv⟩ (fun w => Marks.varMark_putClause.symm) fun d => ?_
    rw [Marks.clauseMark_putClause hlt, hj.clauseMark]
    split_ifs <;> rfl
  have hseen : e'.marks.clauseMark c ≠ .unseen := by
    rw [hj.clauseMark, if_pos rfl]
    simp
  refine ⟨⟨hj.alike.fits h.fits, hj.alike.binding.trans h.binding, h1.nodup, h1.connected, hmarked⟩,
    ⟨hl, hj.sees.clause, spends_of_lt (hj.sees.unseen_lt_of_clause hcw hu hseen) fun w => ?_⟩, hseen⟩
  rw [hj.score]
  split_ifs
  · exact le_rfl
  · exact Nat.le_succ _

theorem visitTernary_spec (hs : Setting f cls values comp) {v : Var} {c : ClauseId} {a b : Lit}
    (h : Walk f values comp index C v₀ e) (hv : v ∈ e.reached.toList) (hlink : Link.ternary c a b ∈ f.links v) :
    Ends (Crowded f values comp e) (e.visitTernary values v c a b) fun e' =>
      Walk f values comp index C v₀ e' ∧ Later f e e' ∧ Handled values comp C e' (.ternary c a b) := by
  have hcand := (h.marked.reachedCandidate v hv).1
  obtain ⟨hcw, h3, hvc, ho⟩ := hs.stores.ternary_mem_links.1 hlink
  by_cases hu : e.marks.clauseMark c = .unseen
  · obtain ⟨hw, hd⟩ := hs.visited_vars hcw hvc ho
    have hkept : f.Kept values comp c ↔ ∀ l ∈ [a, b], values.val l ≠ .isTrue := by
      rw [hs.kept_iff_three hcand h3, ho]
      exact and_iff_right (h.marked.clauseUnseen c hu)
    refine ((visitTernary_ends h.fits.roomy hs.fits hcw hw hd hu).weaken fun fault hfull => ?_).mono fun e' he' => ?_
    · -- the free literals of a kept clause may get a point, even those of no candidate
      refine hfull.mono (fun w hboth => ?_) fun w _ => Nat.add_le_add_left (one_le_unseen hcw hu) _
      obtain ⟨hclosed, rfl | ⟨l, hl, rfl, hfree⟩⟩ := hboth
      · exact pointed_of_candidate hcand
      · have hlv : l.var ∈ [a, b].map Lit.var := List.mem_map_of_mem hl
        exact ⟨(hs.fits.free_var_iff hs.small (hw _ (List.mem_cons_of_mem _ hlv))).2 hfree,
          Or.inr ⟨c, hkept.2 hclosed, (mem_vars_iff hvc).2 (Or.inr (by rw [ho]; exact hlv)), v, hvc, hcand⟩⟩
    · rcases he' with ⟨⟨l, hl, htrue⟩, rfl⟩ | ⟨hclosed, hj⟩
      · exact h.exclude (fun hk => hkept.1 hk l hl htrue) ⟨rfl, rfl, rfl, rfl, Marks.numSlots_putClause, rfl⟩ rfl
          (fun _ => Marks.varMark_putClause) (fun _ => Marks.clauseMark_putClause (h.fits.clause_lt_slots hcw))
          fun _ => rfl
      · refine h.join hs hv hcw hvc hu (ho ▸ hj) (hkept.2 hclosed) ?_
        rw [hs.allActive_iff_three hcand h3, ho]
        simp
  · unfold visitTernary
    refine Ends.bind_of_eq (Marks.clause_eq (h.fits.clause_lt_slots hcw)) ?_
    rw [if_pos hu]
    exact ⟨h, Later.refl f e, hu⟩

theorem visitLong_spec (hs : Setting f cls values comp) {v : Var} {c : ClauseId} {lits : List Lit}
    (h : Walk f values comp index C v₀ e) (hv : v ∈ e.reached.toList) (hlink : Link.long c lits ∈ f.links v) :
    Ends (Crowded f values comp e) (e.visitLong values v c lits).result fun e' =>
      Walk f values comp index C v₀ e' ∧ Later f e e' ∧ Handled values comp C e' (.long c lits) := by
  have hcand := (h.marked.reachedCandidate v hv).1
  obtain ⟨hcw, h3, hvc, ho⟩ := hs.stores.long_mem_links.1 hlink
  by_cases hu : e.marks.clauseMark c = .unseen
  · obtain ⟨hw, hd⟩ := hs.visited_vars hcw hvc ho
    have hkept : f.Kept values comp c ↔ ∀ l ∈ lits, ¬ Open values e l := by
      rw [Setting.kept_iff_long hcand h3, ho]
      simp only [h.marked.clauseUnseen c hu, true_and, Open, h.marked.outside_iff, not_and, not_not]
    have hactive : f.AllActive values comp c ↔ ∀ l ∈ lits, e.marks.varMark l.var ≠ .outside := by
      rw [Setting.allActive_iff_long hcand h3, ho]
      simp only [ne_eq, h.marked.outside_iff, not_not]
    refine ((visitLong_ends h.fits.roomy hs.fits hcw hw hd hu).weaken fun fault hfull => ?_).mono fun e' he' => ?_
    · refine hfull.mono (fun w hor => ?_) fun w _ => Nat.add_le_add_left (one_le_unseen hcw hu) _
      rcases hor with rfl | ⟨-, hw⟩
      · exact pointed_of_candidate hcand
      · exact pointed_of_candidate (not_not.1 fun hn => hw ((h.marked.outside_iff w).2 hn))
    · rcases he' with ⟨⟨l, hl, hopen⟩, hundone⟩ | ⟨hclosed, b, hb, hj⟩
      · exact h.exclude (fun hk => hkept.1 hk l hl hopen) hundone.alike hundone.reached hundone.varMark
          hundone.clauseMark hundone.score
      · exact h.join hs hv hcw hvc hu (ho ▸ hj) (hkept.2 hclosed) (hb.trans hactive.symm)
  · simp only [visitLong, Traced.result_bind, Traced.result_lift]
    refine Ends.bind_of_eq (Marks.clause_eq (h.fits.clause_lt_slots hcw)) ?_
    rw [if_pos hu]
    exact ⟨h, Later.refl f e, hu⟩

/-- **One link.** Following a link of a reached variable keeps the meaning of the marks and settles the link. -/
theorem follow_spec (hs : Setting f cls values comp) {v : Var} {link : Link} (h : Walk f values comp index C v₀ e)
    (hv : v ∈ e.reached.toList) (hlink : link ∈ f.links v) :
    Ends (Crowded f values comp e) (follow values v e link).result fun e' =>
      Walk f values comp index C v₀ e' ∧ Later f e e' ∧ Handled values comp C e' link := by
  cases link with
  | binary w => exact visitBinary_spec hs h hv hlink
  | ternary c a b => exact visitTernary_spec hs h hv hlink
  | long c lits => exact visitLong_spec hs h hv hlink

end Explorer

end ModelCount
