/-
A pass over a super-component.

Preparing claims nothing (`prepare_spec`); after that each variable is either settled already or starts one walk,
whose class is then claimed (`sweepVar_spec`). What becomes of the store, the node and the components found is left
open: a `SweepRule` is a property of them that free variables and parts preserve, and a pass preserves every such
property while it claims all candidates (`sweep_spec`). A score gets full only if the scores left by earlier passes and
the variables and clauses of the formula make it possible (`Overfull`).
-/
import Mathlib.Tactic
import ModelCount.Decomposer
import ModelCount.Proofs.Part

namespace ModelCount

open Formula Explorer

/-! ## Before the first walk -/

namespace Explorer

variable {f : Formula} {cls : List (List Lit)} {values : Assignment} {comp : Component} {index : ℕ} {C : Var → Prop}
  {E : Fault → Prop} {e : Explorer} {v : Var}

/-- in a pass a variable may come to 2^32 points: what it has, unless it is a candidate and begins with 0, and one for
each variable and each long clause -/
def Overfull (f : Formula) (values : Assignment) (comp : Component) (e : Explorer) : Prop :=
  ∃ v, f.Pointed values comp v ∧
    4294967296 ≤ (if Candidate values comp v then 0 else e.scoreOf v) + (f.numVars + f.numLong)

/-- no variable that may get points can come to more in a pass -/
def Room (f : Formula) (values : Assignment) (comp : Component) (e₀ e : Explorer) : Prop :=
  ∀ v, e.scoreOf v + e.unseen f ≤ (if Candidate values comp v then 0 else e₀.scoreOf v) + (f.numVars + f.numLong)

theorem Room.of_spends {e₀ e' : Explorer} (h : Room f values comp e₀ e) (hs : Spends f e e') :
    Room f values comp e₀ e' := fun v => (hs v).trans (h v)

theorem Room.overfull {e₀ : Explorer} {fault : Fault} (h : Room f values comp e₀ e)
    (hfull : Crowded f values comp e fault) : fault = .scoreFull ∧ e₀.Overfull f values comp := by
  obtain ⟨hfault, v, hv, hle⟩ := hfull
  exact ⟨hfault, v, hv, hle.trans (h v)⟩

/-- the variables of the super-component that were offered so far are unseen and have no points if they are free -/
structure Offered (f : Formula) (values : Assignment) (comp : Component) (index : ℕ) (e₀ : Explorer) (done : List Var)
    (e : Explorer) : Prop where
  fits : e.Fits f
  binding : e.marks.binding = some (index, comp.id)
  varMark : ∀ v, e.marks.varMark v = if v ∈ done ∧ values.Free v then .unseen else .outside
  clauseMark : ∀ c, e.marks.clauseMark c = .outside
  score : ∀ v, e.scoreOf v = if v ∈ done ∧ values.Free v then 0 else e₀.scoreOf v

theorem offer_spec (hs : Setting f cls values comp) {e₀ : Explorer} {done : List Var}
    (h : Offered f values comp index e₀ done e) (hv : v ∈ comp.vars) :
    Ends E (offer values e v) (Offered f values comp index e₀ (done ++ [v])) := by
  have hvw := hs.vars v hv
  unfold offer
  apply Ends.bind_of_eq (hs.fits.isVarActive_eq hs.small hvw)
  have hmem : ∀ w, w ≠ v → (w ∈ done ++ [v] ↔ w ∈ done) := by
    intro w hw
    simp [hw]
  by_cases hfree : values.Free v
  · have hslot := h.fits.index_lt_slots hvw
    rw [if_pos (by simpa using hfree), if_pos ⟨hslot, h.fits.index_lt_scores hvw⟩]
    refine ⟨⟨h.fits.maxVar, h.fits.adjacency, ?_, Marks.numSlots_putVar.trans h.fits.slots⟩, h.binding, fun w => ?_,
      fun c => Marks.clauseMark_putVar.trans (h.clauseMark c), fun w => ?_⟩
    · show (e.scores.setIfInBounds v.index 0).size = _
      rw [Array.size_setIfInBounds, h.fits.scores]
    · show (e.marks.putVar v .unseen).varMark w = _
      rw [Marks.varMark_putVar hslot]
      by_cases hw : w = v
      · rw [if_pos hw, if_pos ⟨by simp [hw], hw ▸ hfree⟩]
      · rw [if_neg hw, h.varMark]
        simp only [hmem w hw]
    · apply (scoreOf_withScore (h.fits.index_lt_scores hvw)).trans
      by_cases hw : w = v
      · rw [if_pos hw, if_pos ⟨by simp [hw], hw ▸ hfree⟩]
      · rw [if_neg hw, h.score]
        simp only [hmem w hw]
  · rw [if_neg (by simpa using hfree)]
    -- a variable that is not free is left alone
    have hiff : ∀ w, w ∈ done ++ [v] ∧ values.Free w ↔ w ∈ done ∧ values.Free w := by
      intro w
      by_cases hw : w = v
      · subst hw
        exact ⟨fun hh => absurd hh.2 hfree, fun hh => absurd hh.2 hfree⟩
      · rw [hmem w hw]
    refine ⟨h.fits, h.binding, fun w => ?_, h.clauseMark, fun w => ?_⟩
    · rw [h.varMark]
      simp only [hiff]
    · rw [h.score]
      simp only [hiff]

/-- the state in which a pass over the super-component begins: the candidates and the listed clauses are unseen, and the
candidates have no points -/
structure Prepared (f : Formula) (values : Assignment) (comp : Component) (index : ℕ) (e₀ e : Explorer) : Prop where
  fits : e.Fits f
  binding : e.marks.binding = some (index, comp.id)
  varMark : ∀ v, e.marks.varMark v = if Candidate values comp v then .unseen else .outside
  clauseMark : ∀ c, e.marks.clauseMark c = if c ∈ comp.clauses then .unseen else .outside
  score : ∀ v, e.scoreOf v = if Candidate values comp v then 0 else e₀.scoreOf v

theorem prepare_ends (hs : Setting f cls values comp) (h : e.Fits f) (index : ℕ) :
    Ends E (e.prepare index comp values) (Prepared f values comp index e) := by
  unfold prepare
  obtain ⟨m, h1, h2, h3, h4, h5⟩ := Marks.bind_eq (m := e.marks) index comp
    (by rw [h.slots]; omega)
  apply Ends.bind_of_eq h1
  have h0 : Offered f values comp index e [] { e with marks := m } :=
    ⟨⟨h.maxVar, h.adjacency, h.scores, h2.trans h.slots⟩, h3, fun v => by simp [h4], h5, fun v => by simp [scoreOf]⟩
  refine (Ends.foldlM (l := comp.vars) (Offered f values comp index e) h0 ?_).bind ?_
  · intro done v rest e' hl he
    exact offer_spec hs he (by rw [hl]; simp)
  · intro e' he
    have hslots : ∀ c ∈ comp.clauses, c.index < e'.marks.numSlots :=
      fun c hc => he.fits.clause_lt_slots (hs.clauses c hc)
    obtain ⟨m', k1, k2, k3, k4, k5⟩ := Marks.setClauses_eq (x := .unseen) hslots
    exact Ends.bind_of_eq k1 ⟨⟨he.fits.maxVar, he.fits.adjacency, he.fits.scores, k2.trans he.fits.slots⟩,
      k3.trans he.binding, fun v => (k4 v).trans (he.varMark v), fun c => (k5 c).trans (by rw [he.clauseMark]),
      he.score⟩

theorem Prepared.between {e₀ : Explorer} (h : Prepared f values comp index e₀ e) :
    Between f values comp index (fun _ => False) e := by
  refine ⟨h.fits, h.binding, ?_, fun _ _ _ hC => hC⟩
  refine ⟨by simp, by simp, fun v => ?_, fun v => ?_, fun v => ?_, fun c hc => ?_, fun c hc hk => ?_,
    fun c b hc => ?_, fun _ c b hc => ?_, fun c hc => ?_⟩
  · rw [h.varMark]; split_ifs <;> simp
  · rw [h.varMark]; split_ifs <;> simp
  · rw [h.varMark]; split_ifs with hv <;> simp [hv]
  · rw [h.clauseMark] at hc; by_contra hn; rw [if_neg hn] at hc; cases hc
  · rw [h.clauseMark, if_pos hk.1] at hc; cases hc
  · rw [h.clauseMark] at hc; split_ifs at hc
  · rw [h.clauseMark] at hc; split_ifs at hc
  · rw [h.clauseMark] at hc; split_ifs at hc

/-- **Preparing.** Whatever the scratch state was, nothing is claimed, and exactly the candidates are unseen and have no
points. -/
theorem prepare_spec (hs : Setting f cls values comp) (h : e.Fits f) (index : ℕ) :
    Ends E (e.prepare index comp values) fun e' =>
      Between f values comp index (fun _ => False) e' ∧ Room f values comp e e' :=
  (prepare_ends hs h index).mono fun _ he => ⟨he.between, fun v => Nat.add_le_add (he.score v).le unseen_le⟩

theorem isCandidate_eq (hs : Setting f cls values comp) (h : Between f values comp index C e) (hv : v ∈ comp.vars) :
    ∃ b, e.isCandidate v values = .ok b ∧ (b = true ↔ Candidate values comp v ∧ ¬ C v) := by
  have hvw := hs.vars v hv
  have hmax : v.id ≤ e.maxVar.id := by rw [h.fits.maxVar]; exact hvw.2
  have hmark : e.marks.varMark v = .unseen ↔ Candidate values comp v ∧ ¬ C v := by
    rw [h.marked.unseen]; simp
  rw [isCandidate, require_pos hmax, Except.ok_bind, Marks.var_eq (h.fits.index_lt_slots hvw), Except.ok_bind]
  by_cases hu : e.marks.varMark v = .unseen
  · rw [if_pos hu, hs.fits.isVarActive_eq hs.small hvw]
    exact ⟨_, rfl, by simp only [decide_eq_true_eq]; exact ⟨fun _ => hmark.1 hu, fun hc => hc.1.2⟩⟩
  · rw [if_neg hu]
    exact ⟨false, rfl, by simp only [Bool.false_eq_true, false_iff]; exact fun hc => hu (hmark.2 hc)⟩

end Explorer

/-! ## One variable after the other -/

/-- the class of `v` is next: its members are candidates of which none is claimed -/
structure Unclaimed (f : Formula) (values : Assignment) (comp : Component) (C : Var → Prop) (v : Var) : Prop where
  candidate : Candidate values comp v
  claimed : ∀ w, C w → Candidate values comp w
  disjoint : ∀ w, f.Connected values comp v w → ¬ C w

/-- a property of the store, the node and the components found that a pass preserves: a free variable gives the
factor 2, a part is looked up and, if it has no count, minted and pushed -/
structure SweepRule (E : Fault → Prop) (f : Formula) (values : Assignment) (comp : Component) (caching : Bool)
    (Q : (Var → Prop) → Store → Node → List Component → Prop) : Prop where
  single : ∀ C store node found v, Unclaimed f values comp C v → (∀ w, f.Connected values comp v w → w = v) →
    Q C store node found → Q (withClass f values comp C v) store (node.times 2) found
  part : ∀ C store node found v part signature, Unclaimed f values comp C v →
    IsPart f values comp v part signature → Q C store node found →
    Ends E (Decomposer.consult caching store node signature) fun r =>
      if r.1 then Q (withClass f values comp C v) r.2.1 r.2.2 found
      else Ends E (r.2.1.mint signature comp.id) fun t =>
        Q (withClass f values comp C v) t.2 r.2.2 (part.withId t.1 :: found)

namespace Decomposer

variable {f : Formula} {cls : List (List Lit)} {values : Assignment} {comp : Component} {index : ℕ} {caching : Bool}
  {E : Fault → Prop} {Q : (Var → Prop) → Store → Node → List Component → Prop} {C : Var → Prop} {s : Sweep} {v : Var}
  {e₀ : Explorer}

/-- a pass that began with the scratch state `e₀` has claimed `C` -/
structure Swept (f : Formula) (values : Assignment) (comp : Component) (index : ℕ) (e₀ : Explorer)
    (Q : (Var → Prop) → Store → Node → List Component → Prop) (C : Var → Prop) (s : Sweep) : Prop where
  between : Between f values comp index C s.explorer
  room : Room f values comp e₀ s.explorer
  kept : Q C s.store s.node s.found

theorem settlePart_spec (hs : Setting f cls values comp) (hrule : SweepRule E f values comp caching Q)
    (hun : Unclaimed f values comp C v) (h : Ended f values comp index C v s.explorer)
    (hclosed : ∀ v w, f.Joined values comp v w → C v → C w) (htwo : 2 ≤ s.explorer.reached.toList.length)
    (hroom : Room f values comp e₀ s.explorer) (hQ : Q C s.store s.node s.found) :
    Ends E (settlePart caching comp s).result (Swept f values comp index e₀ Q (withClass f values comp C v)) := by
  obtain ⟨part, signature, marks, h1, hpart, hbetween, hspends⟩ := claim_spec hs h hclosed htwo
  simp only [settlePart, Traced.result_bind, Traced.result_quiet]
  apply Ends.bind_of_eq h1
  apply (hrule.part C s.store s.node s.found v part signature hun hpart hQ).bind
  intro hboth hr
  rcases hboth with ⟨hit, store, node⟩
  cases hit with
  | true => exact ⟨hbetween, hroom.of_spends hspends, hr⟩
  | false =>
    simp only [Bool.false_eq_true, if_false, Traced.result_bind, Traced.result_quiet, Traced.result_emit] at hr ⊢
    apply Ends.bind hr
    intro r ht
    rcases r with ⟨id, store'⟩
    exact ⟨hbetween, hroom.of_spends hspends, ht⟩

/-- **One variable of a pass.** Afterwards it is claimed if it is a candidate. -/
theorem sweepVar_spec (hs : Setting f cls values comp) (hrule : SweepRule E f values comp caching Q)
    (hfull : e₀.Overfull f values comp → E .scoreFull) (h : Swept f values comp index e₀ Q C s) (hv : v ∈ comp.vars) :
    Ends E (sweepVar caching comp values s v).result fun s' =>
      ∃ C', Swept f values comp index e₀ Q C' s' ∧ (∀ w, C w → C' w) ∧ (Candidate values comp v → C' v) := by
  obtain ⟨explorer, store, node, found, hits⟩ := s
  have hb : Between f values comp index C explorer := h.between
  obtain ⟨b, h1, hiff⟩ := isCandidate_eq hs hb hv
  simp only [sweepVar, Traced.result_bind, Traced.result_lift]
  apply Ends.bind_of_eq h1
  cases b with
  | false =>
    refine ⟨C, h, fun _ hw => hw, fun hc => ?_⟩
    by_contra hn
    exact absurd (hiff.2 ⟨hc, hn⟩) (by simp)
  | true =>
    obtain ⟨hcand, hnot⟩ := hiff.1 rfl
    have hun : Unclaimed f values comp C v :=
      ⟨hcand, hb.marked.claimedCandidate, fun w hw hCw => hnot (hw.symm.closed hb.closed hCw)⟩
    have hgrow : ∀ w, C w → withClass f values comp C v w := fun w hw => Or.inl hw
    have hself : withClass f values comp C v v := Or.inr Relation.ReflTransGen.refl
    simp only [if_true, Traced.result_bind]
    refine ((explore_spec node hs hb hcand hnot).weaken fun fault hcrowded => ?_).bind ?_
    · obtain ⟨rfl, hover⟩ := h.room.overfull hcrowded
      exact hfull hover
    intro r hboth
    rcases r with ⟨several, e', node'⟩
    rcases hboth with ⟨hspends, ⟨hsev, hnode, hb', hone⟩ | ⟨hsev, hnode, hended, htwo⟩⟩
    · simp only at hsev hnode
      subst hsev hnode
      exact ⟨_, ⟨hb', h.room.of_spends hspends, hrule.single C store node found v hun hone h.kept⟩, hgrow,
        fun _ => hself⟩
    · simp only at hsev hnode
      subst hsev hnode
      refine Ends.mono (settlePart_spec (s := ⟨e', store, node', found, hits⟩) hs hrule hun hended hb.closed htwo
        (h.room.of_spends hspends) h.kept) ?_
      intro s' hs'
      exact ⟨_, hs', hgrow, fun _ => hself⟩

/-- **A pass** over some variables of the super-component claims all candidates among them. -/
theorem sweep_spec (hs : Setting f cls values comp) (hrule : SweepRule E f values comp caching Q)
    (hfull : e₀.Overfull f values comp → E .scoreFull) {l : List Var} (hl : ∀ v ∈ l, v ∈ comp.vars)
    (h : Swept f values comp index e₀ Q C s) :
    Ends E (l.foldlM (sweepVar caching comp values) s).result fun s' =>
      ∃ C', Swept f values comp index e₀ Q C' s' ∧ ∀ v ∈ l, Candidate values comp v → C' v := by
  rw [Traced.result_foldlM]
  refine Ends.foldlM (fun done s' => ∃ C', Swept f values comp index e₀ Q C' s' ∧
    ∀ v ∈ done, Candidate values comp v → C' v) ⟨C, h, by simp⟩ ?_
  intro done v rest s1 hsplit hex
  rcases hex with ⟨C1, h1, hdone⟩
  apply (sweepVar_spec hs hrule hfull h1 (hl v (by rw [hsplit]; simp))).mono
  intro s2 hex
  rcases hex with ⟨C2, h2, hmono, hself⟩
  refine ⟨C2, h2, fun w hw hc => ?_⟩
  rcases List.mem_append.1 hw with hw | hw
  · exact hmono w (hdone w hw hc)
  · rw [List.mem_singleton.1 hw] at hc ⊢
    exact hself hc

end Decomposer

end ModelCount
