/-
From one walk to one part.

Between two walks the claimed candidates are a union of classes (`Between`). A walk from an unclaimed candidate
reaches its class (`mem_reached_iff`); a class of one variable is claimed at once and counts as a factor 2
(`explore_spec`), a larger one is swept out as a part (`claim_spec`): the class, the kept clauses that touch it,
and a signature without the clauses whose literals are all active.
-/
import Mathlib.Tactic
import ModelCount.Proofs.Walk

namespace ModelCount

open Formula

/-- what the sweep of a class yields -/
structure IsPart (f : Formula) (values : Assignment) (comp : Component) (v : Var) (part : Component)
    (signature : Signature) : Prop where
  candidate : Candidate values comp v
  varsSublist : part.vars.Sublist comp.vars
  mem_vars : ∀ w, w ∈ part.vars ↔ f.Connected values comp v w
  several : 2 ≤ part.vars.length
  clausesSublist : part.clauses.Sublist comp.clauses
  kept : ∀ c ∈ part.clauses, f.Kept values comp c
  mem_clauses : ∀ c, f.Kept values comp c → (∃ w ∈ f.varsOf c, w ∈ part.vars) → c ∈ part.clauses
  touches : f.NoLonely values comp → ∀ c ∈ part.clauses, ∃ w ∈ f.varsOf c, w ∈ part.vars
  signature : ∃ listed : List ClauseId, signature = .ofParts part.vars listed ∧ listed.Sublist part.clauses ∧
    ∀ c, c ∈ listed ↔ c ∈ part.clauses ∧ ¬ f.AllActive values comp c

theorem IsPart.withId {f : Formula} {values : Assignment} {comp part : Component} {v : Var} {signature : Signature}
    (h : IsPart f values comp v part signature) (id : EntryId) : IsPart f values comp v (part.withId id) signature :=
  ⟨h.candidate, h.varsSublist, h.mem_vars, h.several, h.clausesSublist, h.kept, h.mem_clauses, h.touches, h.signature⟩

/-- the variables of a part have proper numbers -/
theorem IsPart.id_ne_zero {f : Formula} {cls : List (List Lit)} {values : Assignment} {comp part : Component}
    {v : Var} {signature : Signature} (h : IsPart f values comp v part signature) (hs : Setting f cls values comp) :
    ∀ w ∈ part.vars, w.id ≠ 0 :=
  fun w hw => Nat.ne_of_gt (hs.vars w (h.varsSublist.subset hw)).1

/-- a list of different variables of 1 to `n` has at most `n` members -/
theorem length_le_of_within {n : ℕ} {vars : List Var} (hd : vars.Nodup) (hw : ∀ v ∈ vars, v.Within n) :
    vars.length ≤ n := by
  have hinj : Function.Injective Var.id := fun a b e => by cases a; cases b; simpa using e
  have hsub : vars.map Var.id ⊆ List.range' 1 n := by
    intro i hi
    obtain ⟨v, hv, rfl⟩ := List.mem_map.1 hi
    have := hw v hv
    rw [List.mem_range'_1]
    exact ⟨this.1, by have := this.2; omega⟩
  have := (hd.map hinj).subperm hsub
  simpa using this.length_le

namespace Explorer

variable {f : Formula} {cls : List (List Lit)} {values : Assignment} {comp : Component} {index : ℕ} {C : Var → Prop}
  {v₀ : Var} {e e' : Explorer}

/-! ## The whole walk -/

def Complete (f : Formula) (values : Assignment) (comp : Component) (C : Var → Prop) (e : Explorer) : Prop :=
  ∀ v ∈ e.reached.toList, ∀ link ∈ f.links v, Handled values comp C e link

theorem links_spec (hs : Setting f cls values comp) {v : Var} (h : Walk f values comp index C v₀ e)
    (hv : v ∈ e.reached.toList) :
    Ends (Crowded f values comp e) ((f.links v).foldlM (follow values v) e).result fun e' =>
      Walk f values comp index C v₀ e' ∧ Later f e e' ∧ ∀ link ∈ f.links v, Handled values comp C e' link := by
  rw [Traced.result_foldlM]
  refine Ends.foldlM (fun done e' => Walk f values comp index C v₀ e' ∧ Later f e e' ∧
    ∀ link ∈ done, Handled values comp C e' link) ⟨h, Later.refl f e, by simp⟩ ?_
  intro done link rest e1 hl hboth
  rcases hboth with ⟨h1, hlater, hdone⟩
  apply ((follow_spec hs h1 (hlater.reached.subset hv) (by rw [hl]; simp)).weaken
    fun fault hfull => hfull.of_spends hlater.spends).mono
  intro e2 hboth
  rcases hboth with ⟨h2, hlater2, hlink⟩
  refine ⟨h2, hlater.trans hlater2, fun x hx => ?_⟩
  rcases List.mem_append.1 hx with hx | hx
  · exact (hdone x hx).later hlater2
  · rw [List.mem_singleton.1 hx]; exact hlink

/-- **The whole walk** ends before its steps do: each step moves on by one reached candidate, and there are no
more of them than variables. -/
theorem walk_spec (hs : Setting f cls values comp) (steps : ℕ) {i : ℕ} (h : Walk f values comp index C v₀ e)
    (hdone : ∀ v ∈ e.reached.toList.take i, ∀ link ∈ f.links v, Handled values comp C e link)
    (hreached : i ≤ e.reached.toList.length) (hsteps : f.numVars < i + steps) :
    Ends (Crowded f values comp e) (walk values steps i e).result fun e' =>
      Walk f values comp index C v₀ e' ∧ Later f e e' ∧ Complete f values comp C e' := by
  have hlen : e.reached.toList.length ≤ f.numVars :=
    length_le_of_within h.nodup fun v hv => hs.within (h.marked.reachedCandidate v hv).1
  induction steps generalizing i e with
  | zero => omega
  | succ steps ih =>
    rw [walk]
    cases hi : e.reached[i]? with
    | none =>
      have hge : e.reached.toList.length ≤ i := by
        rw [Array.length_toList]
        exact Array.getElem?_eq_none_iff.1 hi
      refine ⟨h, Later.refl f e, fun v hv => hdone v ?_⟩
      rw [List.take_of_length_le hge]
      exact hv
    | some v =>
      rw [← Array.getElem?_toList] at hi
      have hv : v ∈ e.reached.toList := List.mem_of_getElem? hi
      have hvw : v.Within f.numVars := hs.within (h.marked.reachedCandidate v hv).1
      simp only [Traced.result_bind, Traced.result_lift]
      refine Ends.bind_of_eq (a := f.links v) ?_ ?_
      · rw [h.fits.adjacency]; exact Adjacency.linksOf_ofFormula hs.stores hvw
      · apply (links_spec hs h hv).bind
        intro e1 hboth
        rcases hboth with ⟨h1, hlater, hlinks⟩
        have hlen1 : e1.reached.toList.length ≤ f.numVars :=
          length_le_of_within h1.nodup fun v hv => hs.within (h1.marked.reachedCandidate v hv).1
        obtain ⟨hlt, hget⟩ := List.getElem?_eq_some_iff.1 hi
        have hreached1 : i + 1 ≤ e1.reached.toList.length := hlt.trans_le hlater.reached.length_le
        refine ((ih h1 ?_ hreached1 (by omega) hlen1).weaken
          fun fault hfull => hfull.of_spends hlater.spends).mono ?_
        · intro u hu link hlink
          have htake : e1.reached.toList.take (i + 1) = e.reached.toList.take (i + 1) := by
            obtain ⟨more, hmore⟩ := hlater.reached
            rw [← hmore, List.take_append_of_le_length (by omega)]
          rw [htake, List.take_add_one, hi] at hu
          rcases List.mem_append.1 hu with hu | hu
          · exact (hdone u hu link hlink).later hlater
          · rw [List.mem_singleton.1 hu] at hlink
            exact hlinks link hlink
        · intro e2 hboth
          rcases hboth with ⟨h2, hlater2, hcomplete⟩
          exact ⟨h2, hlater.trans hlater2, hcomplete⟩

/-- a complete walk has settled every kept clause that touches it -/
theorem Walk.settled (hs : Setting f cls values comp) (h : Walk f values comp index C v₀ e)
    (hc : Complete f values comp C e) {v : Var} {c : ClauseId} (hv : v ∈ e.reached.toList)
    (hk : f.Kept values comp c) (hvc : v ∈ f.varsOf c) :
    (∃ b, e.marks.clauseMark c = .seen b) ∨ e.marks.clauseMark c = .claimed := by
  have hcw : c.Within f.numLong := hs.clauses c hk.1
  have hne : e.marks.clauseMark c ≠ .unseen := by
    by_cases h3 : (f.literals c).length = 3
    · have hlen := Adjacency.length_othersOf (hs.proper hcw).nodup hvc
      obtain ⟨a, b, hab⟩ := List.length_eq_two.1 (show (othersOf v (f.literals c)).length = 2 by omega)
      exact hc v hv _ (hs.stores.ternary_mem_links.2 ⟨hcw, h3, hvc, hab⟩)
    · exact hc v hv _ (hs.stores.long_mem_links.2 ⟨hcw, h3, hvc, rfl⟩)
  cases hm : e.marks.clauseMark c with
  | outside => exact absurd hk (h.marked.clauseOutside c hm)
  | unseen => exact absurd hm hne
  | seen b => exact Or.inl ⟨b, rfl⟩
  | claimed => exact Or.inr rfl

/-- **A walk reaches a class.** Once all links are handled, exactly the variables connected to the start are
reached. -/
theorem Walk.mem_reached_iff (hs : Setting f cls values comp) (h : Walk f values comp index C v₀ e)
    (hc : Complete f values comp C e) (hclosed : ∀ v w, f.Joined values comp v w → C v → C w)
    (hv₀ : v₀ ∈ e.reached.toList) (w : Var) : w ∈ e.reached.toList ↔ f.Connected values comp v₀ w := by
  refine ⟨h.connected w, fun hconn => hconn.closed (C := fun w => w ∈ e.reached.toList) ?_ hv₀⟩
  intro u w hj hu
  obtain ⟨hucand, hnot⟩ := h.marked.reachedCandidate u hu
  have hor : w ∈ e.reached.toList ∨ C w := by
    by_cases huw : u = w
    · exact Or.inl (huw ▸ hu)
    · rcases hj.2.2 with hb | ⟨c, hk, huc, hwc⟩
      · exact hc u hu _ ((hs.binary_iff (hs.within hucand) huw).1 hb) hj.2.1
      · rcases h.settled hs hc hu hk huc with ⟨b, hm⟩ | hm
        · exact (h.marked.clauseSeen c b hm).2.2 w hwc hj.2.1
        · exact Or.inr ((h.marked.clauseClaimed c hm).2 w hwc hj.2.1)
  rcases hor with hr | hr
  · exact hr
  · exact absurd (hclosed w u hj.symm hr) hnot

/-! ## Between two walks -/

/-- no walk is under way, and the claimed candidates are closed under joining -/
structure Between (f : Formula) (values : Assignment) (comp : Component) (index : ℕ) (C : Var → Prop)
    (e : Explorer) : Prop where
  fits : e.Fits f
  binding : e.marks.binding = some (index, comp.id)
  marked : Marked f values comp C [] e.marks
  closed : ∀ v w, f.Joined values comp v w → C v → C w

def withClass (f : Formula) (values : Assignment) (comp : Component) (C : Var → Prop) (v : Var) : Var → Prop :=
  fun w => C w ∨ f.Connected values comp v w

theorem withClass_closed (hclosed : ∀ v w, f.Joined values comp v w → C v → C w) (v : Var) :
    ∀ u w, f.Joined values comp u w → withClass f values comp C v u → withClass f values comp C v w := by
  intro u w hj hor
  rcases hor with hu | hu
  · exact Or.inl (hclosed u w hj hu)
  · exact Or.inr (hu.tail hj)

structure Ended (f : Formula) (values : Assignment) (comp : Component) (index : ℕ) (C : Var → Prop) (v : Var)
    (e : Explorer) : Prop where
  walk : Walk f values comp index C v e
  complete : Complete f values comp C e
  mem_reached : ∀ w, w ∈ e.reached.toList ↔ f.Connected values comp v w

/-- a walk begins with one reached candidate -/
theorem Between.walk (hs : Setting f cls values comp) {v : Var} (h : Between f values comp index C e)
    (hv : Candidate values comp v) (hC : ¬ C v) :
    Walk f values comp index C v { e with marks := e.marks.putVar v .seen, reached := #[v] } := by
  have hlt := h.fits.index_lt_slots (hs.within hv)
  have hu : e.marks.varMark v = .unseen := (h.marked.unseen v).2 ⟨hv, hC, by simp⟩
  refine ⟨⟨h.fits.maxVar, h.fits.adjacency, h.fits.scores, Marks.numSlots_putVar.trans h.fits.slots⟩, h.binding,
    by simp, ?_, ?_⟩
  · intro w hw
    simp only [List.mem_singleton] at hw
    rw [hw]
    exact Relation.ReflTransGen.refl
  · have hnew : ∀ w ∈ [v], e.marks.varMark w = .unseen := by simpa using hu
    refine h.marked.grow hnew (fun w => ?_) fun c => Marks.clauseMark_putVar
    rw [Marks.varMark_putVar hlt]
    simp

theorem collect_spec (hs : Setting f cls values comp) {v : Var} (h : Between f values comp index C e)
    (hv : Candidate values comp v) (hC : ¬ C v) :
    Ends (Crowded f values comp e) (e.collect v values).result fun e' =>
      Ended f values comp index C v e' ∧ Spends f e e' := by
  have h0 := h.walk hs hv hC
  have hspends : Spends f e { e with marks := e.marks.putVar v .seen, reached := #[v] } :=
    spends_putVar (h.fits.index_lt_slots (hs.within hv)) (by simp)
  unfold collect
  refine ((walk_spec hs _ h0 (by simp) (Nat.zero_le _) ?_).weaken fun fault hfull => hfull.of_spends hspends).mono ?_
  · rw [h.fits.slots]
    have := le_max_left f.numVars f.numLong
    omega
  · intro e' hboth
    rcases hboth with ⟨h1, hlater, hcomplete⟩
    exact ⟨⟨h1, hcomplete, h1.mem_reached_iff hs hcomplete h.closed (hlater.reached.subset (by simp))⟩,
      hspends.trans hlater.spends⟩

theorem Ended.mem_self {v : Var} (h : Ended f values comp index C v e) : v ∈ e.reached.toList :=
  (h.mem_reached v).2 Relation.ReflTransGen.refl

/-- once all that was reached is claimed, another walk may start -/
theorem Ended.between {v : Var} (h : Ended f values comp index C v e)
    (hclosed : ∀ v w, f.Joined values comp v w → C v → C w) {m : Marks} (hslots : m.numSlots = e.marks.numSlots)
    (hbind : m.binding = e.marks.binding)
    (hm : Marked f values comp (fun w => C w ∨ w ∈ e.reached.toList) [] m) :
    Between f values comp index (withClass f values comp C v) { e with marks := m } := by
  have heq : (fun w => C w ∨ w ∈ e.reached.toList) = withClass f values comp C v := by
    funext w
    rw [withClass, h.mem_reached]
  rw [heq] at hm
  have hfits := h.walk.fits
  exact ⟨⟨hfits.maxVar, hfits.adjacency, hfits.scores, hslots.trans hfits.slots⟩, hbind.trans h.walk.binding, hm,
    withClass_closed hclosed v⟩

/-- a class of one variable, claimed -/
theorem Ended.between_single {v : Var} (h : Ended f values comp index C v e)
    (hclosed : ∀ v w, f.Joined values comp v w → C v → C w) (hv : v.index < e.marks.numSlots)
    (hone : e.reached.size = 1) :
    Between f values comp index (withClass f values comp C v) { e with marks := e.marks.putVar v .claimed } ∧
      ∀ w, f.Connected values comp v w → w = v := by
  have hR : e.reached.toList = [v] := by
    obtain ⟨w, hw⟩ := List.length_eq_one_iff.1 ((Array.length_toList).trans hone)
    have hvr := h.mem_self
    rw [hw] at hvr ⊢
    rw [List.mem_singleton.1 hvr]
  have halone : ∀ w, f.Connected values comp v w → w = v := by
    intro w hw
    rw [← h.mem_reached, hR] at hw
    exact List.mem_singleton.1 hw
  have hm := h.walk.marked
  refine ⟨h.between hclosed Marks.numSlots_putVar rfl (hm.claim (fun w => ?_) fun c => ?_), halone⟩
  · rw [Marks.varMark_putVar hv, hR]
    simp only [List.mem_singleton]
  · -- a seen clause would join the variable with another one
    refine Or.inr ⟨Marks.clauseMark_putVar, fun hl b hs => ?_⟩
    obtain ⟨w, hw, hwr⟩ := hm.seenTouches hl c b hs
    have hwv : w = v := by rwa [hR, List.mem_singleton] at hwr
    obtain ⟨u, hu, hne⟩ := hl c (hm.clauseSeen c b hs).1 w hw (hm.reachedCandidate w hwr).1
    rw [hwv] at hu hne
    exact hne (halone u hu)

/-- **One walk.** A class of one variable gives the factor 2 and is claimed; otherwise the whole class is reached. -/
theorem explore_spec (node : Node) (hs : Setting f cls values comp) {v : Var} (h : Between f values comp index C e)
    (hv : Candidate values comp v) (hC : ¬ C v) :
    Ends (Crowded f values comp e) (e.explore node v values).result fun r => Spends f e r.2.1 ∧
      ((r.1 = false ∧ r.2.2 = node.times 2 ∧ Between f values comp index (withClass f values comp C v) r.2.1 ∧
          ∀ w, f.Connected values comp v w → w = v) ∨
        (r.1 = true ∧ r.2.2 = node ∧ Ended f values comp index C v r.2.1 ∧ 2 ≤ r.2.1.reached.toList.length)) := by
  have hvw := hs.within hv
  have hu : e.marks.varMark v = .unseen := (h.marked.unseen v).2 ⟨hv, hC, by simp⟩
  simp only [explore, Traced.result_bind, Traced.result_lift]
  apply Ends.bind_of_eq (Marks.var_eq (h.fits.index_lt_slots hvw))
  apply Ends.bind_of_eq (require_pos hu)
  apply (collect_spec hs h hv hC).bind
  intro e1 hboth
  rcases hboth with ⟨h1, hspends⟩
  by_cases hone : e1.reached.size = 1
  · rw [if_pos hone]
    have hlt := h1.walk.fits.index_lt_slots hvw
    obtain ⟨k1, k2⟩ := h1.between_single h.closed hlt hone
    exact ⟨hspends.trans (spends_putVar hlt (by simp)), Or.inl ⟨rfl, rfl, k1, k2⟩⟩
  · rw [if_neg hone]
    refine ⟨hspends, Or.inr ⟨rfl, rfl, h1, ?_⟩⟩
    have := List.length_pos_of_mem h1.mem_self
    show 2 ≤ e1.reached.toList.length
    rw [Array.length_toList] at this ⊢
    omega

/-! ## Sweeping a class out -/

/-- the part of the seen members -/
theorem Ended.isPart (hs : Setting f cls values comp) {v : Var} (h : Ended f values comp index C v e)
    (htwo : 2 ≤ e.reached.toList.length) :
    IsPart f values comp v
      (.ofParts (e.marks.seenVars comp) ((e.marks.seenClauses comp).map Prod.fst))
      (.ofParts (e.marks.seenVars comp) (((e.marks.seenClauses comp).filter fun c => !c.2).map Prod.fst)) := by
  have hm := h.walk.marked
  have hvars : ∀ w, w ∈ e.marks.seenVars comp ↔ w ∈ e.reached.toList := by
    intro w
    rw [← hm.seen]
    simp only [Marks.seenVars, List.mem_filter, beq_iff_eq, and_iff_right_iff_imp]
    intro hw
    exact (hm.reachedCandidate w ((hm.seen w).1 hw)).1.1
  have hflag : ∀ c b, (c, b) ∈ e.marks.seenClauses comp ↔ e.marks.clauseMark c = .seen b := by
    intro c b
    rw [Marks.mem_seenClauses]
    exact and_iff_right_of_imp fun hd => (hm.clauseSeen c b hd).1.1
  have hclauses : ∀ c, c ∈ (e.marks.seenClauses comp).map Prod.fst ↔ ∃ b, e.marks.clauseMark c = .seen b := by
    intro c
    simp only [List.mem_map, Prod.exists, hflag, exists_and_right, exists_eq_right]
  refine ⟨(hm.reachedCandidate v h.mem_self).1, ?_, ?_, ?_, ?_, ?_, ?_, ?_, ?_⟩ <;>
    simp only [Component.vars_ofParts, Component.clauses_ofParts, hvars, hclauses]
  · exact List.filter_sublist
  · exact h.mem_reached
  · have hsp : e.reached.toList.Subperm (e.marks.seenVars comp) :=
      h.walk.nodup.subperm fun w hw => (hvars w).2 hw
    exact htwo.trans hsp.length_le
  · rw [Marks.map_fst_seenClauses]
    exact List.filter_sublist
  · intro c hc
    obtain ⟨b, hb⟩ := hc
    exact (hm.clauseSeen c b hb).1
  · intro c hk hw
    obtain ⟨w, hwc, hw⟩ := hw
    rcases h.walk.settled hs h.complete hw hk hwc with hb | hb
    · exact hb
    · obtain ⟨hcand, hnot⟩ := hm.reachedCandidate w hw
      exact absurd ((hm.clauseClaimed c hb).2 w hwc hcand) hnot
  · intro hl c hc
    obtain ⟨b, hb⟩ := hc
    exact hm.seenTouches hl c b hb
  · refine ⟨((e.marks.seenClauses comp).filter fun c => !c.2).map Prod.fst, rfl, List.filter_sublist.map _, ?_⟩
    intro c
    simp only [List.mem_map, List.mem_filter, Prod.exists, hflag, Bool.not_eq_eq_eq_not, Bool.not_true]
    constructor
    · intro hex
      rcases hex with ⟨d, b, ⟨hd, rfl⟩, rfl⟩
      refine ⟨⟨false, hd⟩, fun ha => ?_⟩
      cases (hm.clauseSeen d false hd).2.1.2 ha
    · intro hboth
      rcases hboth with ⟨⟨b, hd⟩, ha⟩
      refine ⟨c, b, ⟨hd, ?_⟩, rfl⟩
      by_contra hb
      exact ha ((hm.clauseSeen c b hd).2.1.1 (by simpa using hb))

/-- taking a part out makes nothing unseen -/
theorem Ended.claim_sees (hs : Setting f cls values comp) {v : Var} (h : Ended f values comp index C v e)
    {part : Component} {signature : Signature} {marks : Marks}
    (hclaim : e.marks.claim comp = .ok (part, signature, marks)) : Sees e { e with marks := marks } := by
  obtain ⟨m, hm, -, -, hvar, hclause⟩ := Marks.claim_eq h.walk.binding
    (fun v hv => h.walk.fits.index_lt_slots (hs.vars v hv)) hs.varsNodup
    (fun c hc => h.walk.fits.clause_lt_slots (hs.clauses c hc)) hs.clausesNodup
  rw [hm] at hclaim
  cases hclaim
  refine ⟨fun w hw => ?_, fun c hc => ?_⟩
  · have hw' : marks.varMark w = .unseen := hw
    rw [hvar] at hw'
    split_ifs at hw'
    exact hw'
  · have hc' : marks.clauseMark c = .unseen := hc
    rw [hclause] at hc'
    split_ifs at hc'
    exact hc'

/-- **One sweep.** The reached class comes out as a part, and everything that came out is claimed. -/
theorem claim_spec (hs : Setting f cls values comp) {v : Var} (h : Ended f values comp index C v e)
    (hclosed : ∀ v w, f.Joined values comp v w → C v → C w) (htwo : 2 ≤ e.reached.toList.length) :
    ∃ part signature marks, e.marks.claim comp = .ok (part, signature, marks) ∧
      IsPart f values comp v part signature ∧
      Between f values comp index (withClass f values comp C v) { e with marks := marks } ∧
      Spends f e { e with marks := marks } := by
  have hm := h.walk.marked
  obtain ⟨m, h1, h2, h3, h4, h5⟩ := Marks.claim_eq h.walk.binding
    (fun v hv => h.walk.fits.index_lt_slots (hs.vars v hv)) hs.varsNodup
    (fun c hc => h.walk.fits.clause_lt_slots (hs.clauses c hc)) hs.clausesNodup
  refine ⟨_, _, m, h1, h.isPart hs htwo, h.between hclosed h2 h3 (hm.claim (fun w => ?_) fun c => ?_),
    (h.claim_sees hs h1).spends fun _ => rfl⟩
  · rw [h4]
    by_cases hw : w ∈ e.reached.toList
    · rw [if_pos hw, if_pos ⟨(hm.reachedCandidate w hw).1.1, (hm.seen w).2 hw⟩]
    · rw [if_neg hw, if_neg (fun hh => hw ((hm.seen w).1 hh.2))]
  · rw [h5]
    by_cases hb : ∃ b, e.marks.clauseMark c = .seen b
    · obtain ⟨b, hd⟩ := hb
      exact Or.inl ⟨⟨b, hd⟩, if_pos ⟨(hm.clauseSeen c b hd).1.1, Marks.isSome_seenFlag.2 ⟨b, hd⟩⟩⟩
    · exact Or.inr ⟨if_neg fun hh => hb (Marks.isSome_seenFlag.1 hh.2), fun _ b hd => hb ⟨b, hd⟩⟩

end Explorer

end ModelCount
