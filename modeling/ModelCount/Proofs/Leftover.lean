/-
What the walks of a pass leave behind.

A part is claimed with the clauses that are seen, but a variable that is alone is claimed by itself: its kept clauses
stay seen (`explore_alone`), and the next part that is claimed takes them along. So a pass is tidy after every
variable exactly if no candidate of a kept clause is alone (`pass_tidy_iff`), which unit propagation sees to. Variables
are never left behind.
-/
import Mathlib.Tactic
import ModelCount.Proofs.Key
import ModelCount.Proofs.Pieces

namespace ModelCount

open Formula Explorer

variable {f : Formula} {cls : List (List Lit)} {values : Assignment} {comp : Component} {index : ℕ} {C : Var → Prop}
  {e : Explorer} {v : Var}

namespace Explorer

/-- the walk from a variable that is alone ends with its kept clauses seen -/
theorem Ended.seen_of_alone (hs : Setting f cls values comp) (h : Ended f values comp index C v e)
    (hv : Candidate values comp v) (hC : ¬ C v) {c : ClauseId} (hk : f.Kept values comp c) (hvc : v ∈ f.varsOf c) :
    ∃ b, e.marks.clauseMark c = .seen b := by
  rcases h.walk.settled hs h.complete h.mem_self hk hvc with hseen | hclaimed
  · exact hseen
  · exact absurd ((h.walk.marked.clauseClaimed c hclaimed).2 v hvc hv) hC

/-- **What is left behind.** Exploring a variable that is alone leaves its kept clauses seen. -/
theorem explore_alone (hs : Setting f cls values comp) (h : Between f values comp index C e)
    (hv : Candidate values comp v) (hC : ¬ C v) (halone : ∀ w, f.Connected values comp v w → w = v) {node : Node}
    {r : Bool × Explorer × Node} (hrun : (e.explore node v values).result = .ok r) {c : ClauseId}
    (hk : f.Kept values comp c) (hvc : v ∈ f.varsOf c) : r.1 = false ∧ ∃ b, r.2.1.marks.clauseMark c = .seen b := by
  simp only [explore, Traced.result_bind, Traced.result_lift] at hrun
  obtain ⟨mark, -, hrun⟩ := exists_of_bind hrun
  obtain ⟨⟨⟩, -, hrun⟩ := exists_of_bind hrun
  obtain ⟨e', hcollect, hrun⟩ := exists_of_bind hrun
  obtain ⟨hended, -⟩ := (collect_spec hs h hv hC).get hcollect
  have hone : e'.reached.size = 1 := by
    have hsub : e'.reached.toList ⊆ [v] := fun w hw =>
      List.mem_singleton.2 (halone w ((hended.mem_reached w).1 hw))
    have hle := (hended.walk.nodup.subperm hsub).length_le
    have hpos := List.length_pos_of_mem hended.mem_self
    rw [List.length_singleton] at hle
    rw [← Array.length_toList]
    omega
  rw [if_pos hone] at hrun
  cases hrun
  obtain ⟨b, hb⟩ := hended.seen_of_alone hs hv hC hk hvc
  exact ⟨rfl, b, Marks.clauseMark_putVar.trans hb⟩

/-- one variable of a pass: nothing happens where it is no candidate or claimed already; else its class is claimed,
and if it is alone its kept clauses are left behind -/
theorem probe_cases (hs : Setting f cls values comp) (h : Between f values comp index C e) (hv : v ∈ comp.vars)
    {r : List (Option Part) × Explorer} (hrun : probe comp values e v = .ok r) :
    (¬ (Candidate values comp v ∧ ¬ C v) ∧ r.2 = e) ∨
      (Candidate values comp v ∧ ¬ C v ∧ Between f values comp index (withClass f values comp C v) r.2 ∧
        ((∀ w, f.Connected values comp v w → w = v) → ∀ c, f.Kept values comp c → v ∈ f.varsOf c →
          ∃ b, r.2.marks.clauseMark c = .seen b)) := by
  obtain ⟨b, hb, hiff⟩ := isCandidate_eq hs h hv
  rw [probe, hb, Except.ok_bind] at hrun
  cases b with
  | false =>
    cases hrun
    exact Or.inl ⟨fun hboth => absurd (hiff.2 hboth) (by simp), rfl⟩
  | true =>
    obtain ⟨hcand, hnot⟩ := hiff.1 rfl
    obtain ⟨⟨several, e₁, node⟩, hexplore, hrun⟩ := exists_of_bind hrun
    have hleft := fun halone c hk hvc => explore_alone hs h hcand hnot halone hexplore (c := c) hk hvc
    obtain ⟨-, hor⟩ := (explore_spec default hs h hcand hnot).get hexplore
    refine Or.inr ⟨hcand, hnot, ?_⟩
    rcases hor with ⟨rfl, -, hb', -⟩ | ⟨rfl, -, hended, htwo⟩
    · cases hrun
      exact ⟨hb', fun halone c hk hvc => (hleft halone c hk hvc).2⟩
    · obtain ⟨part, signature, marks, hclaim, -, hb', -⟩ := claim_spec hs hended h.closed htwo
      simp only [if_true] at hrun
      rw [hclaim, Except.ok_bind] at hrun
      cases hrun
      exact ⟨hb', fun halone c hk hvc => absurd (hleft halone c hk hvc).1 (by simp)⟩

end Explorer

namespace Decomposer

variable {d : Decomposer} {node : Node} {done : List Var}

/-- the pass over the super-component of a node, after the first variables -/
def passAfter (d : Decomposer) (node : Node) (comp : Component) (values : Assignment) (done : List Var) :
    Except Fault Sweep := do
  let e ← d.explorer.prepare node.superIndex comp values
  done.foldlM (fun s v => (sweepVar d.config.caching comp values s v).result) ⟨e, d.store, node, [], 0⟩

theorem passAfter_append (d : Decomposer) (node : Node) (comp : Component) (values : Assignment)
    (done rest : List Var) :
    d.passAfter node comp values (done ++ rest) = d.passAfter node comp values done >>= fun s =>
      rest.foldlM (fun s v => (sweepVar d.config.caching comp values s v).result) s := by
  simp only [passAfter, bind_assoc, List.foldlM_append]

/-- a split that gives a result has gone through all states of its pass -/
theorem passAfter_of_split {r : Decomposer × Node} (hsuper : d.superOf node = .ok comp)
    (hrun : (d.split node values).result = .ok r) (hdone : done <+: comp.vars) :
    ∃ s, d.passAfter node comp values done = .ok s := by
  obtain ⟨e, s, hprepare, hsweep, -⟩ := split_steps hsuper hrun
  obtain ⟨rest, hrest⟩ := hdone
  have hall : d.passAfter node comp values (done ++ rest) = .ok s := by
    rw [passAfter, hprepare, hrest]
    exact hsweep
  rw [passAfter_append] at hall
  obtain ⟨s', hs', -⟩ := exists_of_bind hall
  exact ⟨s', hs'⟩

/-- one more variable of a pass -/
theorem probe_of_foldlM {s t : Sweep}
    (hrun : [v].foldlM (fun s v => (sweepVar d.config.caching comp values s v).result) s = .ok t) :
    ∃ p, probe comp values s.explorer v = .ok p ∧ t.explorer = p.2 := by
  rw [List.foldlM_cons] at hrun
  obtain ⟨t', hstep, hrun⟩ := exists_of_bind hrun
  rw [List.foldlM_nil] at hrun
  cases hrun
  obtain ⟨p, hprobe, tally, -, rfl⟩ := sweepVar_ok hstep
  exact ⟨p, hprobe, rfl⟩

/-- after some variables the classes of candidates among them are claimed, and no others -/
theorem passAfter_spec (hs : Setting f cls values comp) (hfits : d.explorer.Fits f) (hdone : ∀ v ∈ done, v ∈ comp.vars)
    {s : Sweep} (hrun : d.passAfter node comp values done = .ok s) :
    ∃ C, Between f values comp node.superIndex C s.explorer ∧
      ∀ w, C w → ∃ v ∈ done, f.Connected values comp v w := by
  induction done using List.reverseRecOn generalizing s with
  | nil =>
    obtain ⟨e, hprepare, hrun⟩ := exists_of_bind hrun
    cases hrun
    exact ⟨_, ((prepare_spec (E := AnyFault) hs hfits node.superIndex).get hprepare).1, nofun⟩
  | append_singleton done v ih =>
    rw [passAfter_append] at hrun
    obtain ⟨s₁, h₁, hrun⟩ := exists_of_bind hrun
    obtain ⟨C, hb, hC⟩ := ih (fun w hw => hdone w (List.mem_append_left _ hw)) h₁
    obtain ⟨p, hprobe, hexplorer⟩ := probe_of_foldlM hrun
    rw [hexplorer]
    rcases probe_cases hs hb (hdone v (by simp)) hprobe with ⟨-, heq⟩ | ⟨-, -, hb', -⟩
    · refine ⟨C, by rw [heq]; exact hb, fun w hw => ?_⟩
      obtain ⟨u, hu, hconn⟩ := hC w hw
      exact ⟨u, List.mem_append_left _ hu, hconn⟩
    · refine ⟨_, hb', fun w hw => ?_⟩
      rcases hw with hw | hw
      · obtain ⟨u, hu, hconn⟩ := hC w hw
        exact ⟨u, List.mem_append_left _ hu, hconn⟩
      · exact ⟨v, by simp, hw⟩

/-- **Tidy passes.** In a pass that gives a result no variable is seen after any variable was dealt with. That no clause
is seen either holds exactly if no candidate of a kept clause is alone. Then every clause that is taken out with a part
has a free variable of the part. -/
theorem pass_tidy_iff (hs : Setting f cls values comp) (hfits : d.explorer.Fits f) (hsuper : d.superOf node = .ok comp)
    {r : Decomposer × Node} (hrun : (d.split node values).result = .ok r) :
    (∀ done, done <+: comp.vars →
      ∃ s, d.passAfter node comp values done = .ok s ∧ ∀ v, s.explorer.marks.varMark v ≠ .seen) ∧
    ((∀ done s, done <+: comp.vars → d.passAfter node comp values done = .ok s →
      ∀ c b, s.explorer.marks.clauseMark c ≠ .seen b) ↔ f.NoLonely values comp) ∧
    (f.NoLonely values comp → ∀ part signature, Emits f values comp part signature →
      ∀ c ∈ part.clauses, ∃ w ∈ f.varsOf c, w ∈ part.vars ∧ values.Free w) := by
  refine ⟨fun done hdone => ?_, ⟨fun htidy c hk v hvc hv => ?_, fun hlonely done s hdone hpass c b hseen => ?_⟩,
    fun hlonely part signature hemits c hc => ?_⟩
  · obtain ⟨s, hpass⟩ := passAfter_of_split hsuper hrun hdone
    obtain ⟨C, hb, -⟩ := passAfter_spec hs hfits (fun v hv => hdone.subset hv) hpass
    exact ⟨s, hpass, fun v hv => by simpa using (hb.marked.seen v).1 hv⟩
  · -- if `v` were alone, the state right after it would have `c` seen
    by_contra hnone
    have halone : ∀ w, f.Connected values comp v w → w = v := fun w hw =>
      by_contra fun hne => hnone ⟨w, hw, hne⟩
    obtain ⟨before, after, hsplit⟩ := List.append_of_mem hv.1
    have hnew : v ∉ before := by
      have hnodup := hs.varsNodup
      rw [hsplit, List.nodup_append] at hnodup
      exact fun hm => hnodup.2.2 v hm v (by simp) rfl
    have hdone : before ++ [v] <+: comp.vars := ⟨after, by rw [hsplit]; simp⟩
    obtain ⟨s, hpass⟩ := passAfter_of_split hsuper hrun hdone
    have hpass' := hpass
    rw [passAfter_append] at hpass'
    obtain ⟨s₁, h₁, hstep⟩ := exists_of_bind hpass'
    obtain ⟨C, hb, hC⟩ := passAfter_spec hs hfits (fun w hw => hdone.subset (List.mem_append_left _ hw)) h₁
    have hunclaimed : ¬ C v := by
      intro hcv
      obtain ⟨u, hu, hconn⟩ := hC v hcv
      exact hnew (halone u hconn.symm ▸ hu)
    obtain ⟨p, hprobe, heq⟩ := probe_of_foldlM hstep
    rcases probe_cases hs hb hv.1 hprobe with ⟨hno, -⟩ | ⟨-, -, -, hleft⟩
    · exact hno ⟨hv, hunclaimed⟩
    · obtain ⟨b, hseen⟩ := hleft halone c hk hvc
      exact htidy _ s hdone hpass c b (by rw [heq]; exact hseen)
  · obtain ⟨C, hb, -⟩ := passAfter_spec hs hfits (fun v hv => hdone.subset hv) hpass
    obtain ⟨w, -, hw⟩ := hb.marked.seenTouches hlonely c b hseen
    cases hw
  · obtain ⟨v, hpart⟩ := hemits.isPart hs
    obtain ⟨w, hw, hwp⟩ := hpart.touches hlonely c hc
    exact ⟨w, hw, hwp, (((hpart.mem_vars w).1 hwp).candidate hpart.candidate).2⟩

/-- one clause of which two literals are false: the third variable is alone, as what it leaves behind shows -/
theorem pass_tidy_iff_one_clause :
    let u := Value.unassigned
    let values : Assignment := ⟨#[u, u, u, u, .isTrue, .isFalse, .isTrue, .isFalse]⟩
    let root := (Component.whole ⟨3⟩ ⟨1⟩).withId .root
    ∃ f d, Formula.ofClauses 3 [[1, 2, 3]] = .ok f ∧ loaded ⟨false, 0, 0⟩ f = .ok d ∧
      (∃ r, (d.split (Node.start 1 2) values).result = .ok r) ∧ ¬ f.NoLonely values root := by
  intro u values root
  let f := ((Formula.empty 3).addLong ([1, 2, 3].map Lit.ofInt)).1
  have hf : Formula.ofClauses 3 [[1, 2, 3]] = .ok f := rfl
  obtain ⟨-, hstores⟩ := stores_of_ofClauses (by decide) hf
  have hs : Setting f _ values root :=
    ⟨hstores, by decide, by decide, by decide, by decide, by decide, by decide⟩
  obtain ⟨d, hload, hfits, hsuper, hsplit, hseen⟩ : ∃ d, loaded ⟨false, 0, 0⟩ f = .ok d ∧ d.explorer.Fits f ∧
      d.superOf (Node.start 1 2) = .ok root ∧ (d.split (Node.start 1 2) values).result.toOption.isSome = true ∧
      (d.passAfter (Node.start 1 2) root values [⟨1⟩]).toOption.map (fun s => s.explorer.marks.clauseMark ⟨1⟩) =
        some (.seen false) := ⟨_, rfl, fits_ofFormula f, rfl, by decide +kernel, by decide +kernel⟩
  obtain ⟨r, hr⟩ := Option.isSome_iff_exists.1 hsplit
  obtain ⟨s, hpass, hmark⟩ := Option.map_eq_some_iff.1 hseen
  refine ⟨f, d, hf, hload, ⟨r, Except.eq_ok_of_toOption hr⟩, fun hlonely => ?_⟩
  exact (pass_tidy_iff hs hfits hsuper (Except.eq_ok_of_toOption hr)).2.1.2 hlonely [⟨1⟩] s (by decide)
    (Except.eq_ok_of_toOption hpass) ⟨1⟩ false hmark

/-- without propagation a pass need not be tidy: the clause of a variable that is alone comes out with a component of
which it has no variable -/
theorem pass_untidy :
    let u := Value.unassigned
    let values : Assignment := ⟨#[u, u, u, u, .isTrue, .isFalse, .isTrue, .isFalse, u, u, u, u]⟩
    let root := (Component.whole ⟨5⟩ ⟨1⟩).withId .root
    (Assignment.empty 5).assignAll ([-2, -3].map Lit.ofInt) = .ok values ∧
    ∃ f d, Formula.ofClauses 5 [[1, 2, 3], [4, 5]] = .ok f ∧ loaded ⟨false, 0, 0⟩ f = .ok d ∧
      (∃ s, d.passAfter (Node.start 1 2) root values [⟨1⟩] = .ok s ∧ s.explorer.marks.clauseMark ⟨1⟩ = .seen false) ∧
      ∃ r, (d.split (Node.start 1 2) values).result = .ok r ∧
        ∃ p ∈ r.1.stack.drop 2, ⟨1⟩ ∈ p.clauses ∧ ∀ w ∈ f.varsOf ⟨1⟩, w ∉ p.vars := by
  intro u values root
  let f := ((Formula.empty 5).addLong ([1, 2, 3].map Lit.ofInt)).1.addBinary (Lit.ofInt 4) (Lit.ofInt 5)
  obtain ⟨d, hload, hseen, hpushed⟩ : ∃ d, loaded ⟨false, 0, 0⟩ f = .ok d ∧
      (d.passAfter (Node.start 1 2) root values [⟨1⟩]).toOption.map (fun s => s.explorer.marks.clauseMark ⟨1⟩) =
        some (.seen false) ∧
      (d.split (Node.start 1 2) values).result.toOption.map
        (fun r => decide (∃ p ∈ r.1.stack.drop 2, ⟨1⟩ ∈ p.clauses ∧ ∀ w ∈ f.varsOf ⟨1⟩, w ∉ p.vars)) = some true :=
    ⟨_, rfl, by decide +kernel, by decide +kernel⟩
  obtain ⟨s, hpass, hmark⟩ := Option.map_eq_some_iff.1 hseen
  obtain ⟨r, hsplit, hp⟩ := Option.map_eq_some_iff.1 hpushed
  exact ⟨rfl, f, d, rfl, hload, ⟨s, Except.eq_ok_of_toOption hpass, hmark⟩, r, Except.eq_ok_of_toOption hsplit,
    of_decide_eq_true hp⟩

end Decomposer

end ModelCount
