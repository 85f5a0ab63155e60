/-
The unit closure.

Where all literals of a clause but one are false, that one is forced (`Last`). A unit step makes a forced literal true;
an assignment is closed if all forced literals are true. A unit step stays below every closed assignment above it
(`UnitStep.extends`), so that the order of the steps does not matter: propagation makes unit steps only, and ends in the
least closed extension, or with a clause that is false under every closed one (`propagate_closure`).
-/
import Mathlib.Logic.Relation
import Mathlib.Tactic
import ModelCount.Proofs.Part
import ModelCount.Proofs.Propagate

namespace ModelCount

open Formula

variable {n : ℕ} {cls cls' : List (List Lit)} {values values' b : Assignment} {d : List Lit} {l : Lit}

/-! ## The unit rule -/

/-- all literals of a clause are false, but for the given one perhaps -/
def Last (values : Assignment) (d : List Lit) (l : Lit) : Prop := l ∈ d ∧ ∀ m ∈ d, m ≠ l → values.val m = .isFalse

/-- a literal of a clause becomes true that had no value, all others being false -/
def UnitStep (cls : List (List Lit)) (values values' : Assignment) : Prop :=
  ∃ d ∈ cls, ∃ l, Last values d l ∧ values.val l = .unassigned ∧ values.assign l = .ok values'

def UnitSteps (cls : List (List Lit)) : Assignment → Assignment → Prop := Relation.ReflTransGen (UnitStep cls)

def UnitClosed (cls : List (List Lit)) (values : Assignment) : Prop :=
  ∀ d ∈ cls, ∀ l, Last values d l → values.val l = .isTrue

def Satisfies (values : Assignment) (cls : List (List Lit)) : Prop := ∀ d ∈ cls, ∃ l ∈ d, values.val l = .isTrue

/-- the least extension of an assignment of the variables 1 to `n` that is closed under the unit rule -/
structure IsUnitClosure (n : ℕ) (cls : List (List Lit)) (values values' : Assignment) : Prop where
  fits : values'.Fits n
  grows : values.Extends values'
  closed : UnitClosed cls values'
  least : ∀ b : Assignment, b.Fits n → values.Extends b → UnitClosed cls b → values'.Extends b

theorem Assignment.Extends.val_eq (h : values.Extends values') (h' : values'.Extends values) (m : Lit) :
    values.val m = values'.val m := by
  by_cases hm : values.val m = .unassigned
  · by_contra hne
    exact hne (h' m fun he => hne (hm.trans he.symm))
  · exact (h m hm).symm

theorem Last.extends (h : Last values d l) (hext : values.Extends b) : Last b d l :=
  ⟨h.1, fun m hm hne => (hext m (by rw [h.2 m hm hne]; simp)).trans (h.2 m hm hne)⟩

/-- a clause that is satisfied or has two free literals forces no more than it has -/
theorem Propagated.last (h : Propagated values d) (hd : d.Nodup) (hl : Last values d l) : values.val l = .isTrue := by
  rcases h with hsat | htwo
  · unfold Unsatisfied at hsat
    push Not at hsat
    obtain ⟨m, hm, htrue⟩ := hsat
    by_contra hne
    have hfalse := hl.2 m hm fun he => hne (he ▸ htrue)
    rw [hfalse] at htrue
    cases htrue
  · -- all free literals are the one that is left
    have hone : ∀ m ∈ d.filter (fun m => decide (values.val m = .unassigned)), m = l := by
      intro m hm
      obtain ⟨hmd, hfree⟩ := List.mem_filter.1 hm
      by_contra hne
      rw [decide_eq_true_eq, hl.2 m hmd hne] at hfree
      cases hfree
    have hle := ((hd.filter _).subperm fun m hm => List.mem_singleton.2 (hone m hm)).length_le
    rw [List.length_singleton] at hle
    omega

theorem unitClosed_of_propagated (hd : ∀ d ∈ cls, (d.map Lit.var).Nodup) (h : ∀ d ∈ cls, Propagated values d) :
    UnitClosed cls values :=
  fun d hm _ hl => (h d hm).last ((hd d hm).of_map _) hl

/-- an assignment that satisfies all clauses is closed -/
theorem Satisfies.unitClosed (h : Satisfies values cls) : UnitClosed cls values := by
  intro d hd l hl
  obtain ⟨m, hm, htrue⟩ := h d hd
  by_contra hne
  have hfalse := hl.2 m hm fun he => hne (he ▸ htrue)
  rw [hfalse] at htrue
  cases htrue

/-- **Unit steps do not overshoot.** What is below a closed assignment is still below it after a unit step. -/
theorem UnitStep.extends (hw : ∀ d ∈ cls, ∀ l ∈ d, l.var.Within n) (hv : values.Fits n) (hb : b.Fits n)
    (hclosed : UnitClosed cls b) (hext : values.Extends b) (h : UnitStep cls values values') : values'.Extends b := by
  obtain ⟨d, hd, l, hl, -, hassign⟩ := h
  have hlw := hw d hd l hl.1
  obtain ⟨a, hrun, -, -, hval⟩ := hv.assign_eq hlw
  rw [hassign] at hrun
  cases hrun
  have htrue := hclosed d hd l (hl.extends hext)
  intro m hm
  rw [hval] at hm ⊢
  split_ifs at hm ⊢ with h1 h2
  · rw [h1, htrue]
  · rw [h2, hb.opposite l hlw, htrue]
    rfl
  · exact hext m hm

theorem UnitStep.fits (hw : ∀ d ∈ cls, ∀ l ∈ d, l.var.Within n) (hv : values.Fits n)
    (h : UnitStep cls values values') : values'.Fits n := by
  obtain ⟨d, hd, l, hl, -, hassign⟩ := h
  obtain ⟨a, hrun, hfits, -⟩ := hv.assign_eq (hw d hd l hl.1)
  rw [hassign] at hrun
  cases hrun
  exact hfits

theorem UnitSteps.extends (hw : ∀ d ∈ cls, ∀ l ∈ d, l.var.Within n) (hv : values.Fits n) (hb : b.Fits n)
    (hclosed : UnitClosed cls b) (hext : values.Extends b) (h : UnitSteps cls values values') :
    values'.Fits n ∧ values'.Extends b := by
  induction h with
  | refl => exact ⟨hv, hext⟩
  | tail _ hstep ih => exact ⟨hstep.fits hw ih.1, hstep.extends hw ih.1 hb hclosed ih.2⟩

theorem UnitSteps.grows (hw : ∀ d ∈ cls, ∀ l ∈ d, l.var.Within n) (hv : values.Fits n)
    (h : UnitSteps cls values values') : values'.Fits n ∧ values.Extends values' := by
  induction h with
  | refl => exact ⟨hv, .refl _⟩
  | tail _ hstep ih =>
    refine ⟨hstep.fits hw ih.1, ih.2.trans fun m hm => ?_⟩
    obtain ⟨d, hd, l, hl, hfree, hassign⟩ := hstep
    have hlw := hw d hd l hl.1
    obtain ⟨a, hrun, -, -, hval⟩ := ih.1.assign_eq hlw
    rw [hassign] at hrun
    cases hrun
    rw [hval, if_neg, if_neg]
    · rintro rfl
      rw [ih.1.opposite l hlw, hfree] at hm
      exact hm rfl
    · rintro rfl
      exact hm hfree

/-- a clause that unit steps made false is false under every closed extension -/
theorem UnitSteps.stays_false (hw : ∀ d ∈ cls, ∀ l ∈ d, l.var.Within n) (hv : values.Fits n) (hb : b.Fits n)
    (hclosed : UnitClosed cls b) (hext : values.Extends b) (h : UnitSteps cls values values')
    (hfalse : ∀ l ∈ d, values'.val l = .isFalse) : ∀ l ∈ d, b.val l = .isFalse := fun l hl =>
  ((h.extends hw hv hb hclosed hext).2 l (by rw [hfalse l hl]; simp)).trans (hfalse l hl)

namespace Counter

/-! ## Propagation makes unit steps -/

variable {c₀ c : Counter} {new : List Var}

/-- from `c₀` to `c` unit steps gave values to the variables `new`, one after the other -/
structure Stepped (n : ℕ) (c₀ c : Counter) (new : List Var) : Prop where
  same : c = { c₀ with values := c.values, trail := new ++ c₀.trail }
  fits : c.values.Fits n
  size : c.values.values.size = c₀.values.values.size
  steps : UnitSteps c₀.clauses c₀.values c.values
  nodup : new.Nodup
  within : ∀ v ∈ new, v.Within n
  given : ∀ l : Lit, l.var ∈ new → c₀.values.val l = .unassigned ∧ c.values.val l ≠ .unassigned
  other : ∀ l : Lit, l.var ∉ new → c.values.val l = c₀.values.val l

theorem Stepped.refl (hv : c₀.values.Fits n) : Stepped n c₀ c₀ [] :=
  ⟨rfl, hv, rfl, .refl, List.nodup_nil, nofun, nofun, fun _ _ => rfl⟩

theorem Stepped.mem_iff (h : Stepped n c₀ c new) (l : Lit) :
    l.var ∈ new ↔ c₀.values.val l = .unassigned ∧ c.values.val l ≠ .unassigned :=
  ⟨h.given l, fun hboth => by_contra fun hm => hboth.2 ((h.other l hm).trans hboth.1)⟩

/-- one more unit step -/
theorem Stepped.assign (h : Stepped n c₀ c new) (hd : d ∈ c₀.clauses) (hw : l.var.Within n) (hl : Last c.values d l)
    (hfree : c.values.val l = .unassigned) : ∃ c', c.assign l = .ok c' ∧ Stepped n c₀ c' (l.var :: new) := by
  obtain ⟨a, hrun, hfits, hsize, hval⟩ := h.fits.assign_eq hw
  have hnot : l.var ∉ new := fun hm => (h.given l hm).2 hfree
  refine ⟨{ c with values := a, trail := l.var :: c.trail }, by rw [Counter.assign, hrun]; rfl, ?_, hfits,
    hsize.trans h.size, h.steps.tail ⟨d, hd, l, hl, hfree, hrun⟩, List.nodup_cons.2 ⟨hnot, h.nodup⟩, ?_,
    fun m hm => ?_, fun m hm => ?_⟩
  · rw [h.same]
    rfl
  · exact List.forall_mem_cons.2 ⟨hw, h.within⟩
  · show _ ∧ a.val m ≠ .unassigned
    rw [hval]
    rcases List.mem_cons.1 hm with hm | hm
    · -- the literal of the step, or its negation
      have hfree' : c₀.values.val m = .unassigned := by
        rw [← h.other m (hm ▸ hnot)]
        rcases Lit.eq_or_eq_negate hm with rfl | rfl
        · exact hfree
        · rw [h.fits.opposite l hw, hfree]
          rfl
      refine ⟨hfree', ?_⟩
      rcases Lit.eq_or_eq_negate hm with rfl | rfl
      · simp
      · rw [if_neg (Lit.negate_ne l), if_pos rfl]
        simp
    · refine ⟨(h.given m hm).1, ?_⟩
      split_ifs
      · simp
      · simp
      · exact (h.given m hm).2
  · rw [List.mem_cons, not_or] at hm
    show a.val m = _
    rw [hval, if_neg fun he => hm.1 (by rw [he]), if_neg fun he => hm.1 (by rw [he, Lit.var_negate]), h.other m hm.2]

/-- there are no more unit steps than variables -/
theorem stepped_rule (hw : ∀ d ∈ c₀.clauses, ∀ l ∈ d, l.var.Within n) :
    UnitRule n c₀.clauses (fun c => n + c₀.trail.length - c.trail.length) fun c => ∃ new, Stepped n c₀ c new where
  within := hw
  fits := fun c h => h.elim fun _ h => h.fits
  clauses := fun c h => h.elim fun _ h => by rw [h.same]
  unit := fun c d l h hd hl hfree hone => by
    obtain ⟨new, hstepped⟩ := h
    obtain ⟨c', hassign, hstepped'⟩ := hstepped.assign hd (hw d hd l hl) ⟨hl, hone⟩ hfree
    have hle := length_le_of_within hstepped'.nodup hstepped'.within
    refine ⟨c', hassign, ⟨_, hstepped'⟩, ?_⟩
    rw [hstepped.same, hstepped'.same]
    simp only [List.length_append, List.length_cons] at hle ⊢
    omega

/-- the passes of a propagation make unit steps, until all clauses are propagated or one is false -/
theorem propagate_steps (hv : c.values.Fits n) (hw : ∀ d ∈ c.clauses, ∀ l ∈ d, l.var.Within n) :
    ∃ consistent c' new, (∀ more, passes (c.values.numVars + 1 + more) c = .ok (consistent, c')) ∧
      Stepped n c c' new ∧ Concluded c.clauses c' consistent := by
  have hnum : n ≤ c.values.numVars := by
    have := hv.size
    unfold Assignment.numVars
    omega
  obtain ⟨consistent, c', hpasses, ⟨new, hstepped⟩, hconcluded⟩ :=
    passes_spec (stepped_rule hw) (c.values.numVars + 1) ⟨[], .refl hv⟩ (by omega)
  exact ⟨consistent, c', new, hpasses, hstepped, hconcluded⟩

/-- what a propagation from `c` to `c'` answers, for the variables 1 to `n` -/
structure Closes (n : ℕ) (c c' : Counter) (consistent : Bool) : Prop where
  /-- it succeeds exactly if unit steps lead to an assignment under which all clauses are propagated -/
  consistent_iff : consistent = true ↔ ∃ b, UnitSteps c.clauses c.values b ∧ ∀ d ∈ c.clauses, Propagated b d
  closure : consistent = true → IsUnitClosure n c.clauses c.values c'.values
  /-- only values and trail change -/
  same : c' = { c with values := c'.values, trail := c'.trail }
  /-- each newly assigned variable goes on the trail, once -/
  trail : ∃ new : List Var, c'.trail = new ++ c.trail ∧ new.Nodup ∧ (∀ v ∈ new, v.Within n) ∧
    ∀ l : Lit, l.var ∈ new ↔ c.values.val l = .unassigned ∧ c'.values.val l ≠ .unassigned
  /-- no solution above the initial values is lost -/
  keeps : ∀ b : Assignment, b.Fits n → c.values.Extends b → Satisfies b c.clauses → c'.values.Extends b
  refutes : consistent = false → ∀ b : Assignment, b.Fits n → c.values.Extends b → ¬ Satisfies b c.clauses

theorem Stepped.closes {consistent : Bool} (h : Stepped n c₀ c new) (hv : c₀.values.Fits n)
    (hw : ∀ d ∈ c₀.clauses, ∀ l ∈ d, l.var.Within n) (hd : ∀ d ∈ c₀.clauses, (d.map Lit.var).Nodup)
    (hconcluded : Concluded c₀.clauses c consistent) : Closes n c₀ c consistent := by
  have hleast : ∀ b : Assignment, b.Fits n → c₀.values.Extends b → UnitClosed c₀.clauses b → c.values.Extends b :=
    fun b hb hext hclosed => (h.steps.extends hw hv hb hclosed hext).2
  refine ⟨⟨fun ht => ?_, fun hex => ?_⟩, fun ht => ?_, by rw [h.same],
    ⟨new, by rw [h.same], h.nodup, h.within, h.mem_iff⟩, fun b hb hext hsat => hleast b hb hext hsat.unitClosed,
    fun hf b hb hext hsat => ?_⟩
  · subst ht
    exact ⟨c.values, h.steps, hconcluded⟩
  · obtain ⟨b, hsteps, hprop⟩ := hex
    obtain ⟨hb, hext⟩ := hsteps.grows hw hv
    have hclosed := unitClosed_of_propagated hd hprop
    cases consistent with
    | true => rfl
    | false =>
      -- a false clause would be false under the propagated assignment too
      obtain ⟨d, hdm, hfalse⟩ := hconcluded
      have hfalse' := h.steps.stays_false hw hv hb hclosed hext hfalse
      rcases hprop d hdm with hsat | htwo
      · exact absurd (fun l hl => by rw [hfalse' l hl]; simp) hsat
      · rw [List.filter_eq_nil_iff.2 fun l hl => by rw [hfalse' l hl]; simp] at htwo
        simp at htwo
  · subst ht
    exact ⟨h.fits, (h.steps.grows hw hv).2, unitClosed_of_propagated hd hconcluded, hleast⟩
  · subst hf
    obtain ⟨d, hdm, hfalse⟩ := hconcluded
    obtain ⟨l, hl, htrue⟩ := hsat d hdm
    rw [h.steps.stays_false hw hv hb hsat.unitClosed hext hfalse l hl] at htrue
    cases htrue

theorem unitStep_congr (h : ∀ d, d ∈ cls' ↔ d ∈ cls) : UnitStep cls' = UnitStep cls := by
  funext values values'
  unfold UnitStep
  simp only [h]

/-- **Propagation computes the unit closure.** Take clauses over different variables of 1 to `n`, and any values.
Propagation ends with passes to spare; it succeeds exactly if unit steps lead to an assignment under which every clause
is satisfied or has two literals without a value, and then with the least extension of the values that is closed under
the unit rule. The newly assigned variables go on the trail, each once; no solution above the values is lost, and there
is none if propagation fails. Neither the answer nor the values of a success depend on the order of the clauses. -/
theorem propagate_closure (hv : c.values.Fits n)
    (hcls : ∀ d ∈ c.clauses, (∀ l ∈ d, l.var.Within n) ∧ (d.map Lit.var).Nodup) :
    ∃ consistent c', c.propagate = .ok (consistent, c') ∧
      (∀ more, passes (c.values.numVars + 1 + more) c = .ok (consistent, c')) ∧ Closes n c c' consistent ∧
      ∀ clauses' : List (List Lit), (∀ d, d ∈ clauses' ↔ d ∈ c.clauses) →
        ∃ c'', propagate { c with clauses := clauses' } = .ok (consistent, c'') ∧
          (consistent = true → c''.values = c'.values) := by
  have hw : ∀ d ∈ c.clauses, ∀ l ∈ d, l.var.Within n := fun d hd => (hcls d hd).1
  have hd : ∀ d ∈ c.clauses, (d.map Lit.var).Nodup := fun d hd => (hcls d hd).2
  obtain ⟨consistent, c', new, hpasses, hstepped, hconcluded⟩ := propagate_steps hv hw
  have hcloses := hstepped.closes hv hw hd hconcluded
  refine ⟨consistent, c', hpasses 0, hpasses, hcloses, fun clauses' hsame => ?_⟩
  have hw' : ∀ d ∈ clauses', ∀ l ∈ d, l.var.Within n := fun d hd' => hw d ((hsame d).1 hd')
  obtain ⟨consistent', c'', new', hpasses', hstepped', hconcluded'⟩ :=
    propagate_steps (c := { c with clauses := clauses' }) hv hw'
  have hcloses' := hstepped'.closes hv hw' (fun d hd' => hd d ((hsame d).1 hd')) hconcluded'
  have hanswer : consistent' = consistent := by
    refine Bool.eq_iff_iff.2 (hcloses'.consistent_iff.trans (Iff.trans ?_ hcloses.consistent_iff.symm))
    simp only [UnitSteps, unitStep_congr hsame, hsame]
  subst hanswer
  refine ⟨c'', hpasses' 0, fun ht => Assignment.ext_val (hstepped'.size.trans hstepped.size.symm) ?_⟩
  -- each of the two closures is below the other
  have hclosed := hcloses.closure ht
  have hclosed' := hcloses'.closure ht
  have hle := hclosed.least _ hclosed'.fits hclosed'.grows fun d hdm l hl => hclosed'.closed d ((hsame d).2 hdm) l hl
  have hge := hclosed'.least _ hclosed.fits hclosed.grows fun d hdm l hl => hclosed.closed d ((hsame d).1 hdm) l hl
  exact hge.val_eq hle

/-- a new counter for a chain of implications, after its first literal is decided; the last clause keeps two free
literals -/
theorem propagate_closure_chain :
    let clauses : List (List ℤ) := [[-2, 3], [-3, 4, 5], [-1, 2]]
    ∃ f c₀ c, Formula.ofClauses 5 clauses = .ok f ∧ (Counter.new f clauses ⟨true, 0, 0⟩).result = .ok c₀ ∧
      c₀.assign (Lit.ofInt 1) = .ok c ∧ c.values.Fits 5 ∧
      (∀ d ∈ c.clauses, (∀ l ∈ d, l.var.Within 5) ∧ (d.map Lit.var).Nodup) ∧
      ∃ c', c.propagate = .ok (true, c') ∧ c'.trail = [⟨3⟩, ⟨2⟩, ⟨1⟩] ∧ Closes 5 c c' true ∧
        ∃ c'', propagate { c with clauses := c.clauses.reverse } = .ok (true, c'') ∧ c''.values = c'.values := by
  intro clauses
  obtain ⟨f, c₀, c, hf, hnew, hassign, hv, hcls, hview⟩ : ∃ f c₀ c, Formula.ofClauses 5 clauses = .ok f ∧
      (Counter.new f clauses ⟨true, 0, 0⟩).result = .ok c₀ ∧ c₀.assign (Lit.ofInt 1) = .ok c ∧ c.values.Fits 5 ∧
      (∀ d ∈ c.clauses, (∀ l ∈ d, l.var.Within 5) ∧ (d.map Lit.var).Nodup) ∧
      c.propagate.map (fun r => (r.1, r.2.trail)) = .ok (true, [⟨3⟩, ⟨2⟩, ⟨1⟩]) :=
    ⟨_, _, _, rfl, rfl, rfl, by decide, by decide, by cbv⟩
  obtain ⟨consistent, c', hrun, -, hcloses, horder⟩ := propagate_closure hv hcls
  rw [hrun] at hview
  simp only [Except.map, Except.ok.injEq, Prod.mk.injEq] at hview
  obtain ⟨rfl, htrail⟩ := hview
  obtain ⟨c'', hrun', hvalues⟩ := horder c.clauses.reverse fun d => List.mem_reverse
  exact ⟨f, c₀, c, hf, hnew, hassign, hv, hcls, c', hrun, htrail, hcloses, c'', hrun', hvalues rfl⟩

end Counter

end ModelCount
