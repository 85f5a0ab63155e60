/-
Unit propagation.

Propagation starts at an assignment and a closed set of variables that the clauses with too few free literals touch
(`Task`). It gives values to variables of that set only (`Grown`), and to each the one value it has in every model
that agrees with the values so far (`Task.unit`). What unit steps keep, the passes keep (`UnitRule`), and every pass
that changes something leaves fewer free variables, so that the passes end: with all clauses propagated, or with a
conflict if there is no such model (`propagate_spec`).
-/
import Mathlib.Tactic
import ModelCount.Counter
import ModelCount.Proofs.Narrow

namespace ModelCount

open Formula

/-! ## Free variables -/

def allVars (n : ℕ) : Finset Var := ((List.range n).map fun i => (⟨i + 1⟩ : Var)).toFinset

variable {n : ℕ} {values values' : Assignment} {K T : Finset Var} {v : Var} {l : Lit}

theorem mem_allVars : v ∈ allVars n ↔ v.Within n := by
  rw [allVars, List.mem_toFinset, List.mem_map]
  constructor
  · intro hex
    rcases hex with ⟨i, hi, rfl⟩
    have := List.mem_range.1 hi
    exact ⟨Nat.succ_le_succ (Nat.zero_le i), this⟩
  · intro hboth
    rcases hboth with ⟨h1, h2⟩
    refine ⟨v.id - 1, List.mem_range.2 (by omega), ?_⟩
    cases v
    simp only [Var.mk.injEq] at h1 ⊢
    omega

theorem card_allVars : (allVars n).card = n := by
  rw [allVars, List.toFinset_card_of_nodup, List.length_map, List.length_range]
  refine List.nodup_range.map fun i j h => ?_
  simpa using h

def freeCount (n : ℕ) (values : Assignment) : ℕ := (freeIn values (allVars n)).card

theorem freeCount_le : freeCount n values ≤ n :=
  calc freeCount n values
      ≤ (allVars n).card := Finset.card_le_card (Finset.filter_subset _ _)
    _ = n := card_allVars

/-- a variable that is free no more, while no other becomes free -/
theorem freeCount_lt (hv : v.Within n) (hfree : values.Free v) (hset : ¬ values'.Free v)
    (hother : ∀ w : Var, w.Within n → values'.Free w → values.Free w) : freeCount n values' < freeCount n values := by
  refine Finset.card_lt_card (Finset.ssubset_iff_of_subset ?_ |>.2 ⟨v, ?_, fun hm => hset (mem_freeIn.1 hm).2⟩)
  · intro w hw
    obtain ⟨hm, hf⟩ := mem_freeIn.1 hw
    exact mem_freeIn.2 ⟨hm, hother w (mem_allVars.1 hm) hf⟩
  · exact mem_freeIn.2 ⟨mem_allVars.2 hv, hfree⟩

namespace Counter

/-! ## What a clause asks for -/

theorem anySatisfied_eq (hv : values.Fits n) {c : List Lit} (hc : ∀ l ∈ c, l.var.Within n) :
    anySatisfied values c = .ok (decide (¬ Unsatisfied values c)) := by
  induction c with
  | nil => simp [anySatisfied, Unsatisfied]
  | cons l c ih =>
    unfold anySatisfied
    rw [hv.isSatisfied_eq (hc l (by simp)), Except.ok_bind, ih fun m hm => hc m (List.mem_cons_of_mem _ hm)]
    cases hl : values.val l <;> simp [Unsatisfied, hl]

theorem activeOf_eq (hv : values.Fits n) {c : List Lit} (hc : ∀ l ∈ c, l.var.Within n) :
    activeOf values c = .ok (c.filter fun l => decide (values.val l = .unassigned)) := by
  induction c with
  | nil => rfl
  | cons l c ih =>
    rw [activeOf, hv.isActive_eq (hc l (by simp)), Except.ok_bind, ih fun m hm => hc m (List.mem_cons_of_mem _ hm),
      Except.ok_bind]
    cases hl : values.val l <;> simp [hl]

/-- what the answer to a clause says about it -/
def Answers (values : Assignment) (c : List Lit) : Demand → Prop
  | .nothing => Propagated values c
  | .unit l => l ∈ c ∧ values.val l = .unassigned ∧ ∀ m ∈ c, m ≠ l → values.val m = .isFalse
  | .conflict => ∀ l ∈ c, values.val l = .isFalse

theorem demand_spec (hv : values.Fits n) {c : List Lit} (hc : ∀ l ∈ c, l.var.Within n) :
    ∃ d, demand values c = .ok d ∧ Answers values c d := by
  rw [demand, anySatisfied_eq hv hc, Except.ok_bind]
  by_cases hu : Unsatisfied values c
  · rw [if_neg (by simpa using hu), activeOf_eq hv hc, Except.ok_bind]
    -- a literal that is not active is false
    have hfalse : ∀ m ∈ c, m ∉ c.filter (fun l => decide (values.val l = .unassigned)) → values.val m = .isFalse := by
      intro m hm hn
      rw [List.mem_filter, decide_eq_true_eq] at hn
      cases hval : values.val m with
      | isFalse => rfl
      | isTrue => exact absurd hval (hu m hm)
      | unassigned => exact absurd ⟨hm, hval⟩ hn
    match hactive : c.filter fun l => decide (values.val l = .unassigned) with
    | [] =>
      rw [hactive] at hfalse
      exact ⟨.conflict, rfl, fun m hm => hfalse m hm (by simp)⟩
    | [l] =>
      rw [hactive] at hfalse
      have hl : l ∈ c.filter fun l => decide (values.val l = .unassigned) := by rw [hactive]; simp
      rw [List.mem_filter, decide_eq_true_eq] at hl
      exact ⟨.unit l, rfl, hl.1, hl.2, fun m hm hne => hfalse m hm (by simpa using hne)⟩
    | l :: m :: more =>
      refine ⟨.nothing, rfl, Or.inr ?_⟩
      rw [hactive]
      simp
  · rw [if_pos (by simpa using hu)]
    exact ⟨.nothing, rfl, Or.inl hu⟩

/-! ## Passes -/

/-- what every unit step keeps of a counter with the clauses `cls`, and a measure that it lowers -/
structure UnitRule (n : ℕ) (cls : List (List Lit)) (left : Counter → ℕ) (I : Counter → Prop) : Prop where
  within : ∀ d ∈ cls, ∀ l ∈ d, l.var.Within n
  fits : ∀ c, I c → c.values.Fits n
  clauses : ∀ c, I c → c.clauses = cls
  unit : ∀ c d l, I c → d ∈ cls → l ∈ d → c.values.val l = .unassigned →
    (∀ m ∈ d, m ≠ l → c.values.val m = .isFalse) → ∃ c', c.assign l = .ok c' ∧ I c' ∧ left c' < left c

/-- what one pass over some clauses comes to: one of them is false; or a value was given; or nothing has changed, and
all of them are propagated -/
def Passed (left : Counter → ℕ) (clauses : List (List Lit)) (changed : Bool) (c c' : Counter) : Option Bool → Prop
  | none => ∃ d ∈ clauses, ∀ l ∈ d, c'.values.val l = .isFalse
  | some true => left c' ≤ left c ∧ (changed = true ∨ left c' < left c)
  | some false => changed = false ∧ c' = c ∧ ∀ d ∈ clauses, Propagated c.values d

/-- what all passes come to: all clauses are propagated, or one is false -/
def Concluded (cls : List (List Lit)) (c : Counter) (consistent : Bool) : Prop :=
  if consistent then ∀ d ∈ cls, Propagated c.values d else ∃ d ∈ cls, ∀ l ∈ d, c.values.val l = .isFalse

section Rule

variable {cls : List (List Lit)} {left : Counter → ℕ} {I : Counter → Prop} {c : Counter}

theorem pass_spec (h : UnitRule n cls left I) {clauses : List (List Lit)} (hsub : clauses ⊆ cls) (changed : Bool)
    (hI : I c) :
    ∃ o c', pass clauses changed c = .ok (o, c') ∧ I c' ∧ Passed left clauses changed c c' o := by
  induction clauses generalizing changed c with
  | nil =>
    refine ⟨some changed, c, rfl, hI, ?_⟩
    cases changed with
    | true => exact ⟨Nat.le_refl _, Or.inl rfl⟩
    | false => exact ⟨rfl, rfl, by simp⟩
  | cons d rest ih =>
    have hd : d ∈ cls := hsub (by simp)
    have hrest : rest ⊆ cls := fun x hx => hsub (List.mem_cons_of_mem _ hx)
    obtain ⟨answer, hrun, hanswer⟩ := demand_spec (h.fits c hI) (h.within d hd)
    rw [pass, hrun, Except.ok_bind]
    cases answer with
    | nothing =>
      obtain ⟨o, c', hpass, hI', hpassed⟩ := ih hrest changed hI
      refine ⟨o, c', hpass, hI', ?_⟩
      match o, hpassed with
      | none, ⟨x, hx, hfalse⟩ => exact ⟨x, List.mem_cons_of_mem _ hx, hfalse⟩
      | some true, hpassed => exact hpassed
      | some false, ⟨hchanged, hsame, hprop⟩ =>
        refine ⟨hchanged, hsame, fun x hx => ?_⟩
        rcases List.mem_cons.1 hx with rfl | hx
        · exact hanswer
        · exact hprop x hx
    | unit l =>
      obtain ⟨hl, hval, hone⟩ := hanswer
      obtain ⟨c₁, hassign, hI₁, hlt⟩ := h.unit c d l hI hd hl hval hone
      obtain ⟨o, c', hpass, hI', hpassed⟩ := ih hrest true hI₁
      refine ⟨o, c', ?_, hI', ?_⟩
      · simp only [hassign, Except.ok_bind]
        exact hpass
      · match o, hpassed with
        | none, ⟨x, hx, hfalse⟩ => exact ⟨x, List.mem_cons_of_mem _ hx, hfalse⟩
        | some true, ⟨hle, _⟩ => exact ⟨hle.trans hlt.le, Or.inr (Nat.lt_of_le_of_lt hle hlt)⟩
        | some false, ⟨hchanged, _⟩ => cases hchanged
    | conflict => exact ⟨none, c, rfl, hI, d, by simp, hanswer⟩

/-- **Passes** end: as soon as the measure allows for all of them, more make no difference. -/
theorem passes_spec (h : UnitRule n cls left I) (fuel : ℕ) (hI : I c) (hfuel : left c < fuel) :
    ∃ consistent c', (∀ more, passes (fuel + more) c = .ok (consistent, c')) ∧ I c' ∧ Concluded cls c' consistent := by
  induction fuel generalizing c with
  | zero => exact absurd hfuel (Nat.not_lt_zero _)
  | succ fuel ih =>
    obtain ⟨o, c₁, hpass, hI₁, hpassed⟩ := pass_spec h (List.Subset.refl _) false hI
    have hstep : ∀ more, passes (fuel + 1 + more) c = passes (fuel + more + 1) c := fun more => by
      rw [Nat.add_right_comm]
    have hpass' : pass c.clauses false c = .ok (o, c₁) := by rw [h.clauses c hI, hpass]
    rcases o with _ | (_ | _)
    · -- a clause is false
      refine ⟨false, c₁, fun more => ?_, hI₁, hpassed⟩
      rw [hstep, passes, hpass', Except.ok_bind]
      rfl
    · -- nothing has changed
      obtain ⟨-, hsame, hprop⟩ := hpassed
      refine ⟨true, c₁, fun more => ?_, hI₁, hsame ▸ hprop⟩
      rw [hstep, passes, hpass', Except.ok_bind]
      rfl
    · have hlt : left c₁ < left c := hpassed.2.resolve_left (by simp)
      obtain ⟨consistent, c', hpasses, hI', hconcluded⟩ := ih hI₁ (by omega)
      refine ⟨consistent, c', fun more => ?_, hI', hconcluded⟩
      rw [hstep, passes, hpass', Except.ok_bind]
      exact hpasses more

end Rule

/-! ## Giving values inside a closed set -/

/-- from `c₀` to `c` the variables `new` of `K`, which were free, were given values -/
structure Grown (n : ℕ) (K : Finset Var) (c₀ c : Counter) (new : List Var) : Prop where
  same : c = { c₀ with values := c.values, trail := new ++ c₀.trail }
  fits : c.values.Fits n
  size : c.values.values.size = c₀.values.values.size
  mem : ∀ v ∈ new, v.Within n ∧ v ∈ K ∧ c₀.values.Free v ∧ ¬ c.values.Free v
  other : ∀ l : Lit, l.var ∉ new → c.values.val l = c₀.values.val l

variable {c₀ c : Counter} {new : List Var}

theorem Grown.refl (hv : c₀.values.Fits n) : Grown n K c₀ c₀ [] :=
  ⟨rfl, hv, rfl, fun _ hv => absurd hv List.not_mem_nil, fun _ _ => rfl⟩

theorem Grown.numVars (h : Grown n K c₀ c new) : c.values.numVars = c₀.values.numVars := by
  unfold Assignment.numVars
  rw [h.size]

theorem Grown.grows (h : Grown n K c₀ c new) (hn : n < 2147483648) (hv : c₀.values.Fits n) :
    c₀.values.Extends c.values := by
  intro l hl
  refine h.other l fun hm => hl ?_
  obtain ⟨hw, -, hfree, -⟩ := h.mem _ hm
  exact (hv.free_var_iff hn hw).1 hfree

theorem Grown.mem_of_set (h : Grown n K c₀ c new) (hn : n < 2147483648) (hw : v.Within n) (hfree : c₀.values.Free v)
    (hset : ¬ c.values.Free v) : v ∈ new := by
  by_contra hm
  have hlt : v.id < 2147483648 := Nat.lt_of_le_of_lt hw.2 hn
  exact hset ((h.other v.pos (by rw [Var.var_pos hlt]; exact hm)).trans hfree)

/-- giving one more value -/
theorem Grown.assign (h : Grown n K c₀ c new) (hn : n < 2147483648) (hv : c₀.values.Fits n) (hw : l.var.Within n)
    (hK : l.var ∈ K) (hfree : c.values.Free l.var) :
    ∃ c', c.assign l = .ok c' ∧ Grown n K c₀ c' (l.var :: new) ∧ freeCount n c'.values < freeCount n c.values ∧
      c.values.Extends c'.values ∧
      ∀ m, c'.values.val m = if m = l then .isTrue else if m = -l then .isFalse else c.values.val m := by
  obtain ⟨a, hrun, hfits, hsize, hval⟩ := h.fits.assign_eq hw
  have hother : ∀ m : Lit, m.var ≠ l.var → a.val m = c.values.val m := by
    intro m hm
    rw [hval, if_neg fun e => hm (by rw [e]), if_neg fun e => hm (by rw [e, Lit.var_negate])]
  have hfreeOf : ∀ w : Var, w.Within n → a.Free w → c.values.Free w := by
    intro w hww hf
    have hlt : w.id < 2147483648 := Nat.lt_of_le_of_lt hww.2 hn
    by_cases he : w = l.var
    · rw [he]; exact hfree
    · exact (hother w.pos (by rw [Var.var_pos hlt]; exact he)).symm.trans hf
  have hset : ¬ a.Free l.var := by
    rw [hfits.free_var_iff hn hw, hval, if_pos rfl]
    simp
  refine ⟨{ c with values := a, trail := l.var :: c.trail }, ?_, ⟨?_, hfits, ?_, fun v hvm => ?_, fun m hm => ?_⟩,
    freeCount_lt hw hfree hset hfreeOf, fun m hm => hother m fun hv => hm ?_, hval⟩
  · rw [Counter.assign, hrun]
    rfl
  · rw [h.same]
    rfl
  · exact hsize.trans h.size
  · rcases List.mem_cons.1 hvm with rfl | hvm
    · refine ⟨hw, hK, ?_, hset⟩
      exact (h.grows hn hv).free hfree
    · obtain ⟨h1, h2, h3, h4⟩ := h.mem v hvm
      exact ⟨h1, h2, h3, fun hf => h4 (hfreeOf v h1 hf)⟩
  · rw [List.mem_cons, not_or] at hm
    exact (hother m hm.1).trans (h.other m hm.2)
  · rw [← h.fits.free_var_iff hn (hv ▸ hw), hv]
    exact hfree

/-! ## Models that agree -/

/-- clauses over a closed set `K`, and models on `K`: each clause is propagated or touches `K`, or all its literals are
false and there are no models -/
structure Task (n : ℕ) (cls : List (List Lit)) (K : Finset Var) (values : Assignment) (M : Finset Var → Prop) :
    Prop where
  reads : Reads n values cls
  closed : Closed values cls K
  within : ∀ v ∈ K, v.Within n
  cover : ∀ c ∈ cls, Unsatisfied values c → Touches K c ∨ Propagated values c ∨
    (∀ l ∈ c, values.val l = .isFalse) ∧ ∀ T, ¬ M T
  models : ∀ T, M T → ∀ c ∈ cls, Unsatisfied values c → Touches K c → ∃ l ∈ c, l.var ∈ K ∧ l.Holds T

variable {M : Finset Var → Prop} {d : List Lit}

/-- a state of propagation from `c₀` with which all models agree -/
structure Reached (n : ℕ) (K : Finset Var) (M : Finset Var → Prop) (c₀ c : Counter) (new : List Var) : Prop
    extends Grown n K c₀ c new where
  agree : ∀ T, M T → Agrees c.values K T

/-- a clause that is left with less than two literals touches the closed set, unless it was false from the beginning -/
theorem Task.touches (t : Task n c₀.clauses K c₀.values M) (h : Grown n K c₀ c new) (hd : d ∈ c₀.clauses)
    (hu : Unsatisfied c₀.values d) {k : Lit} (hone : ∀ m ∈ d, m ≠ k → c.values.val m = .isFalse)
    (hopen : (∃ T, M T) ∨ ∃ l ∈ d, c₀.values.val l ≠ .isFalse) : Touches K d := by
  rcases t.cover d hd hu with ht | hp | ⟨hfalse, hnone⟩
  · exact ht
  · -- one of the two literals that were free is another one than `k`, and has been given a value
    obtain ⟨m, hm, hfree, hne⟩ := t.reads.exists_other hd hp hu k.var
    have hmk : m ≠ k := fun e => hne (by rw [e])
    have hw := (t.reads.proper d hd).within m hm
    have hset : ¬ c.values.Free m.var := by
      rw [h.fits.free_var_iff t.reads.small hw, hone m hm hmk]
      simp
    have hnew := h.mem_of_set t.reads.small hw hfree hset
    exact ⟨m, hm, (h.mem _ hnew).2.1⟩
  · rcases hopen with ⟨T, hT⟩ | ⟨l, hl, hne⟩
    · exact absurd hT (hnone T)
    · exact absurd (hfalse l hl) hne

/-- **A last literal is forced.** If all literals of a clause but one are false, that one holds in every model that
agrees with the values. -/
theorem Task.last (t : Task n c₀.clauses K c₀.values M) (h : Grown n K c₀ c new) (hd : d ∈ c₀.clauses)
    (hu : Unsatisfied c.values d) {k : Lit} (hone : ∀ m ∈ d, m ≠ k → c.values.val m = .isFalse) (hT : M T)
    (hagree : Agrees c.values K T) : k ∈ d ∧ k.var ∈ K ∧ k.Holds T := by
  have hu₀ := (h.grows t.reads.small t.reads.fits).unsatisfied hu
  obtain ⟨l, hl, hlK, hholds⟩ := t.models T hT d hd hu₀ (t.touches h hd hu₀ hone (Or.inl ⟨T, hT⟩))
  have hlk : l = k := by
    by_contra hne
    exact hagree.not_holds h.fits ((t.reads.proper d hd).within l hl) hlK (hone l hl hne) hholds
  exact hlk ▸ ⟨hl, hlK, hholds⟩

/-- a conflict leaves no model -/
theorem Task.conflict (t : Task n c₀.clauses K c₀.values M) (h : Grown n K c₀ c new) (hd : d ∈ c₀.clauses)
    (hfalse : ∀ m ∈ d, c.values.val m = .isFalse) (hT : M T) : ¬ Agrees c.values K T := by
  intro hagree
  have hu : Unsatisfied c.values d := fun m hm => by rw [hfalse m hm]; simp
  obtain ⟨k, hk⟩ := List.exists_mem_of_ne_nil d (t.reads.proper d hd).nonempty
  obtain ⟨-, hK, hholds⟩ := t.last h hd hu (k := k) (fun m hm _ => hfalse m hm) hT hagree
  exact hagree.not_holds h.fits ((t.reads.proper d hd).within k hk) hK (hfalse k hk) hholds

/-- a unit literal becomes true, and every model that agreed agrees still -/
theorem Task.unit (t : Task n c₀.clauses K c₀.values M) (h : Reached n K M c₀ c new) (hd : d ∈ c₀.clauses)
    (hl : l ∈ d) (hval : c.values.val l = .unassigned) (hone : ∀ m ∈ d, m ≠ l → c.values.val m = .isFalse) :
    ∃ c', c.assign l = .ok c' ∧ Reached n K M c₀ c' (l.var :: new) ∧ freeCount n c'.values < freeCount n c.values ∧
      c.values.Extends c'.values := by
  have hn := t.reads.small
  have hw := (t.reads.proper d hd).within l hl
  have hu : Unsatisfied c.values d := by
    intro m hm
    by_cases he : m = l
    · rw [he, hval]; simp
    · rw [hone m hm he]; simp
  have hgrows := h.grows hn t.reads.fits
  have hu₀ := hgrows.unsatisfied hu
  have hfree := (h.fits.free_var_iff hn hw).2 hval
  have hbefore : c₀.values.val l = .unassigned := (t.reads.fits.free_var_iff hn hw).1 (hgrows.free hfree)
  have hK := t.closed.closed d hd hu₀
    (t.touches h.toGrown hd hu₀ hone (Or.inr ⟨l, hl, by rw [hbefore]; simp⟩)) l hl (hgrows.free hfree)
  obtain ⟨c', hrun, hgrown, hlt, hext, hvals⟩ := h.toGrown.assign hn t.reads.fits hw hK hfree
  refine ⟨c', hrun, ⟨hgrown, fun T hT m hm htrue => ?_⟩, hlt, hext⟩
  rw [hvals] at htrue
  split_ifs at htrue with h1
  · rw [h1]
    exact (t.last h.toGrown hd hu hone hT (h.agree T hT)).2.2
  · exact h.agree T hT m hm htrue

/-! ## Propagating inside a closed set -/

/-- what propagation achieves: all clauses are propagated, or there is no model -/
def Decided (M : Finset Var → Prop) (c₀ c : Counter) (consistent : Bool) : Prop :=
  if consistent then ∀ d ∈ c₀.clauses, Propagated c.values d else ∀ T, ¬ M T

/-- unit steps give values inside the closed set and keep the models, and each leaves a free variable less -/
theorem Task.rule (t : Task n c₀.clauses K c₀.values M) (c : Counter) :
    UnitRule n c₀.clauses (fun c' => freeCount n c'.values)
      fun c' => (∃ new, Reached n K M c₀ c' new) ∧ c.values.Extends c'.values where
  within := fun d hd => (t.reads.proper d hd).within
  fits := fun c' h => h.1.elim fun _ h => h.fits
  clauses := fun c' h => h.1.elim fun _ h => by rw [h.same]
  unit := fun c' d l h hd hl hval hone => by
    obtain ⟨⟨new, hreached⟩, hext⟩ := h
    obtain ⟨c'', hassign, hreached', hlt, hext'⟩ := t.unit hreached hd hl hval hone
    exact ⟨c'', hassign, ⟨⟨_, hreached'⟩, hext.trans hext'⟩, hlt⟩

/-- **Propagation.** It ends, gives values inside the closed set only, and every model that agreed with the values
agrees with them still. Either all clauses are propagated in the end, or there was no such model. -/
theorem propagate_spec (t : Task n c₀.clauses K c₀.values M) (h : Reached n K M c₀ c new)
    (hnum : c₀.values.numVars = n) :
    ∃ consistent c' new', c.propagate = .ok (consistent, c') ∧ Reached n K M c₀ c' new' ∧
      c.values.Extends c'.values ∧ Decided M c₀ c' consistent := by
  obtain ⟨consistent, c', hpasses, ⟨⟨new', hreached⟩, hext⟩, hconcluded⟩ :=
    passes_spec (t.rule c) (n + 1) ⟨⟨new, h⟩, Assignment.Extends.refl _⟩ (Nat.lt_succ_of_le freeCount_le)
  refine ⟨consistent, c', new', ?_, hreached, hext, ?_⟩
  · rw [propagate, h.numVars, hnum]
    exact hpasses 0
  · cases consistent with
    | true => exact hconcluded
    | false =>
      obtain ⟨d, hd, hfalse⟩ := hconcluded
      exact fun T hT => t.conflict hreached.toGrown hd hfalse hT (hreached.agree T hT)

/-! ## Taking values back -/

/-- **Backtracking** to a state restores its assignment and its trail, whatever has become of the rest. -/
theorem backtrack_spec (h : Grown n K c₀ c new) (hn : n < 2147483648) (hv : c₀.values.Fits n) (c' : Counter)
    (hvalues : c'.values = c.values) (htrail : c'.trail = c.trail) :
    c'.backtrack c₀.trail.length = .ok { c' with values := c₀.values, trail := c₀.trail } := by
  have htrail' : c'.trail = new ++ c₀.trail := by rw [htrail, h.same]
  have hlen : c'.trail.length - c₀.trail.length = new.length := by
    rw [htrail', List.length_append, Nat.add_sub_cancel]
  obtain ⟨a, hrun, hsize, hval⟩ := h.fits.unassignAll_eq hn fun v hm => (h.mem v hm).1
  have ha : a = c₀.values := by
    refine Assignment.ext_val (hsize.trans h.size) fun l => ?_
    rw [hval]
    split_ifs with hm
    · obtain ⟨hw, -, hfree, -⟩ := h.mem _ hm
      exact ((hv.free_var_iff hn hw).1 hfree).symm
    · exact h.other l hm
  simp only [backtrack, hlen]
  rw [htrail', List.take_left, List.drop_left, hvalues, hrun, ha]
  rfl

end Counter

end ModelCount
