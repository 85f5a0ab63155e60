/-
What the walks of a split add to the scores.

A kept clause gives one point to each of its candidates, whichever of them it is met from: it is met once, as its mark
shows from then on, and an excluded clause gives nothing. A binary link gives a point to both ends if a walk pulls in a
new variable through it (`pulls`). So what a step adds to the score of a candidate is read off the marks before and
after (`Credits`), and at the end of a split, when all kept clauses of the candidates are marked, the score is the
number of kept clauses of the candidate and of its pulls (`split_scores`).
-/
import Mathlib.Tactic
import ModelCount.Proofs.Answers
import ModelCount.Proofs.Pieces

namespace ModelCount

open Formula

namespace Explorer

/-! ## Pulls -/

/-- a binary link through which a walk pulls in a variable that was unseen -/
structure Pull where
  source : Var
  target : Var
  deriving DecidableEq, Repr

/-- what comes after a run, if it gives a result -/
def following {α β : Type} (r : Except Fault α) (next : α → List β) : List β :=
  match r with
  | .ok a => next a
  | .error _ => []

/-- the variable that a link of `v` pulls in -/
def pull (v : Var) (e : Explorer) : Link → List Pull
  | .binary w => if e.marks.varMark w = .unseen then [⟨v, w⟩] else []
  | .ternary _ _ _ => []
  | .long _ _ => []

def linkPulls (values : Assignment) (v : Var) : List Link → Explorer → List Pull
  | [], _ => []
  | link :: rest, e => pull v e link ++ following (follow values v e link).result (linkPulls values v rest)

def walkPulls (values : Assignment) : ℕ → ℕ → Explorer → List Pull
  | 0, _, _ => []
  | steps + 1, i, e =>
    match e.reached[i]? with
    | none => []
    | some v => following (e.adjacency.linksOf v) fun links =>
      linkPulls values v links e ++
        following (links.foldlM (follow values v) e).result (walkPulls values steps (i + 1))

/-- the pulls at a variable of a pass: those of its walk, if one is made -/
def probePulls (values : Assignment) (e : Explorer) (v : Var) : List Pull :=
  following (e.isCandidate v values) fun b =>
    if b then walkPulls values e.marks.numSlots 0 { e with marks := e.marks.putVar v .seen, reached := #[v] } else []

def passPulls (comp : Component) (values : Assignment) : List Var → Explorer → List Pull
  | [], _ => []
  | v :: rest, e =>
    probePulls values e v ++ following (probe comp values e v) fun r => passPulls comp values rest r.2

end Explorer

def Decomposer.pulls (d : Decomposer) (node : Node) (comp : Component) (values : Assignment) : List Explorer.Pull :=
  Explorer.following (d.explorer.prepare node.superIndex comp values) (Explorer.passPulls comp values comp.vars)

/-! ## Credits -/

namespace Formula

instance (f : Formula) (values : Assignment) (comp : Component) (c : ClauseId) : Decidable (f.Kept values comp c) :=
  inferInstanceAs (Decidable (_ ∧ _))

def keptWith (f : Formula) (values : Assignment) (comp : Component) (v : Var) : Finset ClauseId :=
  comp.clauses.toFinset.filter fun c => f.Kept values comp c ∧ v ∈ f.varsOf c

end Formula

namespace Explorer

variable {f : Formula} {cls : List (List Lit)} {values : Assignment} {comp : Component} {index : ℕ} {C : Var → Prop}
  {v₀ v : Var} {e e' e'' : Explorer} {c : ClauseId} {pulls more : List Pull}

/-- the clauses of a super-component that contain a variable and were met and kept -/
def metWith (f : Formula) (comp : Component) (e : Explorer) (v : Var) : Finset ClauseId :=
  comp.clauses.toFinset.filter fun c =>
    (e.marks.clauseMark c ≠ .unseen ∧ e.marks.clauseMark c ≠ .outside) ∧ v ∈ f.varsOf c

def pullsAt (pulls : List Pull) (v : Var) : ℕ := pulls.countP fun p => decide (p.source = v ∨ p.target = v)

/-- `e'` comes from `e` by steps of walks with some pulls. A candidate has got a point for each of its clauses that was
met and kept meanwhile and for each pull at it, and an assigned variable has got none. -/
structure Credits (f : Formula) (values : Assignment) (comp : Component) (e : Explorer) (pulls : List Pull)
    (e' : Explorer) : Prop where
  sees : Sees e e'
  links : ∀ p ∈ pulls, Link.binary p.target ∈ f.links p.source
  pulled : ∀ p ∈ pulls, e.marks.varMark p.target = .unseen ∧ e'.marks.varMark p.target ≠ .unseen
  once : (pulls.map Pull.target).Nodup
  candidate : ∀ v, Candidate values comp v →
    e'.scoreOf v + (metWith f comp e v).card = e.scoreOf v + (metWith f comp e' v).card + pullsAt pulls v
  assigned : ∀ v, ¬ values.Free v → e'.scoreOf v = e.scoreOf v

namespace Credits

/-- nothing is pulled in or met, and nothing gets a point -/
theorem idle (hsees : Sees e e') (hmet : ∀ v, metWith f comp e' v = metWith f comp e v)
    (hscore : ∀ v, e'.scoreOf v = e.scoreOf v) : Credits f values comp e [] e' :=
  ⟨hsees, nofun, nofun, List.nodup_nil, fun v _ => by rw [hscore, hmet]; rfl, fun v _ => hscore v⟩

theorem refl (f : Formula) (values : Assignment) (comp : Component) (e : Explorer) : Credits f values comp e [] e :=
  idle ⟨fun _ => id, fun _ => id⟩ (fun _ => rfl) fun _ => rfl

theorem trans (h : Credits f values comp e pulls e') (h' : Credits f values comp e' more e'') :
    Credits f values comp e (pulls ++ more) e'' := by
  have hmem : ∀ {p}, p ∈ pulls ++ more → p ∈ pulls ∨ p ∈ more := List.mem_append.1
  refine ⟨⟨fun v hv => h.sees.var v (h'.sees.var v hv), fun c hc => h.sees.clause c (h'.sees.clause c hc)⟩,
    fun p hp => (hmem hp).elim (h.links p) (h'.links p), fun p hp => ?_, ?_, fun v hv => ?_, fun v hv => ?_⟩
  · rcases hmem hp with hp | hp
    · exact ⟨(h.pulled p hp).1, fun hu => (h.pulled p hp).2 (h'.sees.var _ hu)⟩
    · exact ⟨h.sees.var _ (h'.pulled p hp).1, (h'.pulled p hp).2⟩
  · -- what was pulled in before is unseen no more
    rw [List.map_append]
    refine List.nodup_append.2 ⟨h.once, h'.once, fun v hv w hw heq => ?_⟩
    obtain ⟨p, hp, rfl⟩ := List.mem_map.1 hv
    obtain ⟨q, hq, rfl⟩ := List.mem_map.1 hw
    exact (h.pulled p hp).2 (heq ▸ (h'.pulled q hq).1)
  · have h1 := h.candidate v hv
    have h2 := h'.candidate v hv
    have hsum : pullsAt (pulls ++ more) v = pullsAt pulls v + pullsAt more v := List.countP_append
    omega
  · exact (h'.assigned v hv).trans (h.assigned v hv)

/-- an unseen clause is excluded -/
theorem exclude (hu : e.marks.clauseMark c = .unseen) (hv : ∀ v, e'.marks.varMark v = e.marks.varMark v)
    (hc : ∀ d, e'.marks.clauseMark d = if d = c then .outside else e.marks.clauseMark d)
    (hscore : ∀ v, e'.scoreOf v = e.scoreOf v) : Credits f values comp e [] e' := by
  refine idle ⟨fun v hm => (hv v).symm.trans hm, fun d hd => ?_⟩ (fun v => ?_) hscore
  · rw [hc] at hd
    split_ifs at hd
    exact hd
  · refine Finset.filter_congr fun d _ => ?_
    rw [hc]
    split_ifs with hdc
    · simp [hdc, hu]
    · rfl

/-- an unseen candidate is pulled in from another one: both get a point -/
theorem fetch {w : Var} (hv : Candidate values comp v) (hw : Candidate values comp w)
    (hlink : Link.binary w ∈ f.links v) (hu : e.marks.varMark w = .unseen) (hf : Fetches e v w e') :
    Credits f values comp e [⟨v, w⟩] e' := by
  have hmet : ∀ x, metWith f comp e' x = metWith f comp e x := fun x => by
    simp only [metWith, hf.reaches.clauseMark]
  have hscore : ∀ x, e'.scoreOf x = e.scoreOf x + pullsAt [⟨v, w⟩] x := by
    intro x
    have hends : (x = v ∨ x = w) ↔ decide (v = x ∨ w = x) = true := by
      rw [decide_eq_true_eq]
      exact or_congr eq_comm eq_comm
    rw [hf.score, pullsAt, List.countP_singleton]
    exact congrArg _ (if_congr hends rfl rfl)
  have hnow : e'.marks.varMark w ≠ .unseen := by
    rw [hf.reaches.varMark, if_pos ⟨by simp, hu⟩]
    simp
  refine ⟨hf.reaches.sees, ?_, ?_, List.nodup_singleton _, fun x _ => ?_, fun x hx => ?_⟩
  · rw [List.forall_mem_singleton]
    exact hlink
  · rw [List.forall_mem_singleton]
    exact ⟨hu, hnow⟩
  · rw [hscore, hmet]
    omega
  · have hxv : x ≠ v := fun heq => hx (heq ▸ hv.2)
    have hxw : x ≠ w := fun heq => hx (heq ▸ hw.2)
    rw [hf.score, if_neg (not_or.2 ⟨hxv, hxw⟩), Nat.add_zero]

/-- an unseen clause is met from one of its candidates and kept: every candidate of it gets a point -/
theorem join (hs : Setting f cls values comp) {b : Bool} (hv : Candidate values comp v) (hvc : v ∈ f.varsOf c)
    (hc : c ∈ comp.clauses) (hu : e.marks.clauseMark c = .unseen)
    (hj : Joins values e v c (othersOf v (f.literals c)) b e') : Credits f values comp e [] e' := by
  have hwithin : ∀ l ∈ othersOf v (f.literals c), l.var.Within f.numVars := fun l hl =>
    (hs.visited_vars (hs.clauses c hc) hvc rfl).1 _ (List.mem_cons_of_mem _ (List.mem_map_of_mem hl))
  refine ⟨hj.sees, nofun, nofun, List.nodup_nil, fun w hw => ?_, fun w hw => ?_⟩
  · -- the free literals of the clause are its candidates and maybe others
    have hpoint : (w = v ∨ ∃ l ∈ othersOf v (f.literals c), l.var = w ∧ values.val l = .unassigned) ↔
        w ∈ f.varsOf c := by
      refine Iff.trans (or_congr_right ?_) (mem_vars_iff hvc).symm
      rw [List.mem_map]
      refine exists_congr fun l => and_congr_right fun _ => and_iff_left_of_imp fun hlw => ?_
      exact hs.val_eq_unassigned (hlw ▸ hw)
    have hmet : (metWith f comp e' w).card = (metWith f comp e w).card + if w ∈ f.varsOf c then 1 else 0 := by
      have hmem : ∀ d, d ∈ metWith f comp e' w ↔ d ∈ metWith f comp e w ∨ (d = c ∧ w ∈ f.varsOf c) := by
        intro d
        simp only [metWith, Finset.mem_filter, List.mem_toFinset, hj.clauseMark]
        by_cases hdc : d = c
        · subst hdc
          simp [hu, hc]
        · simp [hdc]
      split_ifs with hwc
      · have hnew : c ∉ metWith f comp e w := fun hm => (Finset.mem_filter.1 hm).2.1.1 hu
        have heq : metWith f comp e' w = insert c (metWith f comp e w) :=
          Finset.ext fun d => by rw [hmem, Finset.mem_insert, and_iff_left hwc, or_comm]
        rw [heq, Finset.card_insert_of_notMem hnew]
      · have heq : metWith f comp e' w = metWith f comp e w :=
          Finset.ext fun d => by rw [hmem, or_iff_left fun hh => hwc hh.2]
        rw [heq, Nat.add_zero]
    rw [hj.score, hmet, if_congr hpoint rfl rfl]
    show _ = _ + 0
    omega
  · -- an assigned variable has no literal without a value
    rw [hj.score, if_neg, Nat.add_zero]
    rintro (rfl | ⟨l, hl, rfl, hfree⟩)
    · exact hw hv.2
    · exact hw ((hs.fits.free_var_iff hs.small (hwithin l hl)).2 hfree)

end Credits

/-! ## One link -/

theorem visitBinary_credits (hs : Setting f cls values comp) {w : Var} (h : Walk f values comp index C v₀ e)
    (hv : v ∈ e.reached.toList) (hlink : Link.binary w ∈ f.links v) :
    Ends AnyFault (e.visitBinary v w) (Credits f values comp e (pull v e (.binary w))) := by
  have hvc := (h.marked.reachedCandidate v hv).1
  have hw := hs.stores.within_of_binary hlink
  have hpull : pull v e (.binary w) = if e.marks.varMark w = .unseen then [⟨v, w⟩] else [] := rfl
  refine (visitBinary_ends h.fits.roomy (hs.within hvc) hw (h.marked.ne_unseen hv)).any.mono fun e' he' => ?_
  rcases he' with ⟨hu, rfl⟩ | ⟨hu, hf⟩
  · rw [hpull, if_neg hu]
    exact .refl f values comp _
  · rw [hpull, if_pos hu]
    exact .fetch hvc ((h.marked.unseen w).1 hu).1 hlink hu hf

theorem visitTernary_credits (hs : Setting f cls values comp) {a b : Lit} (h : Walk f values comp index C v₀ e)
    (hv : v ∈ e.reached.toList) (hlink : Link.ternary c a b ∈ f.links v) :
    Ends AnyFault (e.visitTernary values v c a b) (Credits f values comp e []) := by
  have hcand := (h.marked.reachedCandidate v hv).1
  obtain ⟨hcw, -, hvc, ho⟩ := hs.stores.ternary_mem_links.1 hlink
  by_cases hu : e.marks.clauseMark c = .unseen
  · obtain ⟨hw, hd⟩ := hs.visited_vars hcw hvc ho
    refine (visitTernary_ends h.fits.roomy hs.fits hcw hw hd hu).any.mono fun e' he' => ?_
    rcases he' with ⟨-, rfl⟩ | ⟨-, hj⟩
    · exact .exclude hu (fun _ => Marks.varMark_putClause)
        (fun _ => Marks.clauseMark_putClause (h.fits.clause_lt_slots hcw)) fun _ => rfl
    · exact .join hs hcand hvc (h.marked.clauseUnseen c hu) hu (ho ▸ hj)
  · unfold visitTernary
    refine Ends.bind_of_eq (Marks.clause_eq (h.fits.clause_lt_slots hcw)) ?_
    rw [if_pos hu]
    exact .refl f values comp e

theorem visitLong_credits (hs : Setting f cls values comp) {lits : List Lit} (h : Walk f values comp index C v₀ e)
    (hv : v ∈ e.reached.toList) (hlink : Link.long c lits ∈ f.links v) :
    Ends AnyFault (e.visitLong values v c lits).result (Credits f values comp e []) := by
  have hcand := (h.marked.reachedCandidate v hv).1
  obtain ⟨hcw, -, hvc, ho⟩ := hs.stores.long_mem_links.1 hlink
  by_cases hu : e.marks.clauseMark c = .unseen
  · obtain ⟨hw, hd⟩ := hs.visited_vars hcw hvc ho
    refine (visitLong_ends h.fits.roomy hs.fits hcw hw hd hu).any.mono fun e' he' => ?_
    rcases he' with ⟨-, hundone⟩ | ⟨-, b, -, hj⟩
    · exact .exclude hu hundone.varMark hundone.clauseMark hundone.score
    · exact .join hs hcand hvc (h.marked.clauseUnseen c hu) hu (ho ▸ hj)
  · simp only [visitLong, Traced.result_bind, Traced.result_lift]
    refine Ends.bind_of_eq (Marks.clause_eq (h.fits.clause_lt_slots hcw)) ?_
    rw [if_pos hu]
    exact .refl f values comp e

/-- **One link** credits the candidates with the clause that it may lead through or with its pull. -/
theorem follow_credits (hs : Setting f cls values comp) {link : Link} (h : Walk f values comp index C v₀ e)
    (hv : v ∈ e.reached.toList) (hlink : link ∈ f.links v) :
    Ends AnyFault (follow values v e link).result (Credits f values comp e (pull v e link)) := by
  cases link with
  | binary w => exact visitBinary_credits hs h hv hlink
  | ternary c a b => exact visitTernary_credits hs h hv hlink
  | long c lits => exact visitLong_credits hs h hv hlink

/-! ## A walk -/

theorem following_ok {α β : Type} {a : α} {r : Except Fault α} (h : r = .ok a) (next : α → List β) :
    following r next = next a := by
  rw [h]
  rfl

theorem links_credits (hs : Setting f cls values comp) {links : List Link} (h : Walk f values comp index C v₀ e)
    (hv : v ∈ e.reached.toList) (hlinks : ∀ link ∈ links, link ∈ f.links v)
    (hrun : (links.foldlM (follow values v) e).result = .ok e') :
    Credits f values comp e (linkPulls values v links e) e' := by
  rw [Traced.result_foldlM] at hrun
  induction links generalizing e with
  | nil =>
    cases hrun
    exact .refl f values comp _
  | cons link links ih =>
    rw [List.foldlM_cons] at hrun
    obtain ⟨e1, hfollow, hrest⟩ := exists_of_bind hrun
    have hlink := hlinks link List.mem_cons_self
    obtain ⟨h1, hlater, -⟩ := (follow_spec hs h hv hlink).get hfollow
    rw [linkPulls, following_ok hfollow]
    exact ((follow_credits hs h hv hlink).get hfollow).trans
      (ih h1 (hlater.reached.subset hv) (fun l hl => hlinks l (List.mem_cons_of_mem _ hl)) hrest)

theorem walk_credits (hs : Setting f cls values comp) (steps : ℕ) {i : ℕ} (h : Walk f values comp index C v₀ e)
    (hrun : (walk values steps i e).result = .ok e') : Credits f values comp e (walkPulls values steps i e) e' := by
  induction steps generalizing i e with
  | zero => cases hrun
  | succ steps ih =>
    rw [walk] at hrun
    rw [walkPulls]
    cases hi : e.reached[i]? with
    | none =>
      rw [hi] at hrun
      cases hrun
      exact .refl f values comp _
    | some v =>
      rw [hi] at hrun
      simp only [Traced.result_bind, Traced.result_lift] at hrun
      have hv : v ∈ e.reached.toList := List.mem_of_getElem? ((Array.getElem?_toList).trans hi)
      have hlinks : e.adjacency.linksOf v = .ok (f.links v) := by
        rw [h.fits.adjacency]
        exact Adjacency.linksOf_ofFormula hs.stores (hs.within (h.marked.reachedCandidate v hv).1)
      rw [hlinks, Except.ok_bind] at hrun
      obtain ⟨e1, hfollow, hrest⟩ := exists_of_bind hrun
      obtain ⟨h1, -⟩ := (links_spec hs h hv).get hfollow
      simp only
      rw [following_ok hlinks, following_ok hfollow]
      exact (links_credits hs h hv (fun _ hl => hl) hfollow).trans (ih h1 hrest)

/-! ## A pass -/

/-- all kept clauses of some candidates were met -/
def Covered (f : Formula) (values : Assignment) (comp : Component) (C : Var → Prop) (e : Explorer) : Prop :=
  ∀ c v, f.Kept values comp c → v ∈ f.varsOf c → C v → e.marks.clauseMark c ≠ .unseen

theorem Covered.sees (h : Covered f values comp C e) (hsees : Sees e e') : Covered f values comp C e' :=
  fun c v hk hvc hv hu => h c v hk hvc hv (hsees.clause c hu)

/-- a complete walk has met all kept clauses of its class -/
theorem Covered.ended (hs : Setting f cls values comp) (h : Covered f values comp C e)
    (hended : Ended f values comp index C v e) : Covered f values comp (withClass f values comp C v) e := by
  intro c w hk hwc hw
  rcases hw with hw | hw
  · exact h c w hk hwc hw
  · rcases hended.walk.settled hs hended.complete ((hended.mem_reached w).2 hw) hk hwc with ⟨b, hb⟩ | hb
    · rw [hb]
      simp
    · rw [hb]
      simp

/-- marking a variable as anything but unseen adds nothing -/
theorem Credits.putVar {x : VarMark} {reached : Array Var} (hv : v.index < e.marks.numSlots) (hx : x ≠ .unseen) :
    Credits f values comp e [] { e with marks := e.marks.putVar v x, reached := reached } := by
  refine .idle ⟨fun w hw => ?_, fun c hc => Marks.clauseMark_putVar.symm.trans hc⟩ (fun w => ?_) fun _ => rfl
  · have hw' : (e.marks.putVar v x).varMark w = .unseen := hw
    rw [Marks.varMark_putVar hv] at hw'
    split_ifs at hw'
    · exact absurd hw' hx
    · exact hw'
  · unfold metWith
    simp only [Marks.clauseMark_putVar]

theorem collect_credits (hs : Setting f cls values comp) (h : Between f values comp index C e)
    (hv : Candidate values comp v) (hC : ¬ C v) :
    Ends AnyFault (e.collect v values).result fun e' => Ended f values comp index C v e' ∧
      Credits f values comp e
        (walkPulls values e.marks.numSlots 0 { e with marks := e.marks.putVar v .seen, reached := #[v] }) e' := by
  refine .of_ok fun e' hrun => ⟨((collect_spec hs h hv hC).get hrun).1, ?_⟩
  exact (Credits.putVar (h.fits.index_lt_slots (hs.within hv)) (by simp)).trans
    (walk_credits hs _ (h.walk hs hv hC) hrun)

/-- taking a part out adds nothing -/
theorem claim_credits (hs : Setting f cls values comp) (h : Ended f values comp index C v e) {part : Component}
    {signature : Signature} {marks : Marks} (hclaim : e.marks.claim comp = .ok (part, signature, marks)) :
    Credits f values comp e [] { e with marks := marks } := by
  have hsees := h.claim_sees hs hclaim
  obtain ⟨m, hm, -, -, -, hclause⟩ := Marks.claim_eq h.walk.binding
    (fun v hv => h.walk.fits.index_lt_slots (hs.vars v hv)) hs.varsNodup
    (fun c hc => h.walk.fits.clause_lt_slots (hs.clauses c hc)) hs.clausesNodup
  rw [hm] at hclaim
  cases hclaim
  refine .idle hsees (fun w => Finset.filter_congr fun c _ => ?_) fun _ => rfl
  show (marks.clauseMark c ≠ _ ∧ marks.clauseMark c ≠ _) ∧ _ ↔ _
  rw [hclause]
  split_ifs with hseen
  · obtain ⟨b, hb⟩ := Marks.isSome_seenFlag.1 hseen.2
    simp [hb]
  · rfl

theorem explore_credits (hs : Setting f cls values comp) (h : Between f values comp index C e)
    (hv : Candidate values comp v) (hC : ¬ C v) (hcovered : Covered f values comp C e) (node : Node) :
    Ends AnyFault (e.explore node v values).result fun r =>
      Credits f values comp e
        (walkPulls values e.marks.numSlots 0 { e with marks := e.marks.putVar v .seen, reached := #[v] }) r.2.1 ∧
        Covered f values comp (withClass f values comp C v) r.2.1 ∧
        (r.1 = true → Ended f values comp index C v r.2.1) := by
  simp only [explore, Traced.result_bind, Traced.result_lift]
  refine (Ends.anything _).bind fun _ _ => (Ends.anything _).bind fun _ _ => (collect_credits hs h hv hC).bind ?_
  intro e1 hboth
  obtain ⟨hended, hcredits⟩ := hboth
  have hcovered1 := (hcovered.sees hcredits.sees).ended hs hended
  split_ifs
  · have hclaimed : Credits f values comp e1 [] { e1 with marks := e1.marks.putVar v .claimed } :=
      .putVar (hended.walk.fits.index_lt_slots (hs.within hv)) (by simp)
    have hboth := hcredits.trans hclaimed
    rw [List.append_nil] at hboth
    exact ⟨hboth, hcovered1.sees hclaimed.sees, fun hseveral => absurd hseveral Bool.false_ne_true⟩
  · exact ⟨hcredits, hcovered1, fun _ => hended⟩

/-- **One variable of a pass** credits the candidates, and its kept clauses are met. -/
theorem probe_credits (hs : Setting f cls values comp) (h : Between f values comp index C e) (hv : v ∈ comp.vars)
    (hcovered : Covered f values comp C e) {r : List (Option Part) × Explorer} (hrun : probe comp values e v = .ok r) :
    Credits f values comp e (probePulls values e v) r.2 ∧ ∃ C', Between f values comp index C' r.2 ∧
      Covered f values comp C' r.2 ∧ (∀ w, C w → C' w) ∧ (Candidate values comp v → C' v) := by
  obtain ⟨b, hb, hiff⟩ := isCandidate_eq hs h hv
  have hends := (probe_ends hs h hv).get hrun
  rw [probePulls, following_ok hb]
  rw [probe, hb, Except.ok_bind] at hrun
  cases b with
  | false =>
    cases hrun
    refine ⟨.refl f values comp e, C, h, hcovered, fun _ hw => hw, fun hc => ?_⟩
    by_contra hC
    exact absurd (hiff.2 ⟨hc, hC⟩) (by simp)
  | true =>
    obtain ⟨hcand, hC⟩ := hiff.1 rfl
    obtain ⟨hsettled, -⟩ | ⟨-, hb', -⟩ := hends
    · exact absurd ⟨hcand, hC⟩ hsettled
    simp only [if_true] at hrun ⊢
    obtain ⟨⟨several, e1, node⟩, hexplore, hrun⟩ := exists_of_bind hrun
    obtain ⟨hcredits, hcovered1, hended⟩ := (explore_credits hs h hcand hC hcovered default).get hexplore
    have hboth : Credits f values comp e1 [] r.2 := by
      cases several with
      | false =>
        cases hrun
        exact .refl f values comp _
      | true =>
        obtain ⟨⟨part, signature, marks⟩, hclaim, hrun⟩ := exists_of_bind hrun
        cases hrun
        exact claim_credits hs (hended rfl) hclaim
    have hall := hcredits.trans hboth
    rw [List.append_nil] at hall
    exact ⟨hall, _, hb', hcovered1.sees hboth.sees, fun _ hw => Or.inl hw, fun _ => Or.inr Relation.ReflTransGen.refl⟩

/-! ## Pulls do not depend on scores -/

theorem pull_agree (h : Peer e e') (v : Var) (link : Link) : pull v e' link = pull v e link := by
  cases link with
  | binary w =>
    have hmark : e'.marks.varMark w = e.marks.varMark w := by
      unfold Marks.varMark
      rw [h.marks]
    unfold pull
    simp only [hmark]
  | ternary c a b => rfl
  | long c lits => rfl

theorem linkPulls_agree {links : List Link} {t t' : Explorer} (h : Twin e e')
    (hrun : links.foldlM (fun e link => (follow values v e link).result) e = .ok t)
    (hrun' : links.foldlM (fun e link => (follow values v e link).result) e' = .ok t') :
    linkPulls values v links e' = linkPulls values v links e := by
  induction links generalizing e e' with
  | nil => rfl
  | cons link links ih =>
    rw [List.foldlM_cons] at hrun hrun'
    obtain ⟨e1, hfollow, hrest⟩ := exists_of_bind hrun
    obtain ⟨e1', hfollow', hrest'⟩ := exists_of_bind hrun'
    rw [linkPulls, linkPulls, following_ok hfollow, following_ok hfollow', pull_agree h.toPeer,
      ih (follow_agree h v link _ _ hfollow hfollow') hrest hrest']

theorem walkPulls_agree {steps i : ℕ} {t t' : Explorer} (h : Twin e e') (hrun : (walk values steps i e).result = .ok t)
    (hrun' : (walk values steps i e').result = .ok t') :
    walkPulls values steps i e' = walkPulls values steps i e := by
  induction steps generalizing i e e' with
  | zero => cases hrun
  | succ steps ih =>
    rw [walk] at hrun hrun'
    rw [h.reached] at hrun'
    rw [walkPulls, walkPulls, h.reached, h.adjacency]
    cases hi : e.reached[i]? with
    | none => rfl
    | some v =>
      simp only [hi, Traced.result_bind, Traced.result_lift, Traced.result_foldlM, h.adjacency] at hrun hrun'
      obtain ⟨links, hlinks, hrun⟩ := exists_of_bind hrun
      rw [hlinks, Except.ok_bind] at hrun'
      obtain ⟨e1, hfollow, hrest⟩ := exists_of_bind hrun
      obtain ⟨e1', hfollow', hrest'⟩ := exists_of_bind hrun'
      have htwin : Twin e1 e1' := Agree.foldlM h (fun _ _ h link => follow_agree h v link) _ _ hfollow hfollow'
      simp only
      rw [following_ok hlinks, following_ok hlinks, linkPulls_agree h hfollow hfollow', Traced.result_foldlM,
        Traced.result_foldlM, following_ok hfollow, following_ok hfollow', ih htwin hrest hrest']

/-- an exploration that gives a result has made a walk -/
theorem collect_of_explore {node : Node} {r : Bool × Explorer × Node}
    (hrun : (e.explore node v values).result = .ok r) : ∃ t, (e.collect v values).result = .ok t := by
  simp only [explore, Traced.result_bind, Traced.result_lift] at hrun
  obtain ⟨_, -, hrun⟩ := exists_of_bind hrun
  obtain ⟨_, -, hrun⟩ := exists_of_bind hrun
  obtain ⟨t, hcollect, -⟩ := exists_of_bind hrun
  exact ⟨t, hcollect⟩

theorem probePulls_agree {r r' : List (Option Part) × Explorer} (h : Peer e e') (hrun : probe comp values e v = .ok r)
    (hrun' : probe comp values e' v = .ok r') : probePulls values e' v = probePulls values e v := by
  obtain ⟨b, hb, hrun⟩ := exists_of_bind hrun
  obtain ⟨b', hb', hrun'⟩ := exists_of_bind hrun'
  obtain rfl : b = b' := isCandidate_agree h v _ _ hb hb'
  rw [probePulls, probePulls, following_ok hb, following_ok hb']
  cases b with
  | false => rfl
  | true =>
    simp only [if_true] at hrun hrun' ⊢
    obtain ⟨r1, hexplore, -⟩ := exists_of_bind hrun
    obtain ⟨r1', hexplore', -⟩ := exists_of_bind hrun'
    obtain ⟨t, hcollect⟩ := collect_of_explore hexplore
    obtain ⟨t', hcollect'⟩ := collect_of_explore hexplore'
    have hfirst : Twin { e with marks := e.marks.putVar v .seen, reached := #[v] }
        { e' with marks := e'.marks.putVar v .seen, reached := #[v] } := ⟨⟨h.adjacency, h.marks.putVar v .seen⟩, rfl⟩
    unfold collect at hcollect hcollect'
    rw [h.marks.numSlots] at hcollect' ⊢
    exact walkPulls_agree hfirst hcollect hcollect'

end Explorer

namespace Decomposer

open Explorer

variable {f : Formula} {cls : List (List Lit)} {values : Assignment} {comp : Component} {index : ℕ} {C : Var → Prop}
  {caching : Bool} {s t : Sweep}

/-- **A pass** credits the candidates, and the kept clauses of those it claims are met. -/
theorem pass_credits (hs : Setting f cls values comp) {l : List Var} (hl : ∀ v ∈ l, v ∈ comp.vars)
    (h : Between f values comp index C s.explorer) (hcovered : Covered f values comp C s.explorer)
    (hrun : l.foldlM (fun s v => (sweepVar caching comp values s v).result) s = .ok t) :
    Credits f values comp s.explorer (passPulls comp values l s.explorer) t.explorer ∧
      ∃ C', Between f values comp index C' t.explorer ∧ Covered f values comp C' t.explorer ∧ (∀ w, C w → C' w) ∧
        ∀ v ∈ l, Candidate values comp v → C' v := by
  induction l generalizing s C with
  | nil =>
    cases hrun
    exact ⟨.refl f values comp _, C, h, hcovered, fun _ hw => hw, nofun⟩
  | cons v l ih =>
    rw [List.foldlM_cons] at hrun
    obtain ⟨s1, hstep, hrest⟩ := exists_of_bind hrun
    obtain ⟨r, hprobe, tally, -, rfl⟩ := sweepVar_ok hstep
    obtain ⟨hcredits, C1, h1, hcovered1, hmono1, hself⟩ := probe_credits hs h (hl v (by simp)) hcovered hprobe
    obtain ⟨hmore, C2, h2, hcovered2, hmono2, hclaimed⟩ :=
      ih (fun w hw => hl w (List.mem_cons_of_mem _ hw)) h1 hcovered1 hrest
    rw [passPulls, following_ok hprobe]
    refine ⟨hcredits.trans hmore, C2, h2, hcovered2, fun w hw => hmono2 w (hmono1 w hw), fun w hw hc => ?_⟩
    rcases List.mem_cons.1 hw with rfl | hw
    · exact hmono2 w (hself hc)
    · exact hclaimed w hw hc

/-- two passes that begin with equal marks make the same pulls -/
theorem passPulls_agree {caching' : Bool} {l : List Var} {u t' : Sweep} (h : Peer s.explorer u.explorer)
    (hrun : l.foldlM (fun s v => (sweepVar caching comp values s v).result) s = .ok t)
    (hrun' : l.foldlM (fun s v => (sweepVar caching' comp values s v).result) u = .ok t') :
    passPulls comp values l u.explorer = passPulls comp values l s.explorer := by
  induction l generalizing s u with
  | nil => rfl
  | cons v l ih =>
    rw [List.foldlM_cons] at hrun hrun'
    obtain ⟨s1, hstep, hrest⟩ := exists_of_bind hrun
    obtain ⟨s1', hstep', hrest'⟩ := exists_of_bind hrun'
    obtain ⟨r, hprobe, tally, -, rfl⟩ := sweepVar_ok hstep
    obtain ⟨r', hprobe', tally', -, rfl⟩ := sweepVar_ok hstep'
    have hpeer : Peer r.2 r'.2 := (probe_agree h comp v r r' hprobe hprobe').2
    rw [passPulls, passPulls, following_ok hprobe, following_ok hprobe', probePulls_agree h hprobe hprobe']
    exact congrArg _ (ih (s := ⟨r.2, _, _, _, _⟩) (u := ⟨r'.2, _, _, _, _⟩) hpeer hrest hrest')

/-! ## A split -/

variable {d : Decomposer} {node : Node} {r : Decomposer × Node}

/-- what a split has scored: a candidate has one point for each kept clause that contains it and for each pull at it,
and an assigned variable has what it had -/
structure Credited (f : Formula) (values : Assignment) (comp : Component) (d : Decomposer) (pulls : List Pull)
    (d' : Decomposer) : Prop where
  candidate : ∀ v, Candidate values comp v →
    d'.score v = .ok ((f.keptWith values comp v).card + pullsAt pulls v)
  assigned : ∀ v, ¬ values.Free v → d'.score v = d.score v
  links : ∀ p ∈ pulls, Link.binary p.target ∈ f.links p.source
  once : (pulls.map Pull.target).Nodup

theorem credited_of_split (hs : Setting f cls values comp) (hfits : d.explorer.Fits f)
    (hsuper : d.superOf node = .ok comp) (hrun : (d.split node values).result = .ok r) :
    Credited f values comp d (d.pulls node comp values) r.1 := by
  obtain ⟨e, s, hprepare, hsweep, -, hr, -⟩ := split_steps hsuper hrun
  have hprepared := (prepare_ends (E := AnyFault) hs hfits node.superIndex).get hprepare
  obtain ⟨hcredits, C, hbetween, hcovered, -, hclaimed⟩ :=
    pass_credits hs (fun _ hv => hv) (s := ⟨e, d.store, node, [], 0⟩) hprepared.between
      (fun _ _ _ _ hC => hC.elim) hsweep
  have hpulls : d.pulls node comp values = passPulls comp values comp.vars e := following_ok hprepare _
  rw [hpulls, hr]
  refine ⟨fun v hv => ?_, fun v hv => ?_, hcredits.links, hcredits.once⟩
  · refine (score_eq (hbetween.fits.index_lt_scores (hs.within hv))).trans (congrArg Except.ok ?_)
    -- at first no clause was met, and in the end all kept clauses of a candidate were
    have hfirst : metWith f comp e v = ∅ := by
      refine Finset.filter_eq_empty_iff.2 fun c hc hmet => hmet.1.1 ?_
      rw [hprepared.clauseMark, if_pos (List.mem_toFinset.1 hc)]
    have hlast : metWith f comp s.explorer v = f.keptWith values comp v := by
      refine Finset.filter_congr fun c _ => and_congr_left fun hvc => ⟨fun hmet => ?_, fun hk => ⟨?_, fun hout => ?_⟩⟩
      · cases hm : s.explorer.marks.clauseMark c with
        | outside => exact absurd hm hmet.2
        | unseen => exact absurd hm hmet.1
        | seen b => exact (hbetween.marked.clauseSeen c b hm).1
        | claimed => exact (hbetween.marked.clauseClaimed c hm).1
      · exact hcovered c v hk hvc (hclaimed v hv.1 hv)
      · exact hbetween.marked.clauseOutside c hout hk
    have hscore := hcredits.candidate v hv
    simp only [hfirst, hlast, hprepared.score, if_pos hv, Finset.card_empty] at hscore
    omega
  · refine score_congr (hbetween.fits.scores.trans hfits.scores.symm) ((hcredits.assigned v hv).trans ?_)
    rw [hprepared.score, if_neg fun hc => hv hc.2]

/-- **Scores.** Split a super-component that lists variables and long clauses of the formula, each once, whatever the
scores and marks were before. Then every free variable of it has one point for each listed clause that is kept and
contains it, and one for each pull of which it is an end; excluded clauses and the scores before count nothing, and
assigned variables keep their scores. Another split of the super-component makes the same pulls and gives the same
scores. Where the store is sound and has the entry of the super-component, a split gives a result unless a score or the
ids run full. -/
theorem split_scores {n : ℕ} {clauses : List (List ℤ)} (hn : n < 2147483648)
    (hf : Formula.ofClauses n clauses = .ok f) (hvars : comp.vars.Nodup ∧ ∀ v ∈ comp.vars, v.Within n)
    (hclauses : comp.clauses.Nodup ∧ ∀ c ∈ comp.clauses, c.Within f.numLong) (hvalues : values.Fits n)
    (hfits : d.explorer.Fits f) (hsuper : d.superOf node = .ok comp) :
    (∀ r, (d.split node values).result = .ok r → Credited f values comp d (d.pulls node comp values) r.1 ∧
      ∀ (d' : Decomposer) (node' : Node) (r' : Decomposer × Node), d'.explorer.Fits f → d'.superOf node' = .ok comp →
        (d'.split node' values).result = .ok r' → d'.pulls node' comp values = d.pulls node comp values ∧
          ∀ v, Candidate values comp v → r'.1.score v = r.1.score v) ∧
    (d.store.Sound → d.store.has comp.id = true → node.base ≤ d.stack.length → ∀ fault,
      (d.split node values).result = .error fault → OutOfWords f values comp d fault) := by
  obtain ⟨hnum, hstores⟩ := stores_of_ofClauses hn hf
  have hs : Setting f _ values comp := ⟨hstores, hnum ▸ hn, hnum ▸ hvalues, fun v hv => hnum ▸ hvars.2 v hv, hvars.1,
    hclauses.2, hclauses.1⟩
  refine ⟨fun r hrun => ?_, fun hsound hlive hbase fault hfault => ?_⟩
  · have hcredited := credited_of_split hs hfits hsuper hrun
    refine ⟨hcredited, fun d' node' r' hfits' hsuper' hrun' => ?_⟩
    obtain ⟨e, s, hprepare, hsweep, -⟩ := split_steps hsuper hrun
    obtain ⟨e', s', hprepare', hsweep', -⟩ := split_steps hsuper' hrun'
    have hpeer := prepare_agree (hfits'.adjacency.trans hfits.adjacency.symm) (hfits'.slots.trans hfits.slots.symm)
      node.superIndex node'.superIndex comp e e' hprepare hprepare'
    have hpulls : d'.pulls node' comp values = d.pulls node comp values := by
      rw [pulls, pulls, following_ok hprepare, following_ok hprepare']
      exact passPulls_agree (s := ⟨e, d.store, node, [], 0⟩) (u := ⟨e', d'.store, node', [], 0⟩) hpeer hsweep hsweep'
    refine ⟨hpulls, fun v hv => ?_⟩
    rw [(credited_of_split hs hfits' hsuper' hrun').candidate v hv, hpulls, hcredited.candidate v hv]
  · have hends := split_issued hs hfits hsound hsuper hlive hbase
    rw [hfault] at hends
    exact hends

/-- two binary clauses that pull in a variable each, two kept clauses and one that is excluded; whatever the scores were
before, the split leaves the same, but for the assigned variable 6 -/
theorem split_scores_mixed :
    let u := Value.unassigned
    let values : Assignment := ⟨#[u, u, u, u, u, u, u, u, u, u, u, u, .isTrue, .isFalse]⟩
    (Assignment.empty 6).assign (Lit.ofInt (-6)) = .ok values ∧
    ∃ f d, Formula.ofClauses 6 [[1, 2], [-2, 3], [3, 4, -5], [1, 2, 4, 6], [1, -3, -6]] = .ok f ∧
      loaded ⟨false, 0, 0⟩ f = .ok d ∧
      let d' : Decomposer := { d with explorer := { d.explorer with scores := #[0, 9, 8, 7, 6, 5, 4] } }
      ∃ r r', (d.split (Node.start 1 2) values).result = .ok r ∧ (d'.split (Node.start 1 2) values).result = .ok r' ∧
        (∀ p ∈ [(1, 2), (2, 3), (3, 2), (4, 2), (5, 1)], r.1.score ⟨p.1⟩ = .ok p.2 ∧ r'.1.score ⟨p.1⟩ = .ok p.2) ∧
        r'.1.score ⟨6⟩ = .ok 4 := by
  intro u values
  let f := ((((((Formula.empty 6).addBinary (Lit.ofInt 1) (Lit.ofInt 2)).addBinary (Lit.ofInt (-2))
    (Lit.ofInt 3)).addLong ([3, 4, -5].map Lit.ofInt)).1.addLong ([1, 2, 4, 6].map Lit.ofInt)).1.addLong
      ([1, -3, -6].map Lit.ofInt)).1
  have hf : Formula.ofClauses 6 [[1, 2], [-2, 3], [3, 4, -5], [1, 2, 4, 6], [1, -3, -6]] = .ok f := rfl
  let root := (Component.whole ⟨6⟩ ⟨3⟩).withId .root
  have hvars : root.vars.Nodup ∧ ∀ v ∈ root.vars, v.Within 6 := by decide
  have hclauses : root.clauses.Nodup ∧ ∀ c ∈ root.clauses, c.Within f.numLong := by decide
  have hvalues : values.Fits 6 := by decide
  let crowd (d : Decomposer) : Decomposer :=
    { d with explorer := { d.explorer with scores := #[0, 9, 8, 7, 6, 5, 4] } }
  obtain ⟨d, hload, hfits, hscores, hsuper, hsound, hlive, hbase, hsplit', hcounts⟩ : ∃ d,
      loaded ⟨false, 0, 0⟩ f = .ok d ∧ d.explorer.Fits f ∧ (crowd d).explorer.Fits f ∧
      d.superOf (Node.start 1 2) = .ok root ∧ d.store.Sound ∧ d.store.has root.id = true ∧
      (Node.start 1 2).base ≤ d.stack.length ∧
      ((crowd d).split (Node.start 1 2) values).result.toOption.isSome = true ∧
      ∀ p ∈ [(1, 2), (2, 3), (3, 2), (4, 2), (5, 1)], Candidate values root ⟨p.1⟩ ∧
        (f.keptWith values root ⟨p.1⟩).card + pullsAt (d.pulls (Node.start 1 2) root values) ⟨p.1⟩ = p.2 := by
    exact ⟨_, rfl, fits_ofFormula f, ⟨rfl, rfl, rfl, rfl⟩, rfl, Store.sound_plant _ _, Store.has_root_plant, le_rfl,
      by decide +kernel, by decide +kernel⟩
  have hwords : ∀ fault, ¬ OutOfWords f values root d fault := loaded_words hload (by decide) (by decide)
  obtain ⟨hpoints, htotal⟩ := split_scores (by decide) hf hvars hclauses hvalues hfits hsuper
  obtain ⟨r, hrun⟩ : ∃ r, (d.split (Node.start 1 2) values).result = .ok r := by
    cases hresult : (d.split (Node.start 1 2) values).result with
    | ok r => exact ⟨r, rfl⟩
    | error fault => exact absurd (htotal hsound hlive hbase fault hresult) (hwords fault)
  obtain ⟨r', hr'⟩ := Option.isSome_iff_exists.1 hsplit'
  have hrun' := Except.eq_ok_of_toOption hr'
  obtain ⟨hcredited, hsame⟩ := hpoints r hrun
  obtain ⟨hcredited', -⟩ := (split_scores (by decide) hf hvars hclauses hvalues hscores hsuper).1 r' hrun'
  refine ⟨rfl, f, d, hf, hload, r, r', hrun, hrun', fun p hp => ?_, hcredited'.assigned ⟨6⟩ (by decide)⟩
  obtain ⟨hcand, hscore⟩ := hcounts p hp
  have hfirst : r.1.score ⟨p.1⟩ = .ok p.2 := hscore ▸ hcredited.candidate _ hcand
  exact ⟨hfirst, ((hsame (crowd d) (Node.start 1 2) r' hscores hsuper hrun').2 _ hcand).trans hfirst⟩

end Decomposer

end ModelCount
