/-
The key under which a component is remembered.

A signature lists the variables of a component and those of its clauses that have a false literal. At a valid node
this determines what is left of the formula on the component: the clauses that are left out are the ones that lie
within the variables, at every valid node. Hence two components with one signature have one residual formula and one
number of models, whatever nodes they come from, and the signature is no finer than that (`key_soundness`).
-/
import Mathlib.Tactic
import ModelCount.Proofs.Split
import ModelCount.Proofs.Valid

namespace ModelCount

open Formula Explorer

/-! ## What an analysis emits -/

/-- the part and the signature that a pass over the super-component takes out at `v`, after the variables `before`; none
if no walk starts there or the walk reaches no second variable -/
def Decomposer.partAt (d : Decomposer) (node : Node) (comp : Component) (values : Assignment) (before : List Var)
    (v : Var) : Except Fault (Option (Component × Signature)) := do
  let e ← d.explorer.prepare node.superIndex comp values
  let s ← (before.foldlM (sweepVar d.config.caching comp values) ⟨e, d.store, node, [], 0⟩).result
  if ← s.explorer.isCandidate v values then
    let (several, e, _) ← (s.explorer.explore s.node v values).result
    if several then
      let (part, signature, _) ← e.marks.claim comp
      return some (part, signature)
    else return none
  else return none

/-- some pass over the super-component, with any scratch state left by earlier ones, takes the part out -/
def Emits (f : Formula) (values : Assignment) (comp part : Component) (signature : Signature) : Prop :=
  ∃ (d : Decomposer) (node : Node) (before : List Var) (v : Var), d.explorer.Fits f ∧ before ++ [v] <+: comp.vars ∧
    d.partAt node comp values before v = .ok (some (part, signature))

/-- a pass about which nothing is asked -/
theorem SweepRule.trivial (f : Formula) (values : Assignment) (comp : Component) (caching : Bool) :
    SweepRule AnyFault f values comp caching fun _ _ _ _ => True := by
  refine ⟨fun _ _ _ _ _ _ _ _ => True.intro, fun _ _ _ _ _ _ _ _ _ _ => Ends.of_ok fun r _ => ?_⟩
  split_ifs
  exact Ends.of_ok fun _ _ => True.intro

/-- what is taken out is a class of candidates with the kept clauses that touch it -/
theorem Emits.isPart {f : Formula} {cls : List (List Lit)} {values : Assignment} {comp part : Component}
    {signature : Signature} (h : Emits f values comp part signature) (hs : Setting f cls values comp) :
    ∃ v, IsPart f values comp v part signature := by
  obtain ⟨d, node, before, v, hd, hpre, hrun⟩ := h
  have hmem : ∀ w ∈ before ++ [v], w ∈ comp.vars := fun w hw => hpre.subset hw
  have hends : Ends AnyFault (d.partAt node comp values before v) fun o =>
      ∀ p, o = some p → IsPart f values comp v p.1 p.2 := by
    unfold Decomposer.partAt
    apply (prepare_spec hs hd node.superIndex).bind
    intro e hboth
    rcases hboth with ⟨he, hroom⟩
    refine (Decomposer.sweep_spec (s := ⟨e, d.store, node, [], 0⟩) hs
      (SweepRule.trivial f values comp d.config.caching) (fun _ => True.intro)
      (fun w hw => hmem w (List.mem_append_left _ hw)) ⟨he, hroom, True.intro⟩).bind ?_
    intro s hex
    rcases hex with ⟨C, hswept, -⟩
    obtain ⟨b, hb, hiff⟩ := isCandidate_eq hs hswept.between (hmem v (by simp))
    apply Ends.bind_of_eq hb
    cases b with
    | false => intro p hp; cases hp
    | true =>
      obtain ⟨hv, hC⟩ := hiff.1 rfl
      apply (explore_spec s.node hs hswept.between hv hC).any.bind
      intro r hor
      rcases r with ⟨several, e', node'⟩
      rcases hor with ⟨-, ⟨hfalse, -⟩ | ⟨htrue, -, hended, htwo⟩⟩
      · simp only at hfalse
        subst hfalse
        intro p hp
        cases hp
      · simp only at htrue
        subst htrue
        obtain ⟨part', signature', marks, hclaim, hpart, -⟩ := claim_spec hs hended hswept.between.closed htwo
        simp only [if_true]
        apply Ends.bind_of_eq hclaim
        intro p hp
        cases hp
        exact hpart
  exact ⟨v, hends.get hrun _ rfl⟩

/-! ## Two nodes -/

/-- the clauses that may be left over: the binary and the long ones -/
def Formula.connecting (f : Formula) : List (List Lit) := f.binaryClauses ++ f.longClauses.map Prod.snd

/-- the member clauses of a component with a false literal -/
def Formula.Broken (f : Formula) (values : Assignment) (part : Component) (c : ClauseId) : Prop :=
  c ∈ part.clauses ∧ ∃ l ∈ f.literals c, values.val l = .isFalse

/-- at a valid node, nothing is left of the unit clauses -/
theorem ValidNode.residual_clauses {f : Formula} {values : Assignment} {comp : Component} (h : ValidNode f values comp)
    (K : Finset Var) : residual values f.clauses K = residual values f.connecting K := by
  have hnil : (f.units.map fun a => [a]).filter (fun c => decide (Unsatisfied values c ∧ Touches K c)) = [] := by
    rw [List.filter_eq_nil_iff]
    intro c hc
    obtain ⟨a, ha, rfl⟩ := List.mem_map.1 hc
    simp only [decide_eq_true_eq, not_and]
    intro hu
    exact absurd hu ((h.propagated _ (unit_mem_clauses ha)).not_unsatisfied (by simp))
  unfold residual Formula.clauses connecting
  rw [List.append_assoc, List.filter_append, hnil, List.nil_append]

/-- the signature of a part at a valid node: its variables and its broken clauses, in ascending order -/
theorem ValidNode.signature_eq {f : Formula} {cls : List (List Lit)} {values : Assignment} {comp part : Component}
    {v : Var} {signature : Signature} (h : ValidNode f values comp) (hs : Setting f cls values comp)
    (hpart : IsPart f values comp v part signature) :
    ∃ listed : List ClauseId, signature = .ofParts part.vars listed ∧
      listed.Pairwise (fun c d => c.id < d.id) ∧ (∀ c, c ∈ listed ↔ f.Broken values part c) ∧
      residual values f.clauses part.vars.toFinset = f.standing part.vars.toFinset listed := by
  obtain ⟨listed, rfl, hsub, hlisted⟩ := hpart.signature
  refine ⟨listed, rfl, h.clausesAscending.sublist (hsub.trans hpart.clausesSublist), fun c => ?_,
    h.residual_eq_standing hs hpart hlisted⟩
  rw [hlisted]
  refine and_congr_right fun hc => ?_
  obtain ⟨w, hw, hwp⟩ := hpart.touches (h.noLonely hs) c hc
  obtain ⟨l, hl, rfl⟩ := List.mem_map.1 hw
  rw [h.allActive_iff hs (hpart.kept c hc) ⟨l, hl, ((hpart.mem_vars _).1 hwp).candidate hpart.candidate⟩]
  push Not
  rfl

/-- strictly ascending lists with the same members are equal -/
theorem eq_of_ascending {α : Type} {key : α → ℕ} {l l' : List α} (h : l.Pairwise fun a b => key a < key b)
    (h' : l'.Pairwise fun a b => key a < key b) (hmem : ∀ a, a ∈ l ↔ a ∈ l') : l = l' := by
  have hperm : l.Perm l' := (List.perm_ext_iff_of_nodup (nodup_of_ascending h) (nodup_of_ascending h')).2 hmem
  exact hperm.eq_of_pairwise (fun a b _ _ hab hba => absurd hab (by omega)) h h'

variable {f : Formula} {n : ℕ} {clauses : List (List ℤ)} {values values' : Assignment}
  {comp comp' part part' : Component} {signature signature' : Signature}

/-- **Key soundness and canonicity.** Take components emitted at two valid nodes of one formula. If their signatures are
equal, they have the same variables, the same residual formula on them and the same number of models. The signatures
are equal exactly if the variables and the member clauses with a false literal are the same. -/
theorem key_soundness (hn : n < 2147483648) (hf : Formula.ofClauses n clauses = .ok f) (hvalues : values.Fits n)
    (hvalues' : values'.Fits n) (hnode : ValidNode f values comp) (hnode' : ValidNode f values' comp')
    (hemits : Emits f values comp part signature) (hemits' : Emits f values' comp' part' signature') :
    (signature = signature' → part.vars = part'.vars ∧
      residual values f.connecting part.vars.toFinset = residual values' f.connecting part'.vars.toFinset ∧
      numModels part.vars.toFinset (residual values f.connecting part.vars.toFinset) =
        numModels part'.vars.toFinset (residual values' f.connecting part'.vars.toFinset)) ∧
    (signature = signature' ↔
      (∀ v, v ∈ part.vars ↔ v ∈ part'.vars) ∧ ∀ c, f.Broken values part c ↔ f.Broken values' part' c) := by
  obtain ⟨hnum, hstores⟩ := stores_of_ofClauses hn hf
  subst hnum
  have hs := hnode.setting hstores hn hvalues
  have hs' := hnode'.setting hstores hn hvalues'
  obtain ⟨v, hpart⟩ := hemits.isPart hs
  obtain ⟨v', hpart'⟩ := hemits'.isPart hs'
  obtain ⟨listed, rfl, hasc, hbroken, hres⟩ := hnode.signature_eq hs hpart
  obtain ⟨listed', rfl, hasc', hbroken', hres'⟩ := hnode'.signature_eq hs' hpart'
  rw [Signature.ofParts_inj (hpart.id_ne_zero hs) (hpart'.id_ne_zero hs')]
  refine ⟨?_, ?_, ?_⟩
  · intro hboth
    rcases hboth with ⟨hv, hl⟩
    have heq : residual values f.connecting part.vars.toFinset =
        residual values' f.connecting part'.vars.toFinset :=
      calc residual values f.connecting part.vars.toFinset
          = residual values f.clauses part.vars.toFinset := (hnode.residual_clauses _).symm
        _ = f.standing part.vars.toFinset listed := hres
        _ = f.standing part'.vars.toFinset listed' := by rw [hv, hl]
        _ = residual values' f.clauses part'.vars.toFinset := hres'.symm
        _ = residual values' f.connecting part'.vars.toFinset := hnode'.residual_clauses _
    exact ⟨hv, heq, by rw [heq, hv]⟩
  · intro hboth
    rcases hboth with ⟨hv, hl⟩
    exact ⟨fun w => by rw [hv], fun c => by rw [← hbroken, ← hbroken', hl]⟩
  · intro hboth
    rcases hboth with ⟨hv, hb⟩
    refine ⟨eq_of_ascending (hnode.varsAscending.sublist hpart.varsSublist)
      (hnode'.varsAscending.sublist hpart'.varsSublist) hv, eq_of_ascending hasc hasc' fun c => ?_⟩
    rw [hbroken, hbroken', hb]

/-- one clause over three of four variables, while the third is true and while it is false: the clause belongs to the
component, but as all its literals are active the key leaves it out -/
theorem key_soundness_across :
    let u := Value.unassigned
    let yes : Assignment := ⟨#[u, u, u, u, u, u, .isFalse, .isTrue, u, u]⟩
    let no : Assignment := ⟨#[u, u, u, u, u, u, .isTrue, .isFalse, u, u]⟩
    let root := (Component.whole ⟨4⟩ ⟨1⟩).withId .root
    let part := Component.ofParts [⟨1⟩, ⟨2⟩, ⟨4⟩] [⟨1⟩]
    let signature := Signature.ofParts [⟨1⟩, ⟨2⟩, ⟨4⟩] []
    (Assignment.empty 4).assign (Var.pos ⟨3⟩) = .ok yes ∧ (Assignment.empty 4).assign (Var.neg ⟨3⟩) = .ok no ∧
    ∃ f d, Formula.ofClauses 4 [[1, 2, 4]] = .ok f ∧ Decomposer.loaded ⟨false, 0, 0⟩ f = .ok d ∧
      d.superOf (Node.start 1 2) = .ok root ∧
      (∀ values ∈ [yes, no], d.partAt (Node.start 1 2) root values [] ⟨1⟩ = .ok (some (part, signature))) ∧
      residual yes f.connecting part.vars.toFinset = residual no f.connecting part.vars.toFinset ∧
      numModels part.vars.toFinset (residual yes f.connecting part.vars.toFinset) =
        numModels part.vars.toFinset (residual no f.connecting part.vars.toFinset) := by
  intro u yes no root part signature
  let f := ((Formula.empty 4).addLong ([1, 2, 4].map Lit.ofInt)).1
  have hf : Formula.ofClauses 4 [[1, 2, 4]] = .ok f := rfl
  obtain ⟨d, hload, hsuper, hscratch, hemits⟩ : ∃ d, Decomposer.loaded ⟨false, 0, 0⟩ f = .ok d ∧
      d.superOf (Node.start 1 2) = .ok root ∧ d.explorer.Fits f ∧
      ∀ values ∈ [yes, no], d.partAt (Node.start 1 2) root values [] ⟨1⟩ = .ok (some (part, signature)) :=
    ⟨_, rfl, rfl, fits_ofFormula f, by decide +kernel⟩
  refine ⟨rfl, rfl, f, d, hf, hload, hsuper, hemits, ?_⟩
  have hlong : ∀ {P : ClauseId → Prop}, P ⟨1⟩ → ∀ c : ClauseId, c.Within 1 → P c := by
    intro P h r hboth
    rcases r with ⟨id⟩
    rcases hboth with ⟨h1, h2⟩
    obtain rfl : id = 1 := Nat.le_antisymm h2 h1
    exact h
  have hyes : ValidNode f yes root :=
    ⟨by decide, by decide, by decide, by decide, by decide, by decide, hlong (by decide)⟩
  have hno : ValidNode f no root :=
    ⟨by decide, by decide, by decide, by decide, by decide, by decide, hlong (by decide)⟩
  have hemitted : ∀ values ∈ [yes, no], Emits f values root part signature := fun values h =>
    ⟨d, Node.start 1 2, [], ⟨1⟩, hscratch, by decide, hemits values h⟩
  exact ((key_soundness (by decide) hf (by decide) (by decide) hyes hno (hemitted yes (by simp))
    (hemitted no (by simp))).1 rfl).2

end ModelCount
