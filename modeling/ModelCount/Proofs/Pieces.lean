/-
What a split finds, and what it does with it.

A split does two things by turns: walks find the pieces of the super-component, and each piece is dealt with, a variable
that is alone as a factor 2, a part by a look-up and, where that misses, a fresh entry. What is found depends on the
marks alone (`probe`), what is done on the store (`serve`), and neither reads what the other writes (`sweepVar_eq`). So
two splits of one super-component under one assignment find the same pieces in the same order, whatever went on between
them (`split_pieces`).
-/
import Mathlib.Data.List.ReduceOption
import Mathlib.Tactic
import ModelCount.Proofs.Split
import ModelCount.Proofs.Twins

namespace ModelCount

open Formula Explorer

/-- a component as a walk finds it, without an entry, and its signature -/
structure Part where
  comp : Component
  signature : Signature
  deriving DecidableEq

/-! ## Finding -/

namespace Explorer

variable {f : Formula} {cls : List (List Lit)} {values : Assignment} {comp : Component} {index : ℕ} {C : Var → Prop}
  {e e' : Explorer} {v : Var}

/-- what a pass finds at a variable: nothing where it is settled, else that it is alone (`none`) or a part -/
def probe (comp : Component) (values : Assignment) (e : Explorer) (v : Var) :
    Except Fault (List (Option Part) × Explorer) := do
  if ← e.isCandidate v values then
    let (several, e, _) ← (e.explore default v values).result
    if several then
      let (part, signature, marks) ← e.marks.claim comp
      return ([some ⟨part, signature⟩], { e with marks := marks })
    else return ([none], e)
  else return ([], e)

theorem probe_agree (h : Peer e e') (comp : Component) (v : Var) :
    Agree (Beside Peer) (probe comp values e v) (probe comp values e' v) := by
  refine (isCandidate_agree h v).bind fun b b' hb => ?_
  subst hb
  split_ifs
  · refine (explore_agree h default default v).bind fun r r' hr => ?_
    obtain ⟨several, e₁, node⟩ := r
    obtain ⟨several', e₁', node'⟩ := r'
    obtain ⟨rfl, h₁⟩ : several' = several ∧ Peer e₁ e₁' := hr
    simp only
    split_ifs
    · refine (Marks.claim_agree h₁.marks comp).bind fun r r' hr => ?_
      obtain ⟨part, signature, marks⟩ := r
      obtain ⟨part', signature', marks'⟩ := r'
      obtain ⟨rfl, rfl, hm⟩ : part' = part ∧ signature' = signature ∧ _ := hr
      exact .ok ⟨rfl, h₁.adjacency, hm⟩
    · exact .ok ⟨rfl, h₁⟩
  · exact .ok ⟨rfl, h⟩

/-- the node takes no part in a walk -/
theorem explore_node (e : Explorer) (node : Node) (v : Var) (values : Assignment) :
    (e.explore node v values).result = (e.explore default v values).result >>= fun r =>
      .ok (r.1, r.2.1, if r.1 then node else node.times 2) := by
  simp only [explore, Traced.result_bind, Traced.result_lift, bind_assoc]
  refine bind_congr fun _ => bind_congr fun _ => bind_congr fun e₁ => ?_
  split_ifs <;> rfl

/-- the parts among the pieces are parts of the super-component, without entries, and no variable is in two of them or
was claimed before -/
structure Found (f : Formula) (values : Assignment) (comp : Component) (C : Var → Prop)
    (pieces : List (Option Part)) : Prop where
  isPart : ∀ p ∈ pieces.reduceOption, ∃ v, IsPart f values comp v p.comp p.signature
  bare : ∀ p ∈ pieces.reduceOption, p.comp.id = .none
  unclaimed : ∀ p ∈ pieces.reduceOption, ∀ w ∈ p.comp.vars, ¬ C w
  once : (pieces.reduceOption.flatMap fun p => p.comp.vars).Nodup

theorem claimVars_id (m : Marks) (p : Marks.Parcel) (vars : List Var) :
    Ends AnyFault (m.claimVars p vars) fun r => r.1.part.id = p.part.id := by
  induction vars generalizing m p with
  | nil => exact rfl
  | cons v rest ih =>
    unfold Marks.claimVars
    refine (Ends.anything _).bind fun mark _ => ?_
    split_ifs
    · exact ih _ _
    · exact ih m p

theorem claimClauses_id (m : Marks) (p : Marks.Parcel) (clauses : List ClauseId) :
    Ends AnyFault (m.claimClauses p clauses) fun r => r.1.part.id = p.part.id := by
  induction clauses generalizing m p with
  | nil => exact rfl
  | cons c rest ih =>
    unfold Marks.claimClauses
    refine (Ends.anything _).bind fun mark _ => ?_
    split
    · exact ih _ _
    · exact ih m p

theorem claim_id {m : Marks} {r : Component × Signature × Marks} (h : m.claim comp = .ok r) : r.1.id = .none := by
  obtain ⟨⟨p, marks⟩, hinto, hr⟩ := exists_of_bind h
  cases hr
  unfold Marks.claimInto at hinto
  split at hinto
  · cases hinto
  · split_ifs at hinto
    obtain ⟨t, ht, hinto⟩ := exists_of_bind hinto
    obtain ⟨u, hu, hinto⟩ := exists_of_bind hinto
    cases hinto
    exact ((claimClauses_id _ _ _).get hu).trans ((claimVars_id _ _ _).get ht)

theorem Found.nil : Found f values comp C [] := ⟨nofun, nofun, nofun, List.nodup_nil⟩

theorem Found.alone : Found f values comp C [none] := ⟨nofun, nofun, nofun, List.nodup_nil⟩

/-- what is found after some of it was claimed -/
theorem Found.append {C' : Var → Prop} {pieces more : List (Option Part)} (h : Found f values comp C pieces)
    (hclaimed : ∀ p ∈ pieces.reduceOption, ∀ w ∈ p.comp.vars, C' w) (hmono : ∀ w, C w → C' w)
    (h' : Found f values comp C' more) : Found f values comp C (pieces ++ more) := by
  have hmem : ∀ p, p ∈ (pieces ++ more).reduceOption → p ∈ pieces.reduceOption ∨ p ∈ more.reduceOption := by
    intro p hp
    rwa [List.reduceOption_append, List.mem_append] at hp
  refine ⟨fun p hp => (hmem p hp).elim (h.isPart p) (h'.isPart p), fun p hp => (hmem p hp).elim (h.bare p) (h'.bare p),
    fun p hp => (hmem p hp).elim (h.unclaimed p) fun hp w hw hC => h'.unclaimed p hp w hw (hmono w hC), ?_⟩
  rw [List.reduceOption_append, List.flatMap_append]
  refine List.nodup_append.2 ⟨h.once, h'.once, fun w hw u hu hwu => ?_⟩
  obtain ⟨p, hp, hwp⟩ := List.mem_flatMap.1 hw
  obtain ⟨q, hq, huq⟩ := List.mem_flatMap.1 hu
  exact h'.unclaimed q hq u huq (hwu ▸ hclaimed p hp w hwp)

/-- **Finding.** At a variable of the super-component a pass finds nothing where it is settled; else it claims the class
of the variable, and finds that it is alone or the part that the class makes. -/
theorem probe_ends (hs : Setting f cls values comp) (h : Between f values comp index C e) (hv : v ∈ comp.vars) :
    Ends (Crowded f values comp e) (probe comp values e v) fun r =>
      (¬ (Candidate values comp v ∧ ¬ C v) ∧ r = ([], e)) ∨
      (Unclaimed f values comp C v ∧ Between f values comp index (withClass f values comp C v) r.2 ∧ Spends f e r.2 ∧
        ((r.1 = [none] ∧ ∀ w, f.Connected values comp v w → w = v) ∨
          ∃ p, r.1 = [some p] ∧ IsPart f values comp v p.comp p.signature ∧ p.comp.id = .none)) := by
  obtain ⟨b, hb, hiff⟩ := isCandidate_eq hs h hv
  rw [probe, hb, Except.ok_bind]
  cases b with
  | false => exact Or.inl ⟨fun hc => absurd (hiff.2 hc) (by simp), rfl⟩
  | true =>
    obtain ⟨hcand, hnot⟩ := hiff.1 rfl
    have hun : Unclaimed f values comp C v :=
      ⟨hcand, h.marked.claimedCandidate, fun w hw hC => hnot (hw.symm.closed h.closed hC)⟩
    simp only [if_true]
    refine (explore_spec default hs h hcand hnot).bind fun r hboth => ?_
    obtain ⟨several, e₁, node⟩ := r
    obtain ⟨hspends, ⟨hsev, -, hb', hone⟩ | ⟨hsev, -, hended, htwo⟩⟩ := hboth
    · simp only at hsev
      subst hsev
      exact Or.inr ⟨hun, hb', hspends, Or.inl ⟨rfl, hone⟩⟩
    · simp only at hsev
      subst hsev
      obtain ⟨part, signature, marks, hclaim, hpart, hb', hspends'⟩ := claim_spec hs hended h.closed htwo
      simp only [if_true]
      rw [hclaim, Except.ok_bind]
      exact Or.inr ⟨hun, hb', hspends.trans hspends', Or.inr ⟨⟨part, signature⟩, rfl, hpart, claim_id hclaim⟩⟩

/-- the piece that the class of a variable makes: that the variable is alone, or a part -/
def IsPiece (f : Formula) (values : Assignment) (comp : Component) (v : Var) : Option Part → Prop
  | none => ∀ w, f.Connected values comp v w → w = v
  | some p => IsPart f values comp v p.comp p.signature

/-- what a pass finds at a variable is part of what it finds in all -/
theorem probe_spec (hs : Setting f cls values comp) (h : Between f values comp index C e) (hv : v ∈ comp.vars)
    {r : List (Option Part) × Explorer} (hrun : probe comp values e v = .ok r) :
    ∃ C', Between f values comp index C' r.2 ∧ (∀ w, C w → C' w) ∧ Found f values comp C r.1 ∧
      (∀ p ∈ r.1.reduceOption, ∀ w ∈ p.comp.vars, C' w) ∧
      ((¬ (Candidate values comp v ∧ ¬ C v) ∧ C' = C ∧ r.1 = []) ∨
        Unclaimed f values comp C v ∧ C' = withClass f values comp C v ∧
          ∃ piece, r.1 = [piece] ∧ IsPiece f values comp v piece) := by
  obtain ⟨hsettled, rfl⟩ | ⟨hun, hb', -, ⟨hnone, halone⟩ | ⟨p, hsome, hpart, hbare⟩⟩ := (probe_ends hs h hv).get hrun
  · exact ⟨C, h, fun _ hw => hw, .nil, nofun, Or.inl ⟨hsettled, rfl, rfl⟩⟩
  · rw [hnone]
    exact ⟨_, hb', fun w hw => Or.inl hw, .alone, nofun, Or.inr ⟨hun, rfl, none, rfl, halone⟩⟩
  · rw [hsome]
    have hone : ∀ q ∈ [some p].reduceOption, q = p := fun q hq => List.mem_singleton.1 hq
    refine ⟨_, hb', fun w hw => Or.inl hw, ⟨fun q hq => ?_, fun q hq => ?_, fun q hq w hw => ?_, ?_⟩,
      fun q hq w hw => ?_, Or.inr ⟨hun, rfl, some p, rfl, hpart⟩⟩
    · rw [hone q hq]
      exact ⟨v, hpart⟩
    · rw [hone q hq]
      exact hbare
    · rw [hone q hq] at hw
      exact hun.disjoint w ((hpart.mem_vars w).1 hw)
    · show (p.comp.vars ++ []).Nodup
      rw [List.append_nil]
      exact hpart.varsSublist.nodup hs.varsNodup
    · rw [hone q hq] at hw
      exact Or.inr ((hpart.mem_vars w).1 hw)

end Explorer

/-! ## Dealing with what is found -/

namespace Decomposer

variable {f : Formula} {cls : List (List Lit)} {values : Assignment} {comp : Component} {index : ℕ} {C : Var → Prop}
  {v : Var}

/-- what a pass has made of the pieces so far -/
structure Tally where
  store : Store
  node : Node
  /-- the components to push, last first -/
  found : List Component
  hits : ℕ

def Sweep.tally (s : Sweep) : Tally := ⟨s.store, s.node, s.found, s.hits⟩

/-- deal with one piece of a super-component with the entry `father` -/
def serve (caching : Bool) (father : EntryId) (t : Tally) : Option Part → Except Fault Tally
  | none => .ok { t with node := t.node.times 2 }
  | some p => do
    let (hit, store, node) ← consult caching t.store t.node p.signature
    if hit then return ⟨store, node, t.found, t.hits + 1⟩
    else
      let (id, store) ← store.mint p.signature father
      return ⟨store, node, p.comp.withId id :: t.found, t.hits⟩

/-- **One variable of a pass** is looked at, and then what is found there is dealt with. -/
theorem sweepVar_eq (caching : Bool) (comp : Component) (values : Assignment) (s : Sweep) (v : Var) :
    (sweepVar caching comp values s v).result = probe comp values s.explorer v >>= fun r =>
      r.1.foldlM (serve caching comp.id) s.tally >>= fun t => .ok ⟨r.2, t.store, t.node, t.found, t.hits⟩ := by
  obtain ⟨explorer, store, node, found, hits⟩ := s
  simp only [sweepVar, probe, Traced.result_bind, Traced.result_lift, bind_assoc]
  refine bind_congr fun b => ?_
  cases b with
  | false => rfl
  | true =>
    simp only [if_true, Traced.result_bind, bind_assoc]
    rw [explore_node]
    simp only [bind_assoc]
    refine bind_congr fun r => ?_
    obtain ⟨several, e₁, node₁⟩ := r
    cases several with
    | false => rfl
    | true =>
      simp only [settlePart, Traced.result_bind, Traced.result_quiet, if_true, Except.ok_bind, bind_assoc]
      refine bind_congr fun r => ?_
      obtain ⟨part, signature, marks⟩ := r
      simp only [Except.ok_bind, Except.pure_eq, List.foldlM_cons, List.foldlM_nil, serve, Sweep.tally, bind_assoc]
      refine bind_congr fun r => ?_
      obtain ⟨hit, store₁, node₂⟩ := r
      cases hit with
      | true => rfl
      | false =>
        simp only [Bool.false_eq_true, if_false, Traced.result_bind, Traced.result_quiet, Traced.result_emit,
          Except.ok_bind, bind_assoc]
        rfl

/-- what one variable of a pass does, if it gives a result -/
theorem sweepVar_ok {caching : Bool} {s t : Sweep} (hrun : (sweepVar caching comp values s v).result = .ok t) :
    ∃ r, probe comp values s.explorer v = .ok r ∧ ∃ tally, r.1.foldlM (serve caching comp.id) s.tally = .ok tally ∧
      t = ⟨r.2, tally.store, tally.node, tally.found, tally.hits⟩ := by
  rw [sweepVar_eq] at hrun
  obtain ⟨r, hprobe, hrun⟩ := exists_of_bind hrun
  obtain ⟨tally, hserve, hrun⟩ := exists_of_bind hrun
  exact ⟨r, hprobe, tally, hserve, (Except.ok.inj hrun).symm⟩

/-- the variables at which a pass over `l` begins a walk, where `C` is claimed before: one of each class -/
structure Leads (f : Formula) (values : Assignment) (comp : Component) (C : Var → Prop) (l leaders : List Var) :
    Prop where
  sublist : leaders.Sublist l
  isOpen : ∀ v ∈ leaders, Candidate values comp v ∧ ¬ C v
  apart : leaders.Pairwise fun v w => ¬ f.Connected values comp v w
  all : ∀ v ∈ l, Candidate values comp v → C v ∨ ∃ u ∈ leaders, f.Connected values comp u v

theorem Leads.nil : Leads f values comp C [] [] := ⟨List.Sublist.refl _, nofun, .nil, nofun⟩

theorem Leads.settled {l leaders : List Var} (h : Leads f values comp C l leaders)
    (hv : ¬ (Candidate values comp v ∧ ¬ C v)) : Leads f values comp C (v :: l) leaders := by
  refine ⟨h.sublist.cons v, h.isOpen, h.apart, fun w hw hcand => ?_⟩
  rcases List.mem_cons.1 hw with rfl | hw
  · exact Or.inl (not_not.1 fun hC => hv ⟨hcand, hC⟩)
  · exact h.all w hw hcand

theorem Leads.cons {l leaders : List Var} (h : Leads f values comp (withClass f values comp C v) l leaders)
    (hun : Unclaimed f values comp C v) : Leads f values comp C (v :: l) (v :: leaders) := by
  refine ⟨h.sublist.cons_cons v, fun w hw => ?_, List.pairwise_cons.2 ⟨fun w hw hvw => ?_, h.apart⟩,
    fun w hw hcand => ?_⟩
  · rcases List.mem_cons.1 hw with rfl | hw
    · exact ⟨hun.candidate, hun.disjoint w Relation.ReflTransGen.refl⟩
    · exact ⟨(h.isOpen w hw).1, fun hC => (h.isOpen w hw).2 (Or.inl hC)⟩
  · exact (h.isOpen w hw).2 (Or.inr hvw)
  · rcases List.mem_cons.1 hw with rfl | hw
    · exact Or.inr ⟨w, List.mem_cons_self, Relation.ReflTransGen.refl⟩
    · rcases h.all w hw hcand with (hC | hvw) | ⟨u, hu, huw⟩
      · exact Or.inl hC
      · exact Or.inr ⟨v, List.mem_cons_self, hvw⟩
      · exact Or.inr ⟨u, List.mem_cons_of_mem _ hu, huw⟩

/-- **A pass** finds pieces, one for each class, and deals with them. Another pass that begins with equal marks finds
the same ones. -/
theorem sweep_pieces (hs : Setting f cls values comp) {caching : Bool} {l : List Var} (hl : ∀ v ∈ l, v ∈ comp.vars)
    {s t : Sweep} (hb : Between f values comp index C s.explorer)
    (hrun : l.foldlM (fun s v => (sweepVar caching comp values s v).result) s = .ok t) :
    ∃ leaders pieces, Leads f values comp C l leaders ∧ List.Forall₂ (IsPiece f values comp) leaders pieces ∧
      Found f values comp C pieces ∧ pieces.foldlM (serve caching comp.id) s.tally = .ok t.tally ∧
      ∀ (caching' : Bool) (s' t' : Sweep), Peer s.explorer s'.explorer →
        l.foldlM (fun s v => (sweepVar caching' comp values s v).result) s' = .ok t' →
        pieces.foldlM (serve caching' comp.id) s'.tally = .ok t'.tally := by
  induction l generalizing s C with
  | nil =>
    cases hrun
    refine ⟨[], [], .nil, .nil, .nil, rfl, fun caching' s' t' _ hrun' => ?_⟩
    cases hrun'
    rfl
  | cons v l ih =>
    rw [List.foldlM_cons] at hrun
    obtain ⟨s₁, hstep, hrest⟩ := exists_of_bind hrun
    obtain ⟨⟨here, e⟩, hprobe, tally, hserve, rfl⟩ := sweepVar_ok hstep
    obtain ⟨C', hb', hmono, hfound, hclaimed, hclass⟩ := probe_spec hs hb (hl v (by simp)) hprobe
    obtain ⟨leaders, more, hleads, hpieces, hmore, hfold, hpeers⟩ :=
      ih (fun w hw => hl w (List.mem_cons_of_mem _ hw)) hb' hrest
    obtain ⟨leaders', hleads', hpieces'⟩ : ∃ leaders', Leads f values comp C (v :: l) leaders' ∧
        List.Forall₂ (IsPiece f values comp) leaders' (here ++ more) := by
      rcases hclass with ⟨hsettled, rfl, rfl⟩ | ⟨hun, rfl, piece, rfl, hpiece⟩
      · exact ⟨leaders, hleads.settled hsettled, hpieces⟩
      · exact ⟨v :: leaders, hleads.cons hun, .cons hpiece hpieces⟩
    refine ⟨leaders', here ++ more, hleads', hpieces', hfound.append hclaimed hmono hmore, ?_,
      fun caching' s' t' hpeer hrun' => ?_⟩
    · rw [List.foldlM_append, hserve]
      exact hfold
    · rw [List.foldlM_cons] at hrun'
      obtain ⟨s₁', hstep', hrest'⟩ := exists_of_bind hrun'
      obtain ⟨⟨here', e'⟩, hprobe', tally', hserve', rfl⟩ := sweepVar_ok hstep'
      obtain ⟨rfl, hpeer'⟩ : here' = here ∧ Peer e e' := probe_agree hpeer comp v _ _ hprobe hprobe'
      rw [List.foldlM_append, hserve']
      exact hpeers _ _ _ hpeer' hrest'

/-- a split has dealt with the pieces it found -/
structure Dealt (d : Decomposer) (node : Node) (comp : Component) (pieces : List (Option Part)) (r : Decomposer × Node)
    (t : Tally) : Prop where
  serve : pieces.foldlM (serve d.config.caching comp.id) ⟨d.store, node, [], 0⟩ = .ok t
  config : r.1.config = d.config
  store : r.1.store = t.store
  stack : r.1.stack = d.stack ++ sortDescending t.found.reverse
  base : t.node.base ≤ r.1.stack.length
  node : r.2 = { t.node with cursor := r.1.stack.length }

theorem split_super {d : Decomposer} {node : Node} {r : Decomposer × Node}
    (hrun : (d.split node values).result = .ok r) : ∃ comp, d.superOf node = .ok comp := by
  simp only [split, Traced.result_bind, Traced.result_lift] at hrun
  obtain ⟨comp, hsuper, -⟩ := exists_of_bind hrun
  exact ⟨comp, hsuper⟩

/-- the steps of a split that gives a result -/
theorem split_steps {d : Decomposer} {node : Node} {r : Decomposer × Node} (hsuper : d.superOf node = .ok comp)
    (hrun : (d.split node values).result = .ok r) :
    ∃ e s, d.explorer.prepare node.superIndex comp values = .ok e ∧
      comp.vars.foldlM (fun s v => (sweepVar d.config.caching comp values s v).result) ⟨e, d.store, node, [], 0⟩ =
        .ok s ∧
      s.node.base ≤ r.1.stack.length ∧
      r.1 = ⟨d.config, s.explorer, s.store, d.stack ++ sortDescending s.found.reverse⟩ ∧
      r.2 = { s.node with cursor := r.1.stack.length } := by
  simp only [split, Traced.result_bind, Traced.result_lift, Traced.result_emit] at hrun
  rw [hsuper, Except.ok_bind] at hrun
  obtain ⟨e, hprepare, hrun⟩ := exists_of_bind hrun
  obtain ⟨s, hsweep, hrun⟩ := exists_of_bind hrun
  rw [Traced.result_foldlM] at hsweep
  rw [Except.ok_bind] at hrun
  obtain ⟨node', hend, hrun⟩ := exists_of_bind hrun
  rw [sortRange_above _ d.stack s.found.reverse rfl] at hrun
  cases hrun
  have hlen : (d.stack ++ sortDescending s.found.reverse).length = (d.stack ++ s.found.reverse).length := by
    rw [List.length_append, (sortDescending_perm s.found.reverse).length_eq, ← List.length_append]
  unfold Node.setEnd at hend
  split_ifs at hend with hbase
  cases hend
  exact ⟨e, s, hprepare, hsweep, hlen ▸ hbase, rfl, by rw [hlen]⟩

/-- **A split** finds pieces, one for each class, and deals with them. Another split of the super-component under the
same assignment finds the same ones. -/
theorem split_pieces (hs : Setting f cls values comp) {d : Decomposer} {node : Node} {r : Decomposer × Node}
    (hfits : d.explorer.Fits f) (hsuper : d.superOf node = .ok comp) (hrun : (d.split node values).result = .ok r) :
    ∃ leaders pieces t, Leads f values comp (fun _ => False) comp.vars leaders ∧
      List.Forall₂ (IsPiece f values comp) leaders pieces ∧ Found f values comp (fun _ => False) pieces ∧
      Dealt d node comp pieces r t ∧
      ∀ (d' : Decomposer) (node' : Node) (r' : Decomposer × Node), d'.explorer.Fits f → d'.superOf node' = .ok comp →
        (d'.split node' values).result = .ok r' → ∃ t', Dealt d' node' comp pieces r' t' := by
  obtain ⟨e, s, hprepare, hsweep, hbase, hr, hnode⟩ := split_steps hsuper hrun
  obtain ⟨hbetween, -⟩ := (prepare_spec (E := AnyFault) hs hfits node.superIndex).get hprepare
  obtain ⟨leaders, pieces, hleads, hpieces, hfound, hserve, hpeers⟩ :=
    sweep_pieces hs (fun _ hv => hv) (s := ⟨e, d.store, node, [], 0⟩) hbetween hsweep
  refine ⟨leaders, pieces, s.tally, hleads, hpieces, hfound,
    ⟨hserve, by rw [hr], congrArg store hr, congrArg stack hr, hbase, hnode⟩, ?_⟩
  intro d' node' r' hfits' hsuper' hrun'
  obtain ⟨e', s', hprepare', hsweep', hbase', hr', hnode'⟩ := split_steps hsuper' hrun'
  have hpeer := prepare_agree (hfits'.adjacency.trans hfits.adjacency.symm) (hfits'.slots.trans hfits.slots.symm)
    node.superIndex node'.superIndex comp e e' hprepare hprepare'
  exact ⟨s'.tally, hpeers _ _ _ hpeer hsweep', by rw [hr'], congrArg store hr', congrArg stack hr', hbase',
    hnode'⟩

end Decomposer

end ModelCount
