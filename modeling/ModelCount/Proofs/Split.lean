/-
What a split pushes.

`split_spec` runs a whole split under any `SweepRule`. Without look-ups the rule is `Divided`: the classes taken so
far are the one-variable classes, each a factor 2, and the parts that were pushed. At the end these are all classes
of the candidates (`split_partition`).
-/
import Mathlib.Tactic
import ModelCount.Proofs.Branch
import ModelCount.Proofs.Entries
import ModelCount.Proofs.Order
import ModelCount.Proofs.Sweep

namespace ModelCount

open Formula Explorer

namespace Decomposer

/-! ## A split under a rule -/

variable {f : Formula} {cls : List (List Lit)} {values : Assignment} {comp : Component} {E : Fault → Prop}
  {Q : (Var → Prop) → Store → Node → List Component → Prop} {d : Decomposer} {node : Node}

/-- the result of a split whose sweep ended with the claimed set `C` -/
structure SplitInto (f : Formula) (values : Assignment) (comp : Component)
    (Q : (Var → Prop) → Store → Node → List Component → Prop) (d : Decomposer) (r : Decomposer × Node)
    (C : Var → Prop) (node' : Node) (found : List Component) : Prop where
  all : ∀ v, C v ↔ Candidate values comp v
  kept : Q C r.1.store node' found
  config : r.1.config = d.config
  explorer : r.1.explorer.Fits f
  stack : r.1.stack = d.stack ++ sortDescending found.reverse
  node : r.2 = { node' with cursor := r.1.stack.length }

/-- **A split under a rule.** All candidates are claimed, and what was found stands above the old stack. The cursor of a
node may not be set below its base, which is a fault unless the base is on the stack. -/
theorem split_spec (hs : Setting f cls values comp) (hrule : SweepRule E f values comp d.config.caching Q)
    (hscratch : d.explorer.Fits f) (hfull : d.explorer.Overfull f values comp → E .scoreFull)
    (hsuper : d.superOf node = .ok comp)
    (hbase : E .contract ∨ ∀ C store node found, Q C store node found → node.base ≤ d.stack.length)
    (h0 : Q (fun _ => False) d.store node []) :
    Ends E (d.split node values).result fun r => ∃ C node' found, SplitInto f values comp Q d r C node' found := by
  simp only [split, Traced.result_bind, Traced.result_lift, Traced.result_emit]
  apply Ends.bind_of_eq hsuper
  apply (prepare_spec hs hscratch node.superIndex).bind
  intro e hboth
  rcases hboth with ⟨he, hroom⟩
  apply (sweep_spec (Q := Q) hs hrule hfull (fun v hv => hv) ⟨he, hroom, h0⟩).bind
  intro s hex
  rcases hex with ⟨C, hswept, hall⟩
  rw [Except.ok_bind]
  have hend : Ends E (s.node.setEnd (d.stack ++ s.found.reverse).length)
      (· = { s.node with cursor := (d.stack ++ s.found.reverse).length }) := by
    unfold Node.setEnd
    split_ifs with hle
    · rfl
    · refine hbase.resolve_right fun hb => hle ?_
      have := hb C s.store s.node s.found hswept.kept
      rw [List.length_append]
      omega
  apply hend.bind
  intro node' heq
  subst heq
  apply Ends.bind_of_eq (sortRange_above _ d.stack s.found.reverse rfl)
  refine ⟨C, s.node, s.found, fun v => ⟨hswept.between.marked.claimedCandidate v, fun hv => hall v hv.1 hv⟩,
    hswept.kept, rfl, hswept.between.fits, rfl, ?_⟩
  simp [(sortDescending_perm s.found.reverse).length_eq]

/-! ## The classes of the candidates -/

/-- the classes of two or more candidates are the variable lists of `pushed`, each once and in the order of the
super-component; the variables of `alone` are the classes of one -/
structure IsPartition (f : Formula) (values : Assignment) (comp : Component) (pushed : List Component)
    (alone : List Var) : Prop where
  isClass : ∀ p ∈ pushed, ∃ v, Candidate values comp v ∧ ∀ w, w ∈ p.vars ↔ f.Connected values comp v w
  ordered : ∀ p ∈ pushed, p.vars.Sublist comp.vars
  several : ∀ p ∈ pushed, 2 ≤ p.vars.length
  once : (pushed.flatMap Component.vars).Nodup
  all : ∀ v w, Candidate values comp v → f.Connected values comp v w → w ≠ v → ∃ p ∈ pushed, v ∈ p.vars
  aloneOnce : alone.Nodup
  mem_alone : ∀ v, v ∈ alone ↔ Candidate values comp v ∧ ∀ w, f.Connected values comp v w → w = v

/-- the clauses of every component are the kept clauses that touch its class, in the order of the super-component -/
def ClausesMatch (f : Formula) (values : Assignment) (comp : Component) (pushed : List Component) : Prop :=
  ∀ p ∈ pushed, p.clauses.Sublist comp.clauses ∧
    ∀ c, c ∈ p.clauses ↔ f.Kept values comp c ∧ ∃ w ∈ f.varsOf c, w ∈ p.vars

/-- the variables of parts are candidates, and none is in two parts -/
theorem length_vars_le_of_parts {parts : List Component}
    (h : ∀ p ∈ parts, ∃ v signature, IsPart f values comp v p signature)
    (honce : (parts.flatMap Component.vars).Nodup) {K : Finset Var} (hK : ∀ w, Candidate values comp w → w ∈ K) :
    (parts.flatMap Component.vars).length ≤ K.card := by
  rw [← List.toFinset_card_of_nodup honce]
  refine Finset.card_le_card fun w hw => ?_
  obtain ⟨p, hp, hwp⟩ := List.mem_flatMap.1 (List.mem_toFinset.1 hw)
  obtain ⟨v, signature, hpart⟩ := h p hp
  exact hK w (((hpart.mem_vars w).1 hwp).candidate hpart.candidate)

/-- every part has a variable of its own -/
theorem length_le_of_parts {parts : List Component}
    (h : ∀ p ∈ parts, ∃ v signature, IsPart f values comp v p signature)
    (honce : (parts.flatMap Component.vars).Nodup) {K : Finset Var} (hK : ∀ w, Candidate values comp w → w ∈ K) :
    parts.length ≤ K.card := by
  have hlen : ∀ l : List Component, (∀ p ∈ l, 2 ≤ p.vars.length) → l.length ≤ (l.flatMap Component.vars).length := by
    intro l hl
    induction l with
    | nil => simp
    | cons p l ih =>
      rw [List.flatMap_cons, List.length_append, List.length_cons]
      have h1 := hl p (by simp)
      have h2 := ih fun q hq => hl q (List.mem_cons_of_mem _ hq)
      omega
  refine (hlen parts fun p hp => ?_).trans (length_vars_le_of_parts h honce hK)
  obtain ⟨v, signature, hpart⟩ := h p hp
  exact hpart.several

structure Divided (f : Formula) (values : Assignment) (comp : Component) (store₀ : Store) (node₀ : Node)
    (C : Var → Prop) (store : Store) (node : Node) (found : List Component) : Prop where
  live : store.has comp.id = true
  nextId : store.nextId = store₀.nextId + found.length
  parts : ∀ p ∈ found, ∃ v signature, IsPart f values comp v p signature
  once : (found.flatMap Component.vars).Nodup
  alone : ∃ alone : List Var, alone.Nodup ∧ (∀ v ∈ alone, ∀ w, f.Connected values comp v w → w = v) ∧
    (∀ w, C w ↔ w ∈ alone ∨ ∃ p ∈ found, w ∈ p.vars) ∧ node = (fun n => n.times 2)^[alone.length] node₀

/-- the faults of a split without look-ups: a score is full, where one can come to 2^32, or the last id is reached,
with fewer ids left than variables -/
def OutOfWords (f : Formula) (values : Assignment) (comp : Component) (d : Decomposer) (fault : Fault) : Prop :=
  (fault = .scoreFull ∧ d.explorer.Overfull f values comp) ∨
    ∃ next, fault = .idsSpent next ∧ 4294967295 ≤ next ∧ next ≤ d.store.nextId + comp.vars.length

variable {store₀ store : Store} {node₀ : Node} {C : Var → Prop} {found : List Component}

theorem Divided.start (hlive : store₀.has comp.id = true) :
    Divided f values comp store₀ node₀ (fun _ => False) store₀ node₀ [] :=
  ⟨hlive, rfl, by simp, by simp, [], by simp, by simp, by simp, rfl⟩

/-- a free variable that is alone -/
theorem Divided.single {v : Var} (hun : Unclaimed f values comp C v) (hone : ∀ w, f.Connected values comp v w → w = v)
    (h : Divided f values comp store₀ node₀ C store node found) :
    Divided f values comp store₀ node₀ (withClass f values comp C v) store (node.times 2) found := by
  obtain ⟨alone, hnodup, halone, hC, hnode⟩ := h.alone
  have hv : ¬ C v := hun.disjoint v Relation.ReflTransGen.refl
  refine ⟨h.live, h.nextId, h.parts, h.once, v :: alone, ?_, ?_, fun w => ?_, ?_⟩
  · exact List.nodup_cons.2 ⟨fun hm => hv ((hC v).2 (Or.inl hm)), hnodup⟩
  · intro u hu
    rcases List.mem_cons.1 hu with rfl | hu
    · exact hone
    · exact halone u hu
  · have hclass : f.Connected values comp v w ↔ w = v :=
      ⟨hone w, fun e => e ▸ Relation.ReflTransGen.refl⟩
    rw [withClass, hC, hclass, List.mem_cons, or_right_comm, or_comm (a := w ∈ alone)]
  · rw [hnode, List.length_cons, Function.iterate_succ_apply']

/-- a part that is pushed under a fresh entry -/
theorem Divided.push {v : Var} {part : Component} {signature : Signature} {store' : Store}
    (hun : Unclaimed f values comp C v) (hpart : IsPart f values comp v part signature)
    (h : Divided f values comp store₀ node₀ C store node found) (hlive : store'.has comp.id = true)
    (hnext : store'.nextId = store.nextId + 1) (id : EntryId) (hvars : comp.vars.Nodup) :
    Divided f values comp store₀ node₀ (withClass f values comp C v) store' node (part.withId id :: found) := by
  obtain ⟨alone, hnodup, halone, hC, hnode⟩ := h.alone
  refine ⟨hlive, by rw [hnext, h.nextId, List.length_cons]; omega, ?_, ?_, alone, hnodup, halone, fun w => ?_, hnode⟩
  · intro p hp
    rcases List.mem_cons.1 hp with rfl | hp
    · exact ⟨v, signature, hpart.withId id⟩
    · exact h.parts p hp
  · rw [List.flatMap_cons, Component.vars_withId]
    refine List.nodup_append.2 ⟨hpart.varsSublist.nodup hvars, h.once, fun w hw u hu hwu => ?_⟩
    obtain ⟨p, hp, hup⟩ := List.mem_flatMap.1 hu
    exact hun.disjoint w ((hpart.mem_vars w).1 hw) ((hC w).2 (Or.inr ⟨p, hp, hwu ▸ hup⟩))
  · rw [withClass, hC, ← hpart.mem_vars]
    simp only [List.mem_cons, exists_eq_or_imp, Component.vars_withId]
    rw [or_assoc, or_comm (b := w ∈ part.vars)]

theorem divided_rule (d : Decomposer) (node₀ : Node) (hvars : comp.vars.Nodup) :
    SweepRule (OutOfWords f values comp d) f values comp false (Divided f values comp d.store node₀) := by
  refine ⟨?_, ?_⟩
  · intro C store node found v hun hone h
    exact h.single hun hone
  · intro C store node found v part signature hun hpart h
    show Ends _ (Except.ok (false, store, node)) _
    simp only [Ends.ok_iff, Bool.false_eq_true, if_false]
    refine ((Store.mint_spec signature h.live).weaken ?_).mono ?_
    · intro fault hboth
      rcases hboth with ⟨rfl, hfull⟩
      refine Or.inr ⟨_, rfl, hfull, ?_⟩
      have hlen := length_le_of_parts h.parts h.once (K := comp.vars.toFinset) fun w hw => List.mem_toFinset.2 hw.1
      have hcard := List.toFinset_card_le comp.vars
      have := h.nextId
      omega
    · intro r hboth
      rcases r with ⟨id, store'⟩
      rcases hboth with ⟨-, hnext, -, hkeep⟩
      exact h.push hun hpart (hkeep _ h.live) hnext id hvars

/-- the end of a pass: all candidates are in a class, of one or of more -/
theorem Divided.isPartition (h : Divided f values comp store₀ node₀ C store node found)
    (hall : ∀ v, C v ↔ Candidate values comp v) {pushed : List Component} (hperm : pushed.Perm found) :
    ∃ alone, IsPartition f values comp pushed alone ∧ node = (fun n => n.times 2)^[alone.length] node₀ := by
  obtain ⟨alone, hnodup, halone, hC, hnode⟩ := h.alone
  have hmem : ∀ {p}, p ∈ pushed → p ∈ found := fun hp => hperm.mem_iff.1 hp
  refine ⟨alone, ⟨?_, ?_, ?_, ?_, ?_, hnodup, ?_⟩, hnode⟩
  · intro p hp
    obtain ⟨v, signature, hpart⟩ := h.parts p (hmem hp)
    exact ⟨v, hpart.candidate, hpart.mem_vars⟩
  · intro p hp
    obtain ⟨v, signature, hpart⟩ := h.parts p (hmem hp)
    exact hpart.varsSublist
  · intro p hp
    obtain ⟨v, signature, hpart⟩ := h.parts p (hmem hp)
    exact hpart.several
  · exact (hperm.flatMap_right _).nodup_iff.2 h.once
  · intro v w hv hconn hne
    rcases (hC v).1 ((hall v).2 hv) with ha | ⟨p, hp, hvp⟩
    · exact absurd (halone v ha w hconn) hne
    · exact ⟨p, hperm.mem_iff.2 hp, hvp⟩
  · intro v
    constructor
    · intro hv
      exact ⟨(hall v).1 ((hC v).2 (Or.inl hv)), halone v hv⟩
    · intro hboth
      rcases hboth with ⟨hv, hone⟩
      rcases (hC v).1 ((hall v).2 hv) with ha | ⟨p, hp, hvp⟩
      · exact ha
      · -- a part has a second variable, which would be connected to `v`
        obtain ⟨u, signature, hpart⟩ := h.parts p hp
        have huv := (hpart.mem_vars v).1 hvp
        have hsub : p.vars ⊆ [v] := fun w hw =>
          List.mem_singleton.2 (hone w (huv.symm.trans ((hpart.mem_vars w).1 hw)))
        have hlen := (((List.nodup_flatMap.1 h.once).1 p hp).subperm hsub).length_le
        have htwo := hpart.several
        simp only [List.length_singleton] at hlen
        omega

theorem Divided.clausesMatch (h : Divided f values comp store₀ node₀ C store node found)
    (hlonely : f.NoLonely values comp) {pushed : List Component} (hperm : pushed.Perm found) :
    ClausesMatch f values comp pushed := by
  intro p hp
  obtain ⟨v, signature, hpart⟩ := h.parts p (hperm.mem_iff.1 hp)
  exact ⟨hpart.clausesSublist, fun c =>
    ⟨fun hc => ⟨hpart.kept c hc, hpart.touches hlonely c hc⟩, fun hc => hpart.mem_clauses c hc.1 hc.2⟩⟩

/-- **Partition.** Without look-ups a split ends, unless a score or the ids run full. It pushes exactly the classes of
two or more candidates, gives the node one factor 2 for each class of one, and changes nothing else on the stack. If
no candidate of a kept clause is alone, the clauses pushed with a class are the kept clauses that touch it. -/
theorem split_partition {n : ℕ} {clauses : List (List ℤ)} (hn : n < 2147483648)
    (hf : Formula.ofClauses n clauses = .ok f) (hscratch : d.explorer.Fits f) (hcaching : d.config.caching = false)
    (hsuper : d.superOf node = .ok comp) (hlive : d.store.has comp.id = true)
    (hvars : comp.vars.Nodup ∧ ∀ v ∈ comp.vars, v.Within n)
    (hclauses : comp.clauses.Nodup ∧ ∀ c ∈ comp.clauses, c.Within f.numLong) (hbase : node.base ≤ d.stack.length)
    (hvalues : values.Fits n) :
    Ends (OutOfWords f values comp d) (d.split node values).result fun r => ∃ pushed alone,
      r.1.stack = d.stack ++ pushed ∧ IsPartition f values comp pushed alone ∧
      r.2 = { (fun n => n.times 2)^[alone.length] node with cursor := r.1.stack.length } ∧
      (f.NoLonely values comp → ClausesMatch f values comp pushed) := by
  obtain ⟨hnum, hstores⟩ := stores_of_ofClauses hn hf
  have hs : Setting f _ values comp := ⟨hstores, hnum ▸ hn, hnum ▸ hvalues, fun v hv => hnum ▸ hvars.2 v hv, hvars.1,
    hclauses.2, hclauses.1⟩
  refine (split_spec hs (hcaching ▸ divided_rule d node hvars.1) hscratch (fun hover => Or.inl ⟨rfl, hover⟩) hsuper
    (Or.inr ?_) (Divided.start hlive)).mono ?_
  · intro C store m found h
    obtain ⟨alone, -, -, -, hnode⟩ := h.alone
    rw [hnode, Node.base_iterate_times]
    exact hbase
  · intro r hex'
    rcases r with ⟨d', node'⟩
    rcases hex' with ⟨C, m, found, h⟩
    have hperm : (sortDescending found.reverse).Perm found :=
      (sortDescending_perm _).trans found.reverse_perm
    obtain ⟨alone, hpart, hnode⟩ := h.kept.isPartition h.all hperm
    exact ⟨_, alone, h.stack, hpart, by rw [h.node, hnode], fun hl => h.kept.clausesMatch hl hperm⟩

/-- a new decomposer that has taken a formula -/
def loaded (config : Config) (f : Formula) : Except Fault Decomposer := do
  let d ← new config
  (d.load f).result

/-- a formula leaves the words of a new decomposer to it, unless it is large itself -/
theorem loaded_words {config : Config} {d : Decomposer} (hload : loaded config f = .ok d)
    (hscores : f.numVars + f.numLong < 4294967296) (hids : comp.vars.length < 4294967293) (fault : Fault) :
    ¬ OutOfWords f values comp d fault := by
  obtain ⟨d₀, -, hload⟩ := exists_of_bind hload
  cases hload
  intro h
  rcases h with ⟨-, v, -, hfull⟩ | ⟨next, -, hlast, hle⟩
  · rw [scoreOf_ofFormula, ite_self] at hfull
    omega
  · have hnext : next ≤ 2 + comp.vars.length := hle
    omega

/-- three variables and one binary clause, split at the root -/
theorem split_partition_pair : ∃ f d, Formula.ofClauses 3 [[1, 2]] = .ok f ∧ loaded ⟨false, 0, 0⟩ f = .ok d ∧
    let root := (Component.whole ⟨3⟩ ⟨0⟩).withId .root
    ∃ r, (d.split (Node.start 1 2) (.empty 3)).result = .ok r ∧ ∃ pushed alone,
      r.1.stack = d.stack ++ pushed ∧ IsPartition f (.empty 3) root pushed alone ∧
      r.2 = { (fun n => n.times 2)^[alone.length] (Node.start 1 2) with cursor := r.1.stack.length } ∧
      (f.NoLonely (.empty 3) root → ClausesMatch f (.empty 3) root pushed) := by
  let f := (Formula.empty 3).addBinary (Lit.ofInt 1) (Lit.ofInt 2)
  have hf : Formula.ofClauses 3 [[1, 2]] = .ok f := rfl
  let root := (Component.whole ⟨3⟩ ⟨0⟩).withId .root
  obtain ⟨d, hload, hfits, hcaching, hsuper, hlive, hbase⟩ : ∃ d, loaded ⟨false, 0, 0⟩ f = .ok d ∧ d.explorer.Fits f ∧
      d.config.caching = false ∧ d.superOf (Node.start 1 2) = .ok root ∧ d.store.has root.id = true ∧
      (Node.start 1 2).base ≤ d.stack.length :=
    ⟨_, rfl, fits_ofFormula f, rfl, rfl, Store.has_root_plant, le_rfl⟩
  refine ⟨f, d, hf, hload, (split_partition (by decide) hf hfits hcaching hsuper hlive (by decide) (by decide) hbase
    (Assignment.fits_empty 3)).exists_ok ?_⟩
  exact loaded_words hload (by decide) (by decide)

end Decomposer

end ModelCount
