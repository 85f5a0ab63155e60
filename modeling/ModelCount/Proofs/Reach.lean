/-
The states a decomposer can reach.

Whatever operations are called after a formula was taken, in whatever order and with whatever nodes, assignments and
counts, as long as none meets a fault: the links are those of the formula, the store is sound, and every component on
the stack lists variables and clauses of the formula in ascending order (`Reachable.kempt`). That is all the product
law asks of a state (`split_product`).
-/
import Mathlib.Tactic
import ModelCount.Proofs.Product

namespace ModelCount

open Formula Explorer

structure Listed (f : Formula) (comp : Component) : Prop where
  vars : ∀ v ∈ comp.vars, v.Within f.numVars
  varsAscending : comp.vars.Pairwise fun v w => v.id < w.id
  clauses : ∀ c ∈ comp.clauses, c.Within f.numLong
  clausesAscending : comp.clauses.Pairwise fun c d => c.id < d.id

variable {f : Formula} {cls : List (List Lit)} {values : Assignment} {comp part : Component} {v : Var}
  {signature : Signature}

theorem listed_ofParts_range (n m : ℕ) (hn : n ≤ f.numVars) (hm : m ≤ f.numLong) :
    Listed f (.ofParts ((List.range n).map fun i => ⟨i + 1⟩) ((List.range m).map fun i => ⟨i + 1⟩)) := by
  have hrange : ∀ k, (List.range k).Pairwise fun i j => i + 1 < j + 1 := fun k =>
    List.pairwise_lt_range.imp fun h => Nat.succ_lt_succ h
  refine ⟨fun v hv => ?_, ?_, fun c hc => ?_, ?_⟩
  · rw [Component.vars_ofParts] at hv
    obtain ⟨i, hi, rfl⟩ := List.mem_map.1 hv
    have := List.mem_range.1 hi
    exact ⟨Nat.succ_le_succ (Nat.zero_le i), by show i + 1 ≤ _; omega⟩
  · rw [Component.vars_ofParts, List.pairwise_map]
    exact hrange n
  · rw [Component.clauses_ofParts] at hc
    obtain ⟨i, hi, rfl⟩ := List.mem_map.1 hc
    have := List.mem_range.1 hi
    exact ⟨Nat.succ_le_succ (Nat.zero_le i), by show i + 1 ≤ _; omega⟩
  · rw [Component.clauses_ofParts, List.pairwise_map]
    exact hrange m

theorem Listed.withId (h : Listed f comp) (id : EntryId) : Listed f (comp.withId id) :=
  ⟨h.vars, h.varsAscending, h.clauses, h.clausesAscending⟩

theorem Listed.setting (h : Listed f comp) (hf : f.Stores cls) (hn : f.numVars < 2147483648)
    (hv : values.Fits f.numVars) : Setting f cls values comp :=
  ⟨hf, hn, hv, h.vars, nodup_of_ascending h.varsAscending, h.clauses, nodup_of_ascending h.clausesAscending⟩

/-- a part lists its members in the order of the super-component -/
theorem Listed.of_isPart (h : Listed f comp) (hpart : IsPart f values comp v part signature) : Listed f part :=
  ⟨fun v hv => h.vars v (hpart.varsSublist.subset hv), h.varsAscending.sublist hpart.varsSublist,
    fun c hc => h.clauses c (hpart.clausesSublist.subset hc), h.clausesAscending.sublist hpart.clausesSublist⟩

namespace Decomposer

/-! ## What every operation keeps -/

/-- the links are those of the formula, the store is sound, and the components list members in order -/
structure Kempt (f : Formula) (d : Decomposer) : Prop where
  explorer : d.explorer.Fits f
  store : d.store.Sound
  stack : ∀ comp ∈ d.stack, Listed f comp

variable {d d' : Decomposer} {node : Node}

theorem load_kempt (d : Decomposer) (f : Formula) : Ends AnyFault (d.load f).result (Kempt f) := by
  refine ⟨fits_ofFormula f, Store.sound_plant _ _, fun comp hc => ?_⟩
  simp only [List.mem_cons, List.not_mem_nil, or_false] at hc
  rcases hc with rfl | rfl
  · exact listed_ofParts_range 0 0 (Nat.zero_le _) (Nat.zero_le _)
  · exact (listed_ofParts_range f.numVars f.numLong (Nat.le_refl _) (Nat.le_refl _)).withId .root

theorem held_eq {index : ℕ} (h : d.held index = .ok comp) : d.stack[index]? = some comp := by
  unfold held at h
  split at h
  · next heq => cases h; exact heq
  · cases h

/-- a pass keeps the store sound and finds components in order, whatever counts it meets -/
theorem kempt_rule (hcomp : Listed f comp) (caching : Bool) :
    SweepRule AnyFault f values comp caching fun _ store _ found => store.Sound ∧ ∀ p ∈ found, Listed f p := by
  refine ⟨fun _ _ _ _ _ _ _ h => h, fun C store node found v part signature _ hpart h => ?_⟩
  have hmint : ∀ store' : Store, store'.Sound → Ends AnyFault (store'.mint signature comp.id) fun t =>
      t.2.Sound ∧ ∀ p ∈ part.withId t.1 :: found, Listed f p := by
    intro store' hsound
    by_cases hlive : store'.has comp.id = true
    · apply (hsound.mint_spec hlive signature).any.mono
      intro r hboth
      rcases r with ⟨id, store''⟩
      rcases hboth with ⟨-, hsound', -⟩
      refine ⟨hsound', fun p hp => ?_⟩
      rcases List.mem_cons.1 hp with rfl | hp
      · exact (hcomp.of_isPart hpart).withId id
      · exact h.2 p hp
    · unfold Store.mint require
      rw [if_neg hlive]
      exact True.intro
  cases caching with
  | false => exact hmint store h.1
  | true =>
    show Ends _ (store.lookup node signature) _
    rcases Store.lookup_spec h.1.chained node signature with ⟨count, i, e, -, -, -, hrun⟩ | hrun
    · rw [hrun]
      exact ⟨h.1.of_same rfl rfl rfl rfl rfl, h.2⟩
    · rw [hrun]
      exact hmint _ (h.1.of_same rfl rfl rfl rfl rfl)

theorem split_kempt (hf : f.Stores cls) (hn : f.numVars < 2147483648) (hv : values.Fits f.numVars) (h : Kempt f d)
    (node : Node) : Ends AnyFault (d.split node values).result fun r => Kempt f r.1 := by
  cases hsuper : d.superOf node with
  | error fault =>
    rw [split, Traced.result_bind, Traced.result_lift, hsuper]
    exact True.intro
  | ok comp =>
    have hcomp := h.stack comp (List.mem_of_getElem? (held_eq hsuper))
    refine (split_spec (hcomp.setting hf hn hv) (kempt_rule hcomp d.config.caching) h.explorer (fun _ => True.intro)
      hsuper (Or.inl True.intro) ⟨h.store, by simp⟩).mono ?_
    intro r hex'
    rcases r with ⟨d', node'⟩
    rcases hex' with ⟨C, m, found, hr⟩
    refine ⟨hr.explorer, hr.kept.1, fun p hp => ?_⟩
    rw [hr.stack, List.mem_append, (sortDescending_perm _).mem_iff, List.mem_reverse] at hp
    rcases hp with hp | hp
    · exact h.stack p hp
    · exact hr.kept.2 p hp

theorem findNext_kempt (hf : f.Stores cls) (hn : f.numVars < 2147483648) (hv : values.Fits f.numVars) (h : Kempt f d)
    (node : Node) : Ends AnyFault (d.findNext node values).result fun r => Kempt f r.2.1 := by
  have henum : Ends AnyFault (d.enumerate node values).result fun r => Kempt f r.1 := by
    unfold enumerate
    split_ifs
    · exact split_kempt hf hn hv h node
    · exact h
  simp only [findNext, Traced.result_bind, Traced.result_lift]
  refine (Ends.anything _).bind fun _ _ => henum.bind ?_
  intro r hd'
  rcases r with ⟨d', node'⟩
  simp only
  split_ifs <;> exact hd'

theorem cacheCount_kempt (h : Kempt f d) (index count : ℕ) :
    Ends AnyFault (d.cacheCount index count).result (Kempt f) := by
  unfold cacheCount
  split_ifs
  · simp only [Traced.result_bind, Traced.result_lift]
    refine (Ends.anything _).bind fun comp _ => ?_
    cases hget : d.store.get? comp.id with
    | none =>
      rw [Store.attach_gone h.store.chained (fun _ _ he => h.store.ne_none he) hget]
      exact True.intro
    | some e =>
      obtain ⟨store, hrun, hsound, -⟩ := Store.attach_exact h.store (Store.key_eq hget) count
      rw [hrun]
      exact ⟨h.explorer, hsound, h.stack⟩
  · exact h

theorem sortRange_kempt (h : Kempt f d) (start stop : ℕ) : Ends AnyFault (d.sortRange start stop) (Kempt f) := by
  unfold sortRange
  split_ifs
  · refine ⟨h.explorer, h.store, fun comp hc => h.stack comp ?_⟩
    simp only [List.mem_append, (ordered_perm _).mem_iff] at hc
    rcases hc with (hc | hc) | hc
    · exact List.mem_of_mem_take hc
    · exact List.mem_of_mem_take (List.mem_of_mem_drop hc)
    · exact List.mem_of_mem_drop hc
  · exact True.intro

theorem clean_kempt (h : Kempt f d) (node : Node) : Ends AnyFault (d.clean node) (Kempt f) := by
  unfold clean
  refine (Ends.anything _).bind fun _ _ => ?_
  refine (Ends.foldlM_state Store.Sound h.store fun comp _ s hs => ?_).bind fun store hstore => ?_
  · unfold flagLeft
    split_ifs with hlive
    · obtain ⟨s', hrun, hsound, -⟩ := Store.setDeletable_keeps hs hlive
      rw [hrun]
      exact hsound
    · exact hs
  · exact ⟨h.explorer, hstore, fun comp hc => h.stack comp (List.mem_of_mem_take hc)⟩

theorem removePollutions_kempt (h : Kempt f d) (node : Node) : Ends AnyFault (d.removePollutions node) (Kempt f) := by
  unfold removePollutions
  refine (Ends.anything _).bind fun _ _ => (Ends.anything _).bind fun _ _ => ?_
  refine (Ends.anything _).bind fun _ _ => (Ends.anything _).bind fun _ _ => ?_
  refine (Ends.foldlM_state Store.Sound h.store fun comp _ s hs => ?_).bind fun store hstore =>
    ⟨h.explorer, hstore, h.stack⟩
  unfold eraseLeft
  split_ifs with hlive
  · by_cases hroot : comp.id = .root
    · rw [hroot, Store.eraseBelow_root hs]
      exact True.intro
    · obtain ⟨s', hrun, hsound, -⟩ := Store.eraseBelow_keeps hs hlive hroot
      rw [hrun]
      exact hsound
  · exact hs

/-- eviction concerns the store only -/
theorem evict_eq {erased : ℕ} {store : Store} (h : (d.store.evict d.config.budget).result = .ok (erased, store)) :
    d.evict.result = .ok (erased, { d with store := store }) := by
  rw [evict, Traced.result_bind, h]
  rfl

theorem evict_kempt (h : Kempt f d) : Ends AnyFault d.evict.result fun r => Kempt f r.2 := by
  obtain ⟨r, hrun, hsound, -⟩ := Store.evict_spec h.store d.config.budget
  rw [evict_eq hrun]
  exact ⟨h.explorer, hsound, h.stack⟩

/-! ## Reachable states -/

/-- the states after any operations that meet no fault, from the taking of a formula on -/
inductive Reachable (f : Formula) : Decomposer → Prop where
  | load {d d' : Decomposer} : (d.load f).result = .ok d' → Reachable f d'
  | findNext {d : Decomposer} {node : Node} {values : Assignment} {r : Bool × Decomposer × Node} : Reachable f d →
      values.Fits f.numVars → (d.findNext node values).result = .ok r → Reachable f r.2.1
  | split {d : Decomposer} {node : Node} {values : Assignment} {r : Decomposer × Node} : Reachable f d →
      values.Fits f.numVars → (d.split node values).result = .ok r → Reachable f r.1
  | cacheCount {d d' : Decomposer} {index count : ℕ} : Reachable f d → (d.cacheCount index count).result = .ok d' →
      Reachable f d'
  | sortRange {d d' : Decomposer} {start stop : ℕ} : Reachable f d → d.sortRange start stop = .ok d' → Reachable f d'
  | clean {d d' : Decomposer} {node : Node} : Reachable f d → d.clean node = .ok d' → Reachable f d'
  | removePollutions {d d' : Decomposer} {node : Node} : Reachable f d → d.removePollutions node = .ok d' →
      Reachable f d'
  | refresh {d : Decomposer} : Reachable f d → Reachable f d.refresh
  | evict {d : Decomposer} {r : ℕ × Decomposer} : Reachable f d → d.evict.result = .ok r → Reachable f r.2

theorem Reachable.of_loaded {config : Config} (h : loaded config f = .ok d) : Reachable f d := by
  obtain ⟨d₀, -, hload⟩ := exists_of_bind h
  exact .load hload

/-- **Reachable states are kempt.** -/
theorem Reachable.kempt (hf : f.Stores cls) (hn : f.numVars < 2147483648) (h : Reachable f d) : Kempt f d := by
  induction h with
  | load hrun => exact (load_kempt _ f).get hrun
  | findNext _ hv hrun ih => exact (findNext_kempt hf hn hv ih _).get hrun
  | split _ hv hrun ih => exact (split_kempt hf hn hv ih _).get hrun
  | cacheCount _ hrun ih => exact (cacheCount_kempt ih _ _).get hrun
  | sortRange _ hrun ih => exact (sortRange_kempt ih _ _).get hrun
  | clean _ hrun ih => exact (clean_kempt ih _).get hrun
  | removePollutions _ hrun ih => exact (removePollutions_kempt ih _).get hrun
  | refresh _ ih => exact ⟨ih.explorer, ih.store.refresh, ih.stack⟩
  | evict _ hrun ih => exact (evict_kempt ih).get hrun

/-! ## The product law -/

/-- units are propagated, and no unsatisfied clause that touches a free variable of the super-component leaves it -/
structure Isolated (f : Formula) (values : Assignment) (comp : Component) : Prop where
  propagated : ∀ c ∈ f.clauses, Propagated values c
  closed : ∀ c ∈ f.clauses, Unsatisfied values c → (∃ l ∈ c, Candidate values comp l.var) →
    ∀ l ∈ c, values.Free l.var → l.var ∈ comp.vars
  listed : ∀ c : ClauseId, c.Within f.numLong → Unsatisfied values (f.literals c) →
    (∃ l ∈ f.literals c, Candidate values comp l.var) → c ∈ comp.clauses

theorem Isolated.validNode (h : Isolated f values comp) (hf : f.Stores cls) (hcomp : Listed f comp) :
    ValidNode f values comp where
  propagated := h.propagated
  vars := hcomp.vars
  varsAscending := hcomp.varsAscending
  clauses := hcomp.clauses
  clausesAscending := hcomp.clausesAscending
  binary := fun c hc => h.closed c (binary_mem_clauses hc)
  long := fun c hc hu ht => ⟨h.listed c hc hu ht, h.closed _ (hf.literals_mem_clauses hc) hu ht⟩

/-- **Product law.** Take a reachable state in which all counts are exact and an isolated super-component on the stack
with a live entry, and split a node of it that has no factor yet. Unless there are 2^32 variables and clauses or no ids
left, the number of models of what is left of the formula on the free variables of the super-component is the value of
the branch times the numbers of models of what is left on the components that are pushed. -/
theorem split_product {n : ℕ} {clauses : List (List ℤ)} (hn : n < 2147483648)
    (hf : Formula.ofClauses n clauses = .ok f) (hreach : Reachable f d) (hvalues : values.Fits n)
    (hsuper : d.superOf node = .ok comp) (hlive : d.store.has comp.id = true) (hnode : Isolated f values comp)
    (hbase : node.base ≤ d.stack.length) (hactive : node.active = .start) (hexact : d.store.Exact f) :
    Ends (Spent (n + f.numLong) (d.store.nextId + comp.vars.length + 1)) (d.split node values).result fun r =>
      ∃ pushed, r.1.stack = d.stack ++ pushed ∧
      f.modelsOn values (comp.vars.toFinset.filter fun v => values.Free v) =
        r.2.active.value * (pushed.map fun p => f.modelsOn values p.vars.toFinset).prod := by
  obtain ⟨rfl, hstores⟩ := stores_of_ofClauses hn hf
  have hkempt := hreach.kempt hstores hn
  have hcomp := hkempt.stack comp (List.mem_of_getElem? (held_eq hsuper))
  refine (split_factored (hcomp.setting hstores hn hvalues) (hnode.validNode hstores hcomp) hkempt.explorer
    hkempt.store hexact hsuper hlive hbase hactive (fun w hw => List.mem_toFinset.2 hw.1)
    (Nat.lt_succ_of_le (Nat.add_le_add_left (List.toFinset_card_le comp.vars) _))).mono ?_
  intro r hex'
  rcases r with ⟨d', node'⟩
  rcases hex' with ⟨pushed, b, h⟩
  refine ⟨pushed, h.stack, ?_⟩
  have hb : node'.active = b := by
    rw [show node' = _ from h.node]
    exact Node.active_atCursor
  rw [hb]
  refine h.product _ fun w => ?_
  rw [Finset.mem_filter, List.mem_toFinset]
  rfl

/-- three variables and one binary clause, split at the root: the factor 2 of the free variable and 3 models left -/
theorem split_product_pair : ∃ f d, Formula.ofClauses 3 [[1, 2]] = .ok f ∧ loaded .standard f = .ok d ∧ Reachable f d ∧
    let root := (Component.whole ⟨3⟩ ⟨0⟩).withId .root
    ∃ r, (d.split (Node.start 1 2) (.empty 3)).result = .ok r ∧ ∃ pushed, r.1.stack = d.stack ++ pushed ∧
      f.modelsOn (.empty 3) (root.vars.toFinset.filter fun v => (Assignment.empty 3).Free v) =
        r.2.active.value * (pushed.map fun p => f.modelsOn (.empty 3) p.vars.toFinset).prod := by
  let f := (Formula.empty 3).addBinary (Lit.ofInt 1) (Lit.ofInt 2)
  have hf : Formula.ofClauses 3 [[1, 2]] = .ok f := rfl
  let root := (Component.whole ⟨3⟩ ⟨0⟩).withId .root
  obtain ⟨d, hload, hsuper, hlive, hbase, hnext, hexact⟩ : ∃ d, loaded .standard f = .ok d ∧
      d.superOf (Node.start 1 2) = .ok root ∧ d.store.has root.id = true ∧ (Node.start 1 2).base ≤ d.stack.length ∧
      d.store.nextId = 2 ∧ d.store.Exact f :=
    ⟨_, rfl, rfl, Store.has_root_plant, le_rfl, rfl, Store.exact_plant _ _⟩
  have hlong : ∀ c : ClauseId, ¬ c.Within 0 := fun c hc => absurd (hc.1.trans hc.2) (by decide)
  have hnode : Isolated f (.empty 3) root := ⟨by decide, by decide, fun c hc => absurd hc (hlong c)⟩
  have hreach := Reachable.of_loaded hload
  refine ⟨f, d, hf, hload, hreach, (split_product (by decide) hf hreach (Assignment.fits_empty 3) hsuper hlive hnode
    hbase rfl hexact).exists_ok ?_⟩
  rw [hnext]
  exact not_spent (by decide) (by decide)

end Decomposer

end ModelCount
