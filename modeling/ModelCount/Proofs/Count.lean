/-
The model counter is right.

A new counter is a state of a search in which all variables are free (`new_spec`). Propagation keeps the models
over all variables, the root is a valid node when it ends without a conflict, and solving it counts the models on the
variables that are left (`count_spec`). Hence the first count of a new counter is the number of total assignments
that satisfy all clauses, whatever the settings, eviction and branching rule (`count_correct`).
-/
import Mathlib.Tactic
import ModelCount.Proofs.Solve
import ModelCount.Proofs.Total

namespace ModelCount.Counter

open Formula Explorer

def root (f : Formula) : Component := (Component.whole f.maxVar f.maxClause).withId .root

/-- a counter with nothing on its stack but the root, and without values -/
structure Fresh (f : Formula) (c : Counter) : Prop extends Ready f c where
  empty : c.values = .empty f.numVars
  stack : c.decomposer.stack = [.empty, root f]
  key : ∃ signature, c.decomposer.store.key .root = some (signature, false)
  nextId : c.decomposer.store.nextId = 2

variable {f : Formula} {c : Counter}

theorem listed_root (f : Formula) : Listed f (root f) :=
  (listed_ofParts_range f.numVars f.numLong (Nat.le_refl _) (Nat.le_refl _)).withId .root

theorem mem_vars_root {v : Var} : v ∈ (root f).vars ↔ v.Within f.numVars := by
  rw [← mem_allVars, allVars, List.mem_toFinset]
  unfold root Component.whole
  rw [Component.vars_withId, Component.vars_ofParts]
  rfl

theorem mem_clauses_root {d : ClauseId} (hd : d.Within f.numLong) : d ∈ (root f).clauses := by
  unfold root Component.whole
  rw [Component.clauses_withId, Component.clauses_ofParts]
  have hlt : d.id - 1 < f.numLong := Nat.lt_of_lt_of_le (Nat.sub_lt hd.1 Nat.one_pos) hd.2
  refine List.mem_map.2 ⟨d.id - 1, List.mem_range.2 hlt, ?_⟩
  rw [Nat.sub_add_cancel hd.1]

/-- **A new counter** is made, whatever the settings. -/
theorem new_spec {n : ℕ} {clauses : List (List ℤ)} (hn : n < 2147483648) (hf : Formula.ofClauses n clauses = .ok f)
    (config : Config) (hbits : config.tableBits ≤ 31) :
    ∃ c, (new f clauses config).result = .ok c ∧ Fresh f c := by
  obtain ⟨rfl, hstores⟩ := stores_of_ofClauses hn hf
  obtain ⟨d, hd⟩ : ∃ d, Decomposer.new config = .ok d := by
    unfold Decomposer.new Store.empty
    rw [if_pos hbits]
    exact ⟨_, rfl⟩
  have hstore : ∀ (s : Store) signature, (s.plant signature).key .root = some (signature, false) := by
    intro s signature
    rw [Store.key, Store.get?_plant, if_pos rfl]
    rfl
  rw [new, Traced.result_bind, Traced.result_lift, hd, Except.ok_bind]
  refine ⟨_, rfl, ⟨hstores, hn, Assignment.fits_empty _, Assignment.numVars_empty _, fits_ofFormula f,
    Store.sound_plant _ _, Store.exact_plant _ _⟩, rfl, rfl, ⟨_, hstore _ _⟩, rfl⟩

/-- at the beginning the clauses are over the variables that are free, which are all -/
theorem Fresh.scope (h : Fresh f c) : Scope f c (allVars f.numVars) := by
  refine ⟨h.stores, h.small, h.fits, h.numVars, ?_, fun v hv => mem_allVars.1 hv, fun d hd _ => Or.inl ?_⟩
  · rw [h.empty]
    exact closed_allVars h.stores
  · have hproper := h.stores.proper_of_mem_clauses hd
    obtain ⟨l, hl⟩ := List.exists_mem_of_ne_nil d hproper.nonempty
    exact ⟨l, hl, mem_allVars.2 (hproper.within l hl)⟩

/-- when units are propagated, the root is a valid node -/
theorem valid_root {values : Assignment} {cls : List (List Lit)} (hf : f.Stores cls)
    (hprop : ∀ d ∈ f.clauses, Propagated values d) : ValidNode f values (root f) := by
  refine Decomposer.Isolated.validNode ⟨hprop, fun d hd _ _ l hl _ => ?_, fun d hd _ _ => mem_clauses_root hd⟩ hf
    (listed_root f)
  exact mem_vars_root.2 ((hf.proper_of_mem_clauses hd).within l hl)

/-- **Counting** from the beginning gives the number of models over all variables. -/
theorem count_spec (h : Fresh f c) :
    Ends (Spent (f.numVars + f.numLong) (2 ^ f.numVars + 2)) c.count.result
      fun r => r.1 = f.modelsOn (.empty f.numVars) (allVars f.numVars) := by
  obtain ⟨consistent, c', new, hrun, hg, hprop, hcount⟩ := h.scope.propagate_spec
  rw [h.empty] at hcount
  have hd : c'.decomposer = c.decomposer := by rw [hg.same]
  simp only [count, Traced.result_bind, Traced.result_quiet]
  rw [hrun, Except.ok_bind]
  cases consistent with
  | false =>
    rw [hcount]
    rfl
  | true =>
    have hready := h.grown hg
    have hstack : c'.decomposer.stack = [.empty, root f] := hd ▸ h.stack
    have hopen : Opened f c' (Node.start 1 2) (root f) :=
      ⟨by rw [hstack]; rfl, by decide, hd ▸ h.key, valid_root hready.stores (hprop rfl), by rw [hstack]; rfl, rfl⟩
    have hroot : c'.decomposer.rootNode = .ok (Node.start 1 2) := by
      rw [Decomposer.rootNode, hstack]
      rfl
    have hvars : freeIn c'.values (root f).vars.toFinset = freeIn c'.values (allVars f.numVars) := by
      congr 1
      ext v
      rw [List.mem_toFinset, mem_vars_root, mem_allVars]
    simp only [Bool.not_true, Bool.false_eq_true, if_false, Traced.result_bind, Traced.result_lift]
    have hids : c'.decomposer.store.nextId + 2 ^ (freeIn c'.values (root f).vars.toFinset).card ≤
        2 ^ f.numVars + 2 := by
      have hle : 2 ^ freeCount f.numVars c'.values ≤ 2 ^ f.numVars := Nat.pow_le_pow_right (by decide) freeCount_le
      rw [hvars, hd, h.nextId]
      unfold freeCount at hle
      omega
    rw [hroot, Except.ok_bind, hready.numVars]
    apply (solve_spec _ (f.numVars + 1) _ c' _ hready hopen (Nat.lt_succ_of_le freeCount_le) hids).bind
    intro r hboth
    rcases r with ⟨node, c''⟩
    rcases hboth with ⟨-, -, ⟨b, cursor, hnode, hb⟩, -⟩
    simp only at hnode
    subst hnode
    rw [hvars] at hb
    rw [hcount]
    exact hb

end Counter

open Counter

/-- **Correctness.** For a formula with less than 2^31 variables, whatever the settings, eviction and branching rule,
the first count of a new counter ends, with steps to spare in each of its loops, and is the number of total assignments
that satisfy all clauses, and thus what trying every assignment counts. Only a full score or the end of the ids can
prevent this: for the one there must be 2^32 variables and long clauses, for the other the next id must have come to the
last of its machine word, which takes more than 31 variables. -/
theorem count_correct {n : ℕ} {clauses : List (List ℤ)} {f : Formula} (hn : n < 2147483648)
    (hf : Formula.ofClauses n clauses = .ok f) (config : Config) (hbits : config.tableBits ≤ 31)
    (evicting lowestFirst : Bool) :
    Ends (Spent (n + f.numLong) (2 ^ n + 2)) (do
      let c ← Counter.new f clauses config
      Counter.count { c with evicting := evicting, lowestFirst := lowestFirst }).result fun r =>
        r.1 = Fintype.card { value : Fin n → Bool // Models.holds (Models.total value) clauses = true } ∧
        ∀ m, Models.bruteForce n clauses = .ok m → r.1 = m := by
  obtain ⟨c, hrun, hfresh⟩ := new_spec hn hf config hbits
  have hfresh' : Fresh f { c with evicting := evicting, lowestFirst := lowestFirst } :=
    ⟨⟨hfresh.stores, hfresh.small, hfresh.fits, hfresh.numVars, hfresh.decomposer⟩, hfresh.empty, hfresh.stack,
      hfresh.key, hfresh.nextId⟩
  have hnum := (Formula.stores_of_ofClauses hn hf).1
  rw [Traced.result_bind, hrun, Except.ok_bind]
  have hcount := count_spec hfresh'
  rw [hnum] at hcount
  refine hcount.mono fun r hr => ?_
  constructor
  · calc r.1
        = f.modelsOn (.empty n) (allVars n) := hr
      _ = Fintype.card { value : Fin n → Bool // Models.holds (Models.total value) clauses = true } :=
          (card_total hn hf).symm
  · intro m hm
    unfold Models.bruteForce at hm
    split_ifs at hm
    cases hm
    rw [hr, Models.count_eq hn hf]

/-- the count of one clause over two of three variables, with eviction -/
theorem count_correct_pair :
    3 < 2147483648 ∧ Config.standard.tableBits ≤ 31 ∧ ∃ f, Formula.ofClauses 3 [[1, 2]] = .ok f ∧
    ∃ r, (do
      let c ← Counter.new f [[1, 2]] .standard
      Counter.count { c with evicting := true, lowestFirst := false }).result = .ok r ∧ r.1 = 6 := by
  have hf : Formula.ofClauses 3 [[1, 2]] = .ok ((Formula.empty 3).addBinary (Lit.ofInt 1) (Lit.ofInt 2)) := rfl
  refine ⟨by decide, by decide, _, hf, ?_⟩
  obtain ⟨r, hrun, -, hr⟩ := (count_correct (by decide) hf .standard (by decide) true false).exists_ok
    (not_spent (by decide) (by decide))
  exact ⟨r, hrun, hr 6 (by rfl)⟩

end ModelCount
