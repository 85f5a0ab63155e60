/-
Solving a node.

While the components of a node are solved one after the other, the value of the branch times the numbers of models of
the components that still wait is the number of models of what is left of the super-component (`Running`). Splitting
establishes this (`findNext_fresh`), one component preserves it (`record_spec`), and the node is solved when none is
left or the branch is found unsatisfiable. By induction on the number of open decisions every node is solved
(`solve_spec`).
-/
import Mathlib.Tactic
import ModelCount.Proofs.Search

namespace ModelCount.Counter

open Formula Explorer

/-- a component that was pushed: its entry is held, its key is exact, and it is a valid node of free variables -/
structure Pending (f : Formula) (values : Assignment) (store : Store) (p : Component) : Prop where
  key : ∃ signature, store.key p.id = some (signature, false) ∧ signature.models f = f.modelsOn values p.vars.toFinset
  valid : ValidNode f values p
  free : ∀ v ∈ p.vars, values.Free v
  nonempty : p.vars ≠ []

def idsBelow (p : Component) : ℕ := 2 ^ p.vars.toFinset.card - 2

/-- the components `todo` of a node with `k` free variables, from the bottom up, still wait to be solved; there are ids
enough for them -/
structure Running (f : Formula) (c₀ : Counter) (node₀ : Node) (m k : ℕ) (todo : List Component) (node : Node)
    (c : Counter) : Prop where
  back : Back f c₀ c
  stack : ∃ solved, c.decomposer.stack = c₀.decomposer.stack ++ (todo ++ solved) ∧ todo ++ solved ≠ [] ∧
    ∀ p ∈ todo ++ solved, c₀.decomposer.store.nextId ≤ p.id.id
  pending : ∀ p ∈ todo, Pending f c₀.values c.decomposer.store p
  branch : ∃ b : Branch, b.Coherent ∧
    node = node₀.atCursor b (c₀.decomposer.stack.length + todo.length) ∧
    m = b.value * (todo.map fun p => f.modelsOn c₀.values p.vars.toFinset).prod
  ids : c.decomposer.store.nextId + (todo.map idsBelow).sum < c₀.decomposer.store.nextId + 2 ^ k

/-- the answer of a question for the next component, of which there are `parts` at most -/
def Found (f : Formula) (c₀ : Counter) (node₀ : Node) (m k parts : ℕ) (c : Counter) (r : Bool × Decomposer × Node) :
    Prop :=
  if r.1 then
    ∃ todo, todo ≠ [] ∧ todo.length ≤ parts ∧ Running f c₀ node₀ m k todo r.2.2 { c with decomposer := r.2.1 }
  else Solved f c₀ node₀ m k (r.2.2, { c with decomposer := r.2.1 })

variable {f : Formula} {c c₀ : Counter} {node node₀ : Node} {comp p : Component} {m k limit ids parts : ℕ}
  {todo : List Component}

theorem Running.spent (h : Running f c₀ node₀ m k todo node c) :
    c.decomposer.store.nextId < c₀.decomposer.store.nextId + 2 ^ k :=
  Nat.lt_of_le_of_lt (Nat.le_add_right _ _) h.ids

theorem Pending.lasts {values : Assignment} {s s' : Store} (h : Pending f values s p) (hl : Store.Lasts s s') :
    Pending f values s' p := by
  obtain ⟨signature, hkey, hmodels⟩ := h.key
  exact ⟨⟨signature, hl.held _ _ hkey, hmodels⟩, h.valid, h.free, h.nonempty⟩

/-! ## The ids a node gives out -/

/-- the entries of components with several variables each, and those below them, are less than `2 ^ k` if there are `k`
variables at most -/
theorem length_add_sum_idsBelow_lt {l : List Component} (hl : ∀ p ∈ l, 2 ≤ p.vars.length)
    (hd : ∀ p ∈ l, p.vars.Nodup) (hk : (l.flatMap Component.vars).length ≤ k) :
    l.length + (l.map idsBelow).sum < 2 ^ k := by
  refine Nat.lt_of_lt_of_le ?_ (Nat.pow_le_pow_right (by decide) hk)
  induction l with
  | nil => simp
  | cons p l ih =>
    have hrest := ih (fun q hq => hl q (List.mem_cons_of_mem _ hq)) (fun q hq => hd q (List.mem_cons_of_mem _ hq))
      ((by simp : (l.flatMap Component.vars).length ≤ ((p :: l).flatMap Component.vars).length).trans hk)
    have hcard : p.vars.toFinset.card = p.vars.length := List.toFinset_card_of_nodup (hd p (by simp))
    have htwo : 2 ^ 2 ≤ 2 ^ p.vars.length := Nat.pow_le_pow_right (by decide) (hl p (by simp))
    have hpos : 0 < 2 ^ (l.flatMap Component.vars).length := Nat.two_pow_pos _
    simp only [List.flatMap_cons, List.length_append, List.length_cons, List.map_cons, List.sum_cons, Nat.pow_add]
    rw [idsBelow, hcard]
    nlinarith [Nat.mul_le_mul htwo hpos, Nat.sub_add_cancel (by omega : 2 ≤ 2 ^ p.vars.length)]

/-! ## The next component -/

section Split

variable {r : Decomposer × Node} {pushed : List Component} {b : Branch}

/-- what a split pushes waits to be solved -/
theorem pending_of_split (h : Ready f c) (hopen : Opened f c node comp)
    (hsplit : Decomposer.SplitOf f c.values comp c.decomposer node r pushed b) {q : Component} (hq : q ∈ pushed) :
    Pending f c.values r.1.store q := by
  have hs := hopen.valid.setting h.stores h.small h.fits
  obtain ⟨signature, hrec⟩ := hsplit.parts q hq
  obtain ⟨v, hpart⟩ := hrec.isPart
  refine ⟨⟨signature, hrec.key, hpart.models_eq hs hopen.valid⟩, hopen.valid.of_isPart hs hpart, fun w hw => ?_, ?_⟩
  · exact (((hpart.mem_vars w).1 hw).candidate hpart.candidate).2
  · intro he
    have := hpart.several
    rw [he] at this
    exact absurd this (by decide)

/-- what a split pushes has entries of its own -/
theorem young_of_split (hsplit : Decomposer.SplitOf f c.values comp c.decomposer node r pushed b) {q : Component}
    (hq : q ∈ pushed) : c.decomposer.store.nextId ≤ q.id.id := by
  obtain ⟨signature, hrec⟩ := hsplit.parts q hq
  exact hrec.young

/-- a split changes the decomposer only -/
theorem back_of_split (h : Ready f c)
    (hsplit : Decomposer.SplitOf f c.values comp c.decomposer node r pushed b) :
    Back f c { c with decomposer := r.1 } :=
  Back.withDecomposer h ⟨hsplit.explorer, hsplit.sound, hsplit.keeps.exact h.decomposer.exact⟩
    (hsplit.keeps.mono fun _ _ => True.intro).lasts

/-- the cursor stands behind what a split pushes -/
theorem node_of_split (hsplit : Decomposer.SplitOf f c.values comp c.decomposer node r pushed b) :
    r.2 = node.atCursor b (c.decomposer.stack.length + pushed.length) := by
  rw [← List.length_append, ← hsplit.stack]
  exact hsplit.node

/-- the models a split component has are those of its branch times those of what is pushed -/
theorem models_of_split (hsplit : Decomposer.SplitOf f c.values comp c.decomposer node r pushed b) :
    f.modelsOn c.values (freeIn c.values comp.vars.toFinset) =
      b.value * (pushed.map fun p => f.modelsOn c.values p.vars.toFinset).prod :=
  hsplit.product (freeIn c.values comp.vars.toFinset) fun w => by
    rw [mem_freeIn, List.mem_toFinset]
    rfl

/-- there are ids left for all entries below what a split pushes -/
theorem ids_of_split {K : Finset Var} (hK : ∀ w, Candidate c.values comp w → w ∈ K)
    (hsplit : Decomposer.SplitOf f c.values comp c.decomposer node r pushed b) :
    r.1.store.nextId + (pushed.map idsBelow).sum < c.decomposer.store.nextId + 2 ^ K.card := by
  have hlt := length_add_sum_idsBelow_lt (fun q hq => hsplit.several hq) (List.nodup_flatMap.1 hsplit.once).1
    (Decomposer.length_vars_le_of_parts hsplit.isParts hsplit.once hK)
  have hnext : r.1.store.nextId = c.decomposer.store.nextId + pushed.length := hsplit.keeps.nextId
  omega

end Split

/-- **A fresh node** is split. -/
theorem findNext_fresh (h : Ready f c) (hopen : Opened f c node comp)
    (hids : c.decomposer.store.nextId + 2 ^ (freeIn c.values comp.vars.toFinset).card ≤ ids) :
    Ends (Spent (f.numVars + f.numLong) ids) (c.decomposer.findNext node c.values).result
      (Found f c node (f.modelsOn c.values (freeIn c.values comp.vars.toFinset))
        (freeIn c.values comp.vars.toFinset).card f.numVars c) := by
  have hs := hopen.valid.setting h.stores h.small h.fits
  have hK : ∀ w, Candidate c.values comp w → w ∈ freeIn c.values comp.vars.toFinset :=
    fun w hw => mem_freeIn.2 ⟨List.mem_toFinset.2 hw.1, hw.2⟩
  have hfew : (freeIn c.values comp.vars.toFinset).card < 2 ^ (freeIn c.values comp.vars.toFinset).card :=
    Nat.lt_two_pow_self
  have hwithin : (freeIn c.values comp.vars.toFinset).card ≤ f.numVars :=
    (Finset.card_filter_le _ _).trans ((List.toFinset_card_le _).trans (length_le_of_within hs.varsNodup hs.vars))
  have hlive := Store.Held.has hopen.key
  unfold Decomposer.findNext Decomposer.enumerate
  simp only [Traced.result_bind, Traced.result_lift]
  rw [require_pos (by rw [Node.foundUnsat, hopen.active]; rfl), Except.ok_bind, if_pos hopen.base.ge]
  refine (Decomposer.split_factored hs hopen.valid h.decomposer.explorer h.decomposer.sound h.decomposer.exact
    hopen.superOf hlive hopen.base.le hopen.active hK (by omega)).bind ?_
  intro r hex'
  rcases r with ⟨d, node'⟩
  rcases hex' with ⟨pushed, b, hsplit⟩
  have hback := back_of_split h hsplit
  have hyoung : ∀ q ∈ pushed, c.decomposer.store.nextId ≤ q.id.id := fun q hq => young_of_split hsplit hq
  have hprod := models_of_split hsplit
  have hstack : d.stack = c.decomposer.stack ++ pushed := hsplit.stack
  have hspent : d.store.nextId + (pushed.map idsBelow).sum <
      c.decomposer.store.nextId + 2 ^ (freeIn c.values comp.vars.toFinset).card := ids_of_split hK hsplit
  have hsolved : d.store.nextId < c.decomposer.store.nextId + 2 ^ (freeIn c.values comp.vars.toFinset).card := by
    omega
  obtain rfl : node' = _ := node_of_split hsplit
  simp only [Node.foundUnsat_atCursor, Node.hasUnprocessed_atCursor, hopen.base, decide_eq_true_eq]
  split_ifs with hunsat hmore
  · -- a count 0 was found
    refine ⟨hback, ⟨pushed, hstack, hyoung⟩, ⟨b, _, rfl, ?_⟩, hsolved⟩
    exact (hsplit.coherent.count_of_unsat hunsat _).trans hprod.symm
  · have hne : pushed ≠ [] := by
      intro heq
      subst heq
      exact Nat.lt_irrefl _ hmore
    refine ⟨pushed, hne, ?_, hback, ⟨[], by rw [List.append_nil]; exact hstack, by simpa using hne,
      by simpa using hyoung⟩, fun q hq => pending_of_split h hopen hsplit hq, ⟨b, hsplit.coherent, rfl, hprod⟩,
      hspent⟩
    exact (Decomposer.length_le_of_parts hsplit.isParts hsplit.once hK).trans hwithin
  · -- everything was free or known
    have hnil : pushed = [] := by
      rw [← List.length_eq_zero_iff]
      omega
    refine ⟨hback, ⟨pushed, hstack, hyoung⟩, ⟨b.times 1, _, Node.times_atCursor 1, ?_⟩, hsolved⟩
    calc (b.times 1).count
        = b.value := hsplit.coherent.count_times_one
      _ = b.value * (pushed.map fun p => f.modelsOn c.values p.vars.toFinset).prod := by
          rw [hnil, List.map_nil, List.prod_nil, Nat.mul_one]
      _ = _ := hprod.symm

/-- **A node that is running** goes on with what still waits. -/
theorem findNext_running (h : Running f c₀ node₀ m k todo node c) (hbase : node₀.base = c₀.decomposer.stack.length)
    (hopen : node.foundUnsat = false) (hparts : todo.length ≤ parts) :
    Ends (Spent (f.numVars + f.numLong) ids) (c.decomposer.findNext node c.values).result
      (Found f c₀ node₀ m k parts c) := by
  obtain ⟨solved, hstack, hne, hyoung⟩ := h.stack
  obtain ⟨b, hb, hnode, hm⟩ := h.branch
  have hsplit : ¬ c.decomposer.stack.length ≤ node.base := by
    rw [hnode, Node.base_atCursor, hbase, hstack, List.length_append]
    have := List.length_pos_of_ne_nil hne
    omega
  unfold Decomposer.findNext Decomposer.enumerate
  simp only [Traced.result_bind, Traced.result_lift]
  rw [require_pos hopen, Except.ok_bind, if_neg hsplit, Traced.result_pure, Except.ok_bind]
  simp only [hopen, Bool.false_eq_true, if_false]
  rw [hnode, Node.hasUnprocessed_atCursor, hbase]
  by_cases htodo : todo = []
  · rw [if_neg (by simp [htodo])]
    refine ⟨h.back, ⟨todo ++ solved, hstack, hyoung⟩, ⟨b.times 1, _, Node.times_atCursor 1, ?_⟩, h.spent⟩
    calc (b.times 1).count
        = b.value := hb.count_times_one
      _ = b.value * (todo.map fun p => f.modelsOn c₀.values p.vars.toFinset).prod := by
          rw [htodo, List.map_nil, List.prod_nil, Nat.mul_one]
      _ = m := hm.symm
  · have hpos := List.length_pos_of_ne_nil htodo
    rw [if_pos (by simpa using hpos)]
    exact ⟨todo, htodo, hparts, hnode ▸ h⟩

/-! ## One component after the other -/

theorem evict_spec (h : Ready f c) :
    ∃ c', c.evict.result = .ok c' ∧ Back f c c' ∧ c'.decomposer.store.nextId = c.decomposer.store.nextId ∧
      c'.decomposer.stack = c.decomposer.stack := by
  unfold evict
  split_ifs
  · obtain ⟨r, hrun, hready, hlasts, hnext, hstack⟩ := Decomposer.evict_spec h.decomposer
    refine ⟨{ c with decomposer := r.2 }, ?_, Back.withDecomposer h hready hlasts, hnext, hstack⟩
    rw [Traced.result_bind, hrun]
    rfl
  · exact ⟨c, rfl, Back.refl h, rfl, rfl⟩

/-- the component to solve next -/
theorem Running.waiting (h : Running f c₀ node₀ m k (todo ++ [p]) node c) (hindex : c₀.decomposer.stack ≠ []) :
    Waiting f c (c₀.decomposer.stack.length + todo.length) p := by
  obtain ⟨solved, hstack, -, -⟩ := h.stack
  have hp := h.pending p (by simp)
  obtain ⟨signature, hkey, -⟩ := hp.key
  have hvalues := h.back.values
  refine ⟨?_, ?_, ⟨signature, hkey⟩, hvalues ▸ hp.valid, hvalues ▸ hp.free, hp.nonempty⟩
  · rw [hstack, List.getElem?_append_right (by omega), Nat.add_sub_cancel_left]
    simp
  · have := List.length_pos_of_ne_nil hindex
    omega

/-- **One component is done.** Its count is attached and becomes a factor, and the cursor goes on. -/
theorem record_spec {c' : Counter} (h : Running f c₀ node₀ m k (todo ++ [p]) node c)
    (hbase : node₀.base = c₀.decomposer.stack.length) (hback : Back f c c')
    (hstack' : c'.decomposer.stack = c.decomposer.stack)
    (hids : c'.decomposer.store.nextId + 2 ≤ c.decomposer.store.nextId + 2 ^ p.vars.toFinset.card)
    (hindex : c₀.decomposer.stack ≠ []) :
    ∃ r, (record c' node (c₀.decomposer.stack.length + todo.length)
        (f.modelsOn c₀.values p.vars.toFinset)).result = .ok r ∧ Running f c₀ node₀ m k todo r.1 r.2 ∧
      r.2.decomposer.stack = c.decomposer.stack := by
  obtain ⟨solved, hstack, hne, hyoung⟩ := h.stack
  obtain ⟨b, hb, hnode, hm⟩ := h.branch
  obtain ⟨signature, hkey, hmodels⟩ := (h.pending p (by simp)).key
  have hplace := hstack' ▸ (h.waiting hindex).place
  obtain ⟨d, h1, h2, h3, hnext, h4⟩ := Decomposer.cacheCount_spec hback.ready.decomposer hplace
    (hback.lasts.held _ _ hkey) hmodels
  have hback' : Back f c { c' with decomposer := d } := hback.trans (Back.withDecomposer hback.ready h2 h3)
  obtain ⟨c'', k1, k2, hnext', k3⟩ := evict_spec hback'.ready
  have hback'' := hback'.trans k2
  have hlt : node₀.base < c₀.decomposer.stack.length + (todo ++ [p]).length := by
    rw [hbase, List.length_append, List.length_singleton]
    omega
  have hsame : c''.decomposer.stack = c.decomposer.stack := k3.trans (h4.trans hstack')
  refine ⟨(node₀.atCursor (b.times (f.modelsOn c₀.values p.vars.toFinset))
    (c₀.decomposer.stack.length + (todo ++ [p]).length - 1), c''), ?_, ⟨h.back.trans hback'', ⟨p :: solved, ?_, by simp,
    fun q hq => hyoung q (by simpa using hq)⟩, fun q hq => ?_, ⟨b.times (f.modelsOn c₀.values p.vars.toFinset),
    hb.times _, ?_, ?_⟩, ?_⟩, hsame⟩
  · simp only [record, Traced.result_bind, Traced.result_lift]
    rw [h1, Except.ok_bind, hnode, Node.times_atCursor, Node.next_atCursor hlt, Except.ok_bind, k1]
    rfl
  · rw [hsame, hstack, List.append_assoc]
    rfl
  · exact (h.pending q (List.mem_append_left _ hq)).lasts hback''.lasts
  · rw [List.length_append, List.length_singleton]
    rfl
  · calc m
        = b.value * ((todo ++ [p]).map fun p => f.modelsOn c₀.values p.vars.toFinset).prod := hm
      _ = b.value * ((todo.map fun p => f.modelsOn c₀.values p.vars.toFinset).prod *
            f.modelsOn c₀.values p.vars.toFinset) := by
          rw [List.map_append, List.prod_append, List.map_singleton, List.prod_singleton]
      _ = b.value * f.modelsOn c₀.values p.vars.toFinset *
            (todo.map fun p => f.modelsOn c₀.values p.vars.toFinset).prod := by ring
      _ = _ := by rw [Branch.value_times]
  · have hsum := h.ids
    rw [List.map_append, List.sum_append, List.map_singleton, List.sum_singleton, idsBelow] at hsum
    have hids' : c''.decomposer.store.nextId = c'.decomposer.store.nextId := hnext'.trans hnext
    rw [hids']
    omega

/-- **Abandoning a node** whose branch is found unsatisfiable: it counts 0, as there are no models. -/
theorem abandon_spec (h : Running f c₀ node₀ m k todo node c) (h₀ : Ready f c₀) (hopen : Opened f c₀ node₀ comp)
    (hunsat : node.foundUnsat = true) :
    ∃ d, c.decomposer.removePollutions node = .ok d ∧ Solved f c₀ node₀ m k (node, { c with decomposer := d }) := by
  obtain ⟨solved, hstack, -, hyoung⟩ := h.stack
  obtain ⟨b, hb, rfl, hm⟩ := h.branch
  obtain ⟨signature, hkey⟩ := hopen.key
  rw [Node.foundUnsat_atCursor] at hunsat
  have hlt : node₀.superIndex < c₀.decomposer.stack.length := (List.getElem?_eq_some_iff.1 hopen.super).1
  have hsuper : c.decomposer.stack[(node₀.atCursor b (c₀.decomposer.stack.length + todo.length)).superIndex]? =
      some comp := by
    rw [Node.superIndex_atCursor, hstack, List.getElem?_append_left hlt]
    exact hopen.super
  obtain ⟨d, hrun, hready, hkeeps, hdstack⟩ := Decomposer.removePollutions_spec h.back.ready.decomposer hstack
    (Node.base_atCursor.trans hopen.base) hyoung h₀.decomposer.two_le
    (by rw [Node.superIndex_atCursor]; exact hopen.index) (Decomposer.held_of_getElem? hsuper)
    (h.back.lasts.isHeld ⟨_, hkey⟩).has
  have hlasts := h.back.lasts.keeps h₀.decomposer.sound hkeeps
  refine ⟨d, hrun, ⟨⟨h.back.ready.stores, h₀.small, h.back.ready.fits, h.back.ready.numVars, hready⟩, h.back.values,
    h.back.trail, hlasts⟩, ⟨todo ++ solved, hdstack.trans hstack, hyoung⟩, ⟨b, _, rfl, ?_⟩, ?_⟩
  · exact (hb.count_of_unsat hunsat _).trans hm.symm
  · exact hkeeps.nextId.trans_lt h.spent

theorem Running.current_eq (h : Running f c₀ node₀ m k (todo ++ [p]) node c)
    (hbase : node₀.base = c₀.decomposer.stack.length) :
    node.current = .ok (c₀.decomposer.stack.length + todo.length) := by
  obtain ⟨b, -, rfl, -⟩ := h.branch
  rw [Node.current_atCursor (by rw [hbase, List.length_append, List.length_singleton]; omega), List.length_append,
    List.length_singleton]
  rfl

/-- **The loop.** If the next component is found as it should, the node gets solved. -/
theorem solveWith_spec {count : ℕ → Counter → Traced (ℕ × Counter)} (hcount : Counts f ids limit count)
    (hopen : Opened f c₀ node₀ comp) (h₀ : Ready f c₀) (hlimit : freeCount f.numVars c₀.values < limit)
    (hids : c₀.decomposer.store.nextId + 2 ^ k ≤ ids)
    (hnext : Ends (Spent (f.numVars + f.numLong) ids) (c.decomposer.findNext node c.values).result
      (Found f c₀ node₀ m k parts c)) :
    Ends (Spent (f.numVars + f.numLong) ids) (solveWith count (parts + 1) node c).result (Solved f c₀ node₀ m k) := by
  have hindex : c₀.decomposer.stack ≠ [] := by
    intro he
    have := hopen.super
    rw [he] at this
    cases this
  induction parts generalizing node c with
  | zero =>
    rw [solveWith, Traced.result_bind]
    apply hnext.bind
    intro r hfound
    rcases r with ⟨found, d, node'⟩
    cases found with
    | false => exact hfound
    | true =>
      obtain ⟨todo, hne, hlen, -⟩ := hfound
      exact absurd (List.length_eq_zero_iff.1 (Nat.le_zero.1 hlen)) hne
  | succ parts ih =>
    rw [solveWith, Traced.result_bind]
    apply hnext.bind
    intro r hfound
    rcases r with ⟨found, d, node'⟩
    cases found with
    | false => exact hfound
    | true =>
      obtain ⟨todo', hne, hlen, hrunning⟩ := hfound
      obtain ⟨todo, p, rfl⟩ := (List.eq_nil_or_concat todo').resolve_left hne
      rw [List.concat_eq_append] at hrunning hlen
      have hvalues := hrunning.back.values
      simp only [Bool.not_true, Bool.false_eq_true, if_false, Traced.result_bind, Traced.result_lift]
      rw [hrunning.current_eq hopen.base, Except.ok_bind]
      have hneed := hrunning.ids
      rw [List.map_append, List.sum_append, List.map_singleton, List.sum_singleton, idsBelow] at hneed
      apply Ends.bind (hcount _ _ p hrunning.back.ready (hrunning.waiting hindex) (by rw [hvalues]; exact hlimit)
        (by omega))
      intro r hboth
      rcases r with ⟨count, c1⟩
      rcases hboth with ⟨heq, hback, hstack, hfew⟩
      simp only at heq
      rw [hvalues] at heq
      subst heq
      obtain ⟨⟨node2, c2⟩, hrecord, hrunning', -⟩ := record_spec hrunning hopen.base hback hstack hfew hindex
      rw [hrecord, Except.ok_bind]
      simp only
      split_ifs with hunsat
      · obtain ⟨d2, hrun, hsolved⟩ := abandon_spec hrunning' h₀ hopen hunsat
        simp only [Traced.result_bind, Traced.result_lift]
        rw [hrun]
        exact hsolved
      · refine ih (findNext_running hrunning' hopen.base (by simpa using hunsat) ?_)
        rw [List.length_append, List.length_singleton] at hlen
        omega

/-- **Every node is solved**, with more open decisions allowed than there are free variables. -/
theorem solve_spec (ids depth : ℕ) : Solves f ids depth (solve depth) := by
  induction depth with
  | zero => exact fun _ _ _ _ _ hlimit => absurd hlimit (Nat.not_lt_zero _)
  | succ depth ih =>
    intro node c comp h hopen hlimit hids
    rw [solve, h.numVars]
    exact solveWith_spec (countWith_spec ih) hopen h hlimit hids (findNext_fresh h hopen hids)

end ModelCount.Counter
