/-
Counting one component.

A component that waits on the stack is a valid node of its own (`Waiting`). Counting it means to decide one of its
variables both ways; after each decision the values are propagated, the rest of the component is solved as a node of
the search (`Opened`, `Solved`), and the search comes back to where it was (`Back`). The numbers of models of the two
branches add up to that of the component (`countWith_spec`). A node with `k` free variables gives out less than `2 ^ k`
ids, since each of its two branches has a free variable less.
-/
import Mathlib.Tactic
import ModelCount.Proofs.Branching
import ModelCount.Proofs.Slices

namespace ModelCount.Counter

open Formula Explorer

/-! ## States of the search -/

/-- a state of a search for the formula -/
structure Ready (f : Formula) (c : Counter) : Prop where
  stores : f.Stores c.clauses
  small : f.numVars < 2147483648
  fits : c.values.Fits f.numVars
  numVars : c.values.numVars = f.numVars
  decomposer : c.decomposer.Ready f

/-- the search has come back from `c` to `c'`: the same values, and all that was held is held still -/
structure Back (f : Formula) (c c' : Counter) : Prop where
  ready : Ready f c'
  values : c'.values = c.values
  trail : c'.trail = c.trail
  lasts : Store.Lasts c.decomposer.store c'.decomposer.store

/-- a node whose super-component is valid and held, with nothing of it on the stack and no factor yet -/
structure Opened (f : Formula) (c : Counter) (node : Node) (comp : Component) : Prop where
  super : c.decomposer.stack[node.superIndex]? = some comp
  index : node.superIndex ≠ 0
  key : ∃ signature, c.decomposer.store.key comp.id = some (signature, false)
  valid : ValidNode f c.values comp
  base : node.base = c.decomposer.stack.length
  active : node.active = .start

/-- a node with `k` free variables is solved: its active branch counts `m`, what it pushed is younger than what was
there, and less than `2 ^ k` ids were given out -/
structure Solved (f : Formula) (c : Counter) (node : Node) (m k : ℕ) (r : Node × Counter) : Prop where
  back : Back f c r.2
  stack : ∃ pushed, r.2.decomposer.stack = c.decomposer.stack ++ pushed ∧
    ∀ p ∈ pushed, c.decomposer.store.nextId ≤ p.id.id
  node : ∃ b cursor, r.1 = node.atCursor b cursor ∧ b.count = m
  ids : r.2.decomposer.store.nextId < c.decomposer.store.nextId + 2 ^ k

/-- a component on the stack that is a valid node of free variables, with an exact key -/
structure Waiting (f : Formula) (c : Counter) (index : ℕ) (comp : Component) : Prop where
  place : c.decomposer.stack[index]? = some comp
  index : index ≠ 0
  key : ∃ signature, c.decomposer.store.key comp.id = some (signature, false)
  valid : ValidNode f c.values comp
  free : ∀ v ∈ comp.vars, c.values.Free v
  nonempty : comp.vars ≠ []

variable {f : Formula} {c c' c'' : Counter} {node : Node} {comp : Component} {index limit ids : ℕ}

theorem Back.refl (h : Ready f c) : Back f c c := ⟨h, rfl, rfl, Store.Lasts.refl _⟩

theorem Back.trans (h : Back f c c') (h' : Back f c' c'') : Back f c c'' :=
  ⟨h'.ready, h'.values.trans h.values, h'.trail.trans h.trail, h.lasts.trans h'.lasts⟩

/-- a change of the decomposer only -/
theorem Back.withDecomposer (h : Ready f c) {d : Decomposer} (hd : d.Ready f)
    (hlasts : Store.Lasts c.decomposer.store d.store) : Back f c { c with decomposer := d } :=
  ⟨⟨h.stores, h.small, h.fits, h.numVars, hd⟩, rfl, rfl, hlasts⟩

/-- the free variables of a valid node are a closed set, and all clauses are propagated -/
theorem Ready.scope (h : Ready f c) (hnode : ValidNode f c.values comp) :
    Scope f c (freeIn c.values comp.vars.toFinset) := by
  refine ⟨h.stores, h.small, h.fits, h.numVars, ?_, fun v hv => ?_, fun d hd _ => Or.inr (hnode.propagated d hd)⟩
  · refine hnode.closed_candidates (hnode.setting h.stores h.small h.fits) fun w => ?_
    rw [mem_freeIn, List.mem_toFinset]
    rfl
  · exact hnode.vars v (List.mem_toFinset.1 (mem_freeIn.1 hv).1)

/-- the state after values were given -/
theorem Ready.grown (h : Ready f c) {K : Finset Var} {new : List Var} (hg : Grown f.numVars K c c' new) :
    Ready f c' := by
  refine ⟨?_, h.small, hg.fits, hg.numVars.trans h.numVars, ?_⟩
  · rw [hg.same]; exact h.stores
  · rw [hg.same]; exact h.decomposer

/-- the node is open still when values were given to variables of its super-component and units are propagated -/
theorem Opened.grown (hopen : Opened f c node comp) (h : Ready f c) {new : List Var}
    (hg : Grown f.numVars (freeIn c.values comp.vars.toFinset) c c' new)
    (hprop : ∀ d ∈ f.clauses, Propagated c'.values d) : Opened f c' node comp := by
  have hd : c'.decomposer = c.decomposer := by rw [hg.same]
  exact ⟨hd ▸ hopen.super, hopen.index, hd ▸ hopen.key, hopen.valid.extend (hg.grows h.small h.fits) hprop,
    hd ▸ hopen.base, hopen.active⟩

theorem Waiting.back (hwait : Waiting f c index comp) (hback : Back f c c')
    (hstack : c'.decomposer.stack = c.decomposer.stack) : Waiting f c' index comp := by
  obtain ⟨signature, hkey⟩ := hwait.key
  exact ⟨hstack ▸ hwait.place, hwait.index, ⟨signature, hback.lasts.held _ _ hkey⟩, hback.values ▸ hwait.valid,
    hback.values ▸ hwait.free, hwait.nonempty⟩

/-- the node of a component that waits, on its first branch or its second -/
theorem Waiting.opened (hwait : Waiting f c index comp) (hbase : node.base = c.decomposer.stack.length)
    (hsuper : node.superIndex = index) (hactive : node.active = .start) : Opened f c node comp :=
  ⟨hsuper ▸ hwait.place, hsuper ▸ hwait.index, hwait.key, hwait.valid, hbase, hactive⟩

/-- all variables of a component that waits are free -/
theorem Waiting.freeIn_eq (hwait : Waiting f c index comp) :
    freeIn c.values comp.vars.toFinset = comp.vars.toFinset :=
  Finset.filter_true_of_mem fun w hw => hwait.free w (List.mem_toFinset.1 hw)

/-! ## Solving what a decision leaves -/

/-- nodes with fewer free variables than the limit are solved: the active branch counts the models of what is left on
the free variables of the super-component -/
def Solves (f : Formula) (ids limit : ℕ) (solve : Node → Counter → Traced (Node × Counter)) : Prop :=
  ∀ node c comp, Ready f c → Opened f c node comp → freeCount f.numVars c.values < limit →
    c.decomposer.store.nextId + 2 ^ (freeIn c.values comp.vars.toFinset).card ≤ ids →
    Ends (Spent (f.numVars + f.numLong) ids) (solve node c).result
      (Solved f c node (f.modelsOn c.values (freeIn c.values comp.vars.toFinset))
        (freeIn c.values comp.vars.toFinset).card)

def Counts (f : Formula) (ids limit : ℕ) (count : ℕ → Counter → Traced (ℕ × Counter)) : Prop :=
  ∀ index c comp, Ready f c → Waiting f c index comp → freeCount f.numVars c.values < limit →
    c.decomposer.store.nextId + 2 ^ comp.vars.toFinset.card ≤ ids + 1 →
    Ends (Spent (f.numVars + f.numLong) ids) (count index c).result fun r =>
      r.1 = f.modelsOn c.values comp.vars.toFinset ∧ Back f c r.2 ∧ r.2.decomposer.stack = c.decomposer.stack ∧
      r.2.decomposer.store.nextId + 2 ≤ c.decomposer.store.nextId + 2 ^ comp.vars.toFinset.card

theorem Opened.superOf (h : Opened f c node comp) : c.decomposer.superOf node = .ok comp :=
  Decomposer.held_of_getElem? h.super

variable {solve : Node → Counter → Traced (Node × Counter)}

theorem conquer_spec (hsolve : Solves f ids limit solve) (h : Ready f c) (hopen : Opened f c node comp)
    {new : List Var} (hg : Grown f.numVars (freeIn c.values comp.vars.toFinset) c c' new) {consistent : Bool}
    (hprop : consistent = true → ∀ d ∈ f.clauses, Propagated c'.values d)
    (hlimit : freeCount f.numVars c'.values < limit)
    (hids : c'.decomposer.store.nextId + 2 ^ (freeIn c'.values (freeIn c.values comp.vars.toFinset)).card ≤ ids) :
    Ends (Spent (f.numVars + f.numLong) ids) (conquer solve consistent node c').result (Solved f c' node
      (if consistent then f.modelsOn c'.values (freeIn c'.values (freeIn c.values comp.vars.toFinset)) else 0)
      (freeIn c'.values (freeIn c.values comp.vars.toFinset)).card) := by
  have hready := h.grown hg
  unfold conquer
  cases consistent with
  | false =>
    exact ⟨Back.refl hready, ⟨[], (List.append_nil _).symm, by simp⟩, ⟨.settled, node.cursor, Node.markUnsat_eq, rfl⟩,
      Nat.lt_add_of_pos_right (Nat.two_pow_pos _)⟩
  | true =>
    have hext := hg.grows h.small h.fits
    have hfree : freeIn c'.values (freeIn c.values comp.vars.toFinset) = freeIn c'.values comp.vars.toFinset := by
      ext w
      simp only [mem_freeIn]
      exact ⟨fun hw => ⟨hw.1.1, hw.2⟩, fun hw => ⟨⟨hw.1, hext.free hw.2⟩, hw.2⟩⟩
    simp only [if_true]
    rw [hfree] at hids ⊢
    exact hsolve node c' comp hready (hopen.grown h hg (hprop rfl)) hlimit hids

/-- **One branch.** The branch of a literal counts the models in which it holds, and the search comes back. -/
theorem branchWith_spec (hsolve : Solves f ids limit solve) (h : Ready f c) (hopen : Opened f c node comp) {l : Lit}
    (hl : l.var ∈ freeIn c.values comp.vars.toFinset) (hlimit : freeCount f.numVars c.values < limit + 1) {k : ℕ}
    (hk : (freeIn c.values comp.vars.toFinset).card = k + 1) (hids : c.decomposer.store.nextId + 2 ^ k ≤ ids) :
    Ends (Spent (f.numVars + f.numLong) ids) (branchWith solve l node c).result fun r => Back f c r.2 ∧
      r.2.decomposer.stack = c.decomposer.stack ∧
      r.2.decomposer.store.nextId < c.decomposer.store.nextId + 2 ^ k ∧ ∃ b, r.1 = node.atCursor b node.base ∧
      b.count = ((satisfying (freeIn c.values comp.vars.toFinset)
        (residual c.values f.clauses (freeIn c.values comp.vars.toFinset))).filter fun T => l.Holds T).card := by
  obtain ⟨c₁, consistent, c₂, new, hassign, hrun, hg, hlt, hfewer, hprop, hcount⟩ :=
    (h.scope hopen.valid).decide_spec hl
  have hd : c₂.decomposer = c.decomposer := by rw [hg.same]
  have hpow : 2 ^ (freeIn c₂.values (freeIn c.values comp.vars.toFinset)).card ≤ 2 ^ k :=
    Nat.pow_le_pow_right (by decide) (by omega)
  simp only [branchWith, Traced.result_bind, Traced.result_lift, Traced.result_quiet]
  rw [hassign, Except.ok_bind, hrun, Except.ok_bind]
  apply (conquer_spec hsolve h hopen hg hprop (by omega) (by rw [hd]; omega)).bind
  intro r hboth
  rcases r with ⟨node₃, c₃⟩
  rcases hboth with ⟨hback, ⟨pushed, hstack, hyoung⟩, ⟨b, cursor, hnode, hb⟩, hfew⟩
  simp only at hback hstack hnode hfew
  rw [hd] at hstack hyoung hfew
  have hbase : node₃.base = c.decomposer.stack.length := by
    rw [hnode]
    exact Node.base_atCursor.trans hopen.base
  obtain ⟨d, hclean, hready, hkeeps, hdstack⟩ := Decomposer.clean_spec hback.ready.decomposer hstack hbase hyoung
  have hundo := backtrack_spec hg h.small h.fits { c₃ with decomposer := d } hback.values hback.trail
  rw [hclean, Except.ok_bind, hundo, Except.ok_bind]
  have hlasts := hback.lasts
  rw [hd] at hlasts
  refine ⟨⟨⟨hback.ready.stores, h.small, h.fits, h.numVars, hready⟩, rfl, rfl,
    hlasts.keeps h.decomposer.sound hkeeps⟩, hdstack, ?_, b, ?_, hb.trans hcount.symm⟩
  · exact hkeeps.nextId.trans_lt (hfew.trans_le (Nat.add_le_add_left hpow _))
  · rw [hnode]
    exact Node.resetCursor_atCursor

/-! ## Choosing a variable -/

theorem foldl_pick_mem {α : Type} {pick : α → α → α} (hpick : ∀ a b, pick a b = a ∨ pick a b = b) (l : List α) (a : α) :
    l.foldl pick a ∈ a :: l := by
  induction l generalizing a with
  | nil => simp
  | cons b l ih =>
    rw [List.foldl_cons]
    rcases List.mem_cons.1 (ih (pick a b)) with he | hm
    · rw [he]
      rcases hpick a b with h | h <;> simp [h]
    · exact List.mem_cons_of_mem _ (List.mem_cons_of_mem _ hm)

theorem lowest_mem {v : Var} {vars : List Var} (h : lowest vars = some v) : v ∈ vars := by
  cases vars with
  | nil => cases h
  | cons w rest =>
    simp only [lowest, Option.some.injEq] at h
    rw [← h]
    apply foldl_pick_mem
    intro a b
    split_ifs
    · exact Or.inr rfl
    · exact Or.inl rfl

/-- the loop ends with the first variable or one of the others -/
theorem foldlM_best_mem {d : Decomposer} {l : List Var} (hl : ∀ w ∈ l, ∃ s, d.score w = .ok s) (top : Var × ℕ) :
    ∃ r : Var × ℕ, l.foldlM (fun (top : Var × ℕ) w => do
      let s ← d.score w
      return if top.2 ≤ s then (w, s) else top) top = .ok r ∧ r.1 ∈ top.1 :: l := by
  induction l generalizing top with
  | nil => exact ⟨top, rfl, by simp⟩
  | cons x l ih =>
    obtain ⟨t, ht⟩ := hl x (by simp)
    obtain ⟨r, hr, hm⟩ := ih (fun w hw => hl w (List.mem_cons_of_mem _ hw)) (if top.2 ≤ t then (x, t) else top)
    refine ⟨r, ?_, ?_⟩
    · rw [List.foldlM_cons, ht]
      exact hr
    · rcases List.mem_cons.1 hm with he | hm
      · rw [he]
        split_ifs <;> simp
      · exact List.mem_cons_of_mem _ (List.mem_cons_of_mem _ hm)

theorem best_spec {d : Decomposer} (hd : d.explorer.Fits f) {vars : List Var} (hw : ∀ v ∈ vars, v.Within f.numVars)
    (hne : vars ≠ []) : ∃ v ∈ vars, best d vars = .ok (some v) := by
  have hscore : ∀ v ∈ vars, ∃ s, d.score v = .ok s := by
    intro v hv
    have hlt := hd.index_lt_scores (hw v hv)
    refine ⟨d.explorer.scores[v.index], ?_⟩
    unfold Decomposer.score Explorer.score
    rw [Array.getElem?_eq_getElem hlt]
  cases vars with
  | nil => exact absurd rfl hne
  | cons v rest =>
    obtain ⟨s, hs⟩ := hscore v (by simp)
    obtain ⟨r, hr, hm⟩ := foldlM_best_mem (fun w hw => hscore w (List.mem_cons_of_mem _ hw)) (v, s)
    refine ⟨r.1, hm, ?_⟩
    simp only [best, hs, Except.ok_bind]
    rw [hr]
    rfl

/-- a variable of the component is chosen -/
theorem choose_spec (h : Ready f c) (hw : ∀ v ∈ comp.vars, v.Within f.numVars) (hne : comp.vars ≠ []) :
    ∃ v ∈ comp.vars, c.choose comp = .ok v := by
  have hprefer : ∃ v ∈ comp.vars, c.prefer comp.vars = .ok (some v) := by
    unfold prefer
    split_ifs
    · match hl : lowest comp.vars with
      | some v => exact ⟨v, lowest_mem hl, rfl⟩
      | none =>
        cases hv : comp.vars with
        | nil => exact absurd hv hne
        | cons v rest => rw [hv] at hl; cases hl
    · exact best_spec h.decomposer.explorer hw hne
  obtain ⟨v, hv, hrun⟩ := hprefer
  refine ⟨v, hv, ?_⟩
  rw [choose, hrun, Except.ok_bind]
  rfl

/-! ## Both branches -/

/-- **One component.** Deciding a variable both ways counts its models. -/
theorem countWith_spec (hsolve : Solves f ids limit solve) : Counts f ids (limit + 1) (countWith solve) := by
  intro index c comp h hwait hlimit hids
  obtain ⟨v, hv, hchoose⟩ := choose_spec h hwait.valid.vars hwait.nonempty
  have hlt : v.id < 2147483648 := Nat.lt_of_le_of_lt (hwait.valid.vars v hv).2 h.small
  have hfree := hwait.freeIn_eq
  have hmem : v ∈ freeIn c.values comp.vars.toFinset := by
    rw [hfree]
    exact List.mem_toFinset.2 hv
  obtain ⟨k, hk⟩ : ∃ k, comp.vars.toFinset.card = k + 1 :=
    ⟨comp.vars.toFinset.card - 1, (Nat.sub_add_cancel (Finset.card_pos.2 ⟨v, List.mem_toFinset.2 hv⟩)).symm⟩
  have hpow : 2 ^ comp.vars.toFinset.card = 2 ^ k + 2 ^ k := by rw [hk, Nat.pow_succ, Nat.mul_two]
  have hpos : 0 < 2 ^ k := Nat.two_pow_pos k
  simp only [countWith, Traced.result_bind, Traced.result_lift]
  rw [Decomposer.component_eq hwait.place, Except.ok_bind, hchoose, Except.ok_bind]
  apply (branchWith_spec hsolve h (hwait.opened rfl rfl rfl) (l := v.pos) (by rw [Var.var_pos hlt]; exact hmem) hlimit
    (by rw [hfree]; exact hk) (by omega)).bind
  intro r hboth
  rcases r with ⟨node₁, c₁⟩
  rcases hboth with ⟨hback, hstack, hfew₁, b₁, hnode, hb₁⟩
  simp only at hback hstack hfew₁ hnode
  subst hnode
  -- the second branch starts from the same state
  have hopen' : Opened f c₁ ⟨index, c.decomposer.stackSize, c.decomposer.stackSize, true, b₁, .start⟩ comp :=
    (hwait.back hback hstack).opened (by rw [hstack]; rfl) rfl rfl
  have hmem' : v.neg.var ∈ freeIn c₁.values comp.vars.toFinset := by
    rw [Var.var_neg hlt, hback.values]
    exact hmem
  refine Ends.bind_of_eq (a := ⟨index, c.decomposer.stackSize, c.decomposer.stackSize, true, b₁, .start⟩) rfl ?_
  apply Ends.bind (branchWith_spec hsolve hback.ready hopen' hmem' (by rw [hback.values]; exact hlimit)
    (by rw [hback.values, hfree]; exact hk) (by omega))
  intro r hboth
  rcases r with ⟨node₂, c₂⟩
  rcases hboth with ⟨hback', hstack', hfew₂, b₂, hnode', hb₂⟩
  simp only at hback' hstack' hfew₂ hnode'
  subst hnode'
  refine ⟨?_, hback.trans hback', hstack'.trans hstack, by simp only; omega⟩
  rw [hback.values, hfree] at hb₂
  rw [hfree] at hb₁
  calc b₁.count + b₂.count
      = ((satisfying comp.vars.toFinset (residual c.values f.clauses comp.vars.toFinset)).filter
            fun T => v.pos.Holds T).card +
          ((satisfying comp.vars.toFinset (residual c.values f.clauses comp.vars.toFinset)).filter
            fun T => v.neg.Holds T).card := by rw [hb₁, hb₂]
    _ = f.modelsOn c.values comp.vars.toFinset := (modelsOn_eq_add hlt).symm

end ModelCount.Counter
