/-
The calls of a count.

While a counter counts, its functions call one another (`Call.Next`, `Calls`). Wherever a node is split, all clauses are
propagated, no unsatisfied clause leaves the super-component (`ValidNode`), and all variables that were assigned since
the super-component was pushed belong to it, so that the components pushed with it are left alone (`Confined`). Every
call carries this to the next (`Sane.next`), hence it holds of all calls of a count, whatever the settings
(`calls_confined`), and also when the counter has counted before. Each call that counts a component comes back to the
values, the trail and the component stack it was made with (`calls_restore`).
-/
import Mathlib.Tactic
import ModelCount.Proofs.Count

namespace ModelCount.Counter

open Formula Explorer

/-! ## The calls of a count -/

/-- a call made while models are counted: a node is solved, the loop over its components goes on, a component is
counted, one of its branches is counted -/
inductive Call where
  | solve (depth : ℕ) (node : Node) (c : Counter)
  | loop (depth parts : ℕ) (node : Node) (c : Counter)
  | count (depth index : ℕ) (c : Counter)
  | branch (depth : ℕ) (l : Lit) (node : Node) (c : Counter)

/-- the calls that a call makes; a loop goes on when its component was counted -/
inductive Call.Next : Call → Call → Prop where
  | loop {depth : ℕ} {node : Node} {c : Counter} :
      Next (.solve (depth + 1) node c) (.loop depth (c.values.numVars + 1) node c)
  | part {depth parts index : ℕ} {node node' : Node} {c : Counter} {d : Decomposer} :
      (c.decomposer.findNext node c.values).result = .ok (true, d, node') → node'.current = .ok index →
      Next (.loop depth (parts + 1) node c) (.count depth index { c with decomposer := d })
  | again {depth parts index m : ℕ} {node node' node'' : Node} {c c' c'' : Counter} {d : Decomposer} :
      (c.decomposer.findNext node c.values).result = .ok (true, d, node') → node'.current = .ok index →
      (countWith (Counter.solve depth) index { c with decomposer := d }).result = .ok (m, c') →
      (c'.record node' index m).result = .ok (node'', c'') → node''.foundUnsat = false →
      Next (.loop depth (parts + 1) node c) (.loop depth parts node'' c'')
  | first {depth index : ℕ} {c : Counter} {comp : Component} {v : Var} :
      c.decomposer.component index = .ok comp → c.choose comp = .ok v →
      Next (.count depth index c) (.branch depth v.pos (Node.start index c.decomposer.stackSize) c)
  | second {depth index : ℕ} {node node' : Node} {c c' : Counter} {comp : Component} {v : Var} :
      c.decomposer.component index = .ok comp → c.choose comp = .ok v →
      (branchWith (Counter.solve depth) v.pos (Node.start index c.decomposer.stackSize) c).result = .ok (node, c') →
      node.changeBranch = .ok node' → Next (.count depth index c) (.branch depth v.neg node' c')
  | consistent {depth : ℕ} {l : Lit} {node : Node} {c c' c'' : Counter} :
      c.assign l = .ok c' → c'.propagate = .ok (true, c'') →
      Next (.branch depth l node c) (.solve depth node c'')

/-- the calls made while the counter counts; every split that is reported is one of theirs (`count_reports`) -/
inductive Calls (c₀ : Counter) : Call → Prop where
  | start {c : Counter} {node : Node} : c₀.propagate = .ok (true, c) → c.decomposer.rootNode = .ok node →
      Calls c₀ (.solve (c.values.numVars + 1) node c)
  | next {a b : Call} : Calls c₀ a → a.Next b → Calls c₀ b

/-- the call begins with splitting the node -/
inductive Call.Splits : Call → Node → Counter → Prop where
  | intro {depth parts : ℕ} {node : Node} {c : Counter} : node.foundUnsat = false →
      c.decomposer.stack.length ≤ node.base → Splits (.loop depth (parts + 1) node c) node c

/-- counters for the formula, with any settings, that have counted any number of times -/
inductive Made (f : Formula) (clauses : List (List ℤ)) : Counter → Prop where
  | new {config : Config} {c : Counter} : (Counter.new f clauses config).result = .ok c → Made f clauses c
  | options {c : Counter} (evicting lowestFirst : Bool) : Made f clauses c →
      Made f clauses { c with evicting := evicting, lowestFirst := lowestFirst }
  | count {c : Counter} {r : ℕ × Counter} : Made f clauses c → c.count.result = .ok r → Made f clauses r.2

/-! ## Where a component comes from -/

/-- a split on the way to the call has pushed these components, under these values -/
def Pushed (c₀ : Counter) (b : Call) (values : Assignment) (pushed : List Component) : Prop :=
  ∃ a node c r, Calls c₀ a ∧ a.Splits node c ∧ Relation.ReflTransGen Call.Next a b ∧
    (c.decomposer.split node c.values).result = .ok r ∧ r.1.stack = c.decomposer.stack ++ pushed ∧ c.values = values

/-- the component, the values under which it was pushed, and all components that were pushed then; the root is there
from the beginning -/
inductive Emitted (f : Formula) (c₀ : Counter) (b : Call) : Component → Assignment → List Component → Prop where
  | root : Emitted f c₀ b (root f) (.empty f.numVars) [root f]
  | part {p : Component} {values : Assignment} {pushed : List Component} : Pushed c₀ b values pushed → p ∈ pushed →
      Emitted f c₀ b p values pushed

/-- between two assignments only variables of a component were assigned, and the components beside it are free -/
structure Confined (f : Formula) (before values : Assignment) (comp : Component) (beside : List Component) : Prop where
  once : (beside.flatMap Component.vars).Nodup
  since : ∀ v : Var, v.Within f.numVars → before.Free v → ¬ values.Free v → v ∈ comp.vars
  free : ∀ p ∈ beside, p ≠ comp → ∀ v ∈ p.vars, values.Free v

variable {f : Formula} {c₀ c c' c'' c₁ : Counter} {a b : Call} {node node' node'' node₁ : Node} {comp p : Component}
  {before values : Assignment} {beside pushed todo todo' : List Component} {depth parts m k index : ℕ}
  {d d' : Decomposer}

theorem Pushed.next (h : Pushed c₀ a values pushed) (hn : a.Next b) : Pushed c₀ b values pushed := by
  obtain ⟨a', node, c, r, h1, h2, h3, h4⟩ := h
  exact ⟨a', node, c, r, h1, h2, h3.tail hn, h4⟩

theorem Emitted.next (h : Emitted f c₀ a comp values beside) (hn : a.Next b) : Emitted f c₀ b comp values beside := by
  cases h with
  | root => exact .root
  | part hp hm => exact .part (hp.next hn) hm

theorem Emitted.mem (h : Emitted f c₀ b comp values beside) : comp ∈ beside := by
  cases h with
  | root => exact List.mem_singleton_self _
  | part _ hm => exact hm

/-- values given to variables of the component -/
theorem Confined.grown (h : Confined f before c.values comp beside) (hmem : comp ∈ beside) {K : Finset Var}
    (hK : K ⊆ comp.vars.toFinset) {new : List Var} (hg : Grown f.numVars K c c' new) (hn : f.numVars < 2147483648)
    (hw : ∀ p ∈ beside, ∀ v ∈ p.vars, v.Within f.numVars) : Confined f before c'.values comp beside := by
  have hnew : ∀ v : Var, v.Within f.numVars → c.values.Free v → ¬ c'.values.Free v → v ∈ comp.vars :=
    fun v hv hfree hset => List.mem_toFinset.1 (hK (hg.mem v (hg.mem_of_set hn hv hfree hset)).2.1)
  refine ⟨h.once, fun v hv hfree hset => ?_, fun p hp hne v hv => ?_⟩
  · by_cases hc : c.values.Free v
    · exact hnew v hv hc hset
    · exact h.since v hv hfree hc
  · by_contra hset
    -- no variable is in two of the components
    have hboth := hnew v (hw p hp v hv) (h.free p hp hne v hv) hset
    have hsymm : Std.Symm (Function.onFun List.Disjoint Component.vars) := ⟨fun _ _ hpq => hpq.symm⟩
    exact (List.nodup_flatMap.1 h.once).2.forall hp hmem hne hv hboth

/-! ## What a call carries to the next -/

/-- an open node at a call, and where its super-component comes from -/
structure Framed (f : Formula) (c₀ : Counter) (b : Call) (node : Node) (c : Counter) (comp : Component)
    (before : Assignment) (beside : List Component) : Prop where
  ready : Ready f c
  opened : Opened f c node comp
  emitted : Emitted f c₀ b comp before beside
  confined : Confined f before c.values comp beside
  within : ∀ p ∈ beside, ∀ v ∈ p.vars, v.Within f.numVars

/-- a node that was split on the way to a call, with the components `todo` left to solve of those that were pushed -/
structure Stage (f : Formula) (c₀ : Counter) (b : Call) (depth : ℕ) (node₁ : Node) (c₁ : Counter) (comp : Component)
    (pushed : List Component) (m k : ℕ) (todo : List Component) (node : Node) (c : Counter) : Prop where
  ready : Ready f c₁
  opened : Opened f c₁ node₁ comp
  limit : freeCount f.numVars c₁.values < depth + 1
  running : Running f c₁ node₁ m k todo node c
  source : Pushed c₀ b c₁.values pushed
  stack : c.decomposer.stack = c₁.decomposer.stack ++ pushed
  once : (pushed.flatMap Component.vars).Nodup
  free : ∀ p ∈ pushed, ∀ v ∈ p.vars, v.Within f.numVars ∧ c₁.values.Free v

/-- what holds of every call -/
inductive Sane (f : Formula) (c₀ : Counter) : Call → Prop where
  | solve {depth : ℕ} {node : Node} {c : Counter} {comp : Component} {before : Assignment} {beside : List Component} :
      Framed f c₀ (.solve depth node c) node c comp before beside → freeCount f.numVars c.values < depth →
      Sane f c₀ (.solve depth node c)
  | fresh {depth parts : ℕ} {node : Node} {c : Counter} {comp : Component} {before : Assignment}
      {beside : List Component} : Framed f c₀ (.loop depth parts node c) node c comp before beside →
      freeCount f.numVars c.values < depth + 1 → Sane f c₀ (.loop depth parts node c)
  | running {depth parts m k : ℕ} {node node₁ : Node} {c c₁ : Counter} {comp : Component}
      {pushed todo : List Component} :
      Stage f c₀ (.loop depth parts node c) depth node₁ c₁ comp pushed m k todo node c →
      node.foundUnsat = false → Sane f c₀ (.loop depth parts node c)
  | count {depth index : ℕ} {c : Counter} {comp : Component} {beside : List Component} : Ready f c →
      Waiting f c index comp → freeCount f.numVars c.values < depth + 1 →
      Emitted f c₀ (.count depth index c) comp c.values beside → Confined f c.values c.values comp beside →
      (∀ p ∈ beside, ∀ v ∈ p.vars, v.Within f.numVars) → Sane f c₀ (.count depth index c)
  | branch {depth : ℕ} {l : Lit} {node : Node} {c : Counter} {comp : Component} {before : Assignment}
      {beside : List Component} : Framed f c₀ (.branch depth l node c) node c comp before beside →
      l.var ∈ freeIn c.values comp.vars.toFinset → freeCount f.numVars c.values < depth + 1 →
      Sane f c₀ (.branch depth l node c)

theorem Framed.next (h : Framed f c₀ a node c comp before beside) (hn : a.Next b) :
    Framed f c₀ b node c comp before beside :=
  ⟨h.ready, h.opened, h.emitted.next hn, h.confined, h.within⟩

theorem Stage.next (h : Stage f c₀ a depth node₁ c₁ comp pushed m k todo node c) (hn : a.Next b)
    (hrun : Running f c₁ node₁ m k todo' node' c') (hstack : c'.decomposer.stack = c.decomposer.stack) :
    Stage f c₀ b depth node₁ c₁ comp pushed m k todo' node' c' :=
  ⟨h.ready, h.opened, h.limit, hrun, h.source.next hn, hstack.trans h.stack, h.once, h.free⟩

/-- a node that was split is not split again -/
theorem Stage.not_le_base (h : Stage f c₀ b depth node₁ c₁ comp pushed m k todo node c) :
    ¬ c.decomposer.stack.length ≤ node.base := by
  obtain ⟨solved, hstack, hne, -⟩ := h.running.stack
  obtain ⟨b, -, hnode, -⟩ := h.running.branch
  rw [hnode, Node.base_atCursor, h.opened.base, hstack, List.length_append]
  have := List.length_pos_of_ne_nil hne
  omega

theorem Opened.stack_ne_nil (h : Opened f c node comp) : c.decomposer.stack ≠ [] := by
  intro he
  have := h.super
  rw [he] at this
  cases this

/-- a question that finds a component splits the node or leaves everything as it is -/
theorem findNext_cases (hfind : (d.findNext node values).result = .ok (true, d', node')) :
    node.foundUnsat = false ∧
      if d.stack.length ≤ node.base then (d.split node values).result = .ok (d', node')
      else d' = d ∧ node' = node ∧ node.hasUnprocessed = true := by
  unfold Decomposer.findNext at hfind
  simp only [Traced.result_bind, Traced.result_lift] at hfind
  by_cases hopen : node.foundUnsat = false
  · rw [require_pos hopen, Except.ok_bind] at hfind
    refine ⟨hopen, ?_⟩
    unfold Decomposer.enumerate at hfind
    split_ifs at hfind ⊢ with hbase
    · obtain ⟨⟨d₁, node₁⟩, hsplit, hfind⟩ := exists_of_bind hfind
      simp only at hfind
      split_ifs at hfind <;> cases hfind
      exact hsplit
    · rw [Traced.result_pure, Except.ok_bind] at hfind
      simp only [hopen, Bool.false_eq_true, if_false] at hfind
      split_ifs at hfind with hmore <;> cases hfind
      exact ⟨rfl, rfl, hmore⟩
  · rw [require, if_neg hopen] at hfind
    cases hfind

/-- the round of a loop that finds a component to count: the node was split, now or before -/
theorem Sane.chosen (h : Sane f c₀ (.loop depth (parts + 1) node c))
    (hcalls : Calls c₀ (.loop depth (parts + 1) node c))
    (hfind : (c.decomposer.findNext node c.values).result = .ok (true, d, node')) :
    ∃ node₁ c₁ comp m k todo p pushed, Stage f c₀ (.loop depth (parts + 1) node c) depth node₁ c₁ comp pushed m k
      (todo ++ [p]) node' { c with decomposer := d } := by
  obtain ⟨hopen, hcases⟩ := findNext_cases hfind
  cases h with
  | fresh hframed hlimit =>
    rename_i comp before beside
    have hopened := hframed.opened
    have hready := hframed.ready
    have hs := hopened.valid.setting hready.stores hready.small hready.fits
    rw [if_pos hopened.base.ge] at hcases
    obtain ⟨todo', hne, -, hrun⟩ := (findNext_fresh hready hopened le_rfl).get hfind
    obtain ⟨pushed, b, hsplit⟩ := (Decomposer.split_factored hs hopened.valid hready.decomposer.explorer
      hready.decomposer.sound hready.decomposer.exact hopened.superOf (Store.Held.has hopened.key) hopened.base.le
      hopened.active (K := comp.vars.toFinset) (fun w hw => List.mem_toFinset.2 hw.1) (Nat.lt_succ_self _)).get hcases
    obtain ⟨todo, p, rfl⟩ := (List.eq_nil_or_concat todo').resolve_left hne
    rw [List.concat_eq_append] at hrun
    refine ⟨node, c, comp, _, _, todo, p, pushed, hready, hopened, hlimit, hrun,
      ⟨_, node, c, _, hcalls, .intro hopen hopened.base.ge, .refl, hcases, hsplit.stack, rfl⟩, hsplit.stack,
      hsplit.once, fun q hq v hv => ?_⟩
    obtain ⟨w, signature, hpart⟩ := hsplit.isParts q hq
    have hcand := ((hpart.mem_vars v).1 hv).candidate hpart.candidate
    exact ⟨hopened.valid.vars v hcand.1, hcand.2⟩
  | running hstage hunsat =>
    rename_i m k node₁ c₁ comp pushed todo
    rw [if_neg hstage.not_le_base] at hcases
    obtain ⟨rfl, rfl, hmore⟩ := hcases
    obtain ⟨b, -, hnode, -⟩ := hstage.running.branch
    have htodo : todo ≠ [] := by
      rintro rfl
      rw [hnode, Node.hasUnprocessed_atCursor, hstage.opened.base] at hmore
      simp at hmore
    obtain ⟨todo, p, rfl⟩ := (List.eq_nil_or_concat todo).resolve_left htodo
    rw [List.concat_eq_append] at hstage
    exact ⟨node₁, c₁, comp, m, k, todo, p, pushed, hstage⟩

/-- the component that is counted next -/
theorem Stage.waiting (h : Stage f c₀ b depth node₁ c₁ comp pushed m k (todo ++ [p]) node c)
    (hindex : node.current = .ok index) : Waiting f c index p ∧ p ∈ pushed ∧
      index = c₁.decomposer.stack.length + todo.length := by
  have hcurrent := h.running.current_eq h.opened.base
  rw [hindex] at hcurrent
  cases hcurrent
  have hwait := h.running.waiting h.opened.stack_ne_nil
  refine ⟨hwait, ?_, rfl⟩
  have hplace := hwait.place
  rw [h.stack, List.getElem?_append_right (by omega)] at hplace
  exact List.mem_of_getElem? hplace

/-- a decision and the propagation after it keep to the super-component, also when they end in a conflict -/
theorem Framed.decided (h : Framed f c₀ b node c comp before beside) {l : Lit} {consistent : Bool}
    (hl : l.var ∈ freeIn c.values comp.vars.toFinset) (hassign : c.assign l = .ok c')
    (hprop : c'.propagate = .ok (consistent, c'')) :
    Confined f before c''.values comp beside ∧ freeCount f.numVars c''.values < freeCount f.numVars c.values ∧
      Ready f c'' ∧ (consistent = true → Opened f c'' node comp) := by
  obtain ⟨c₁, consistent', c₂, new, hassign', hrun, hg, hlt, -, hpropagated, -⟩ :=
    (h.ready.scope h.opened.valid).decide_spec hl
  rw [hassign] at hassign'
  cases hassign'
  rw [hprop] at hrun
  cases hrun
  exact ⟨h.confined.grown h.emitted.mem (Finset.filter_subset _ _) hg h.ready.small h.within, hlt, h.ready.grown hg,
    fun hc => h.opened.grown h.ready hg (hpropagated hc)⟩

/-- the component that a call counts, and the variable it chooses -/
theorem choose_of_waiting {comp' : Component} {v : Var} (h : Ready f c) (hwait : Waiting f c index comp)
    (hcomp : c.decomposer.component index = .ok comp') (hchoose : c.choose comp' = .ok v) :
    comp' = comp ∧ v.id < 2147483648 ∧ v ∈ freeIn c.values comp.vars.toFinset := by
  rw [Decomposer.component_eq hwait.place] at hcomp
  cases hcomp
  obtain ⟨w, hw, hchoose'⟩ := choose_spec h hwait.valid.vars hwait.nonempty
  rw [hchoose] at hchoose'
  cases hchoose'
  refine ⟨rfl, Nat.lt_of_le_of_lt (hwait.valid.vars v hw).2 h.small, ?_⟩
  rw [hwait.freeIn_eq]
  exact List.mem_toFinset.2 hw

/-- from the loop to the component that is counted next -/
theorem Sane.part (h : Sane f c₀ (.loop depth (parts + 1) node c)) (hcalls : Calls c₀ (.loop depth (parts + 1) node c))
    (hfind : (c.decomposer.findNext node c.values).result = .ok (true, d, node')) (hindex : node'.current = .ok index) :
    Sane f c₀ (.count depth index { c with decomposer := d }) := by
  obtain ⟨node₁, c₁, comp, m, k, todo, p, pushed, hstage⟩ := h.chosen hcalls hfind
  obtain ⟨hwait, hp, -⟩ := hstage.waiting hindex
  have hvalues : c.values = c₁.values := hstage.running.back.values
  have hemitted := Emitted.part (f := f) (hstage.source.next (.part hfind hindex)) hp
  rw [← hvalues] at hemitted
  refine .count hstage.running.back.ready hwait ?_ hemitted
    ⟨hstage.once, fun v _ hfree hset => absurd hfree hset, fun q hq _ v hv => ?_⟩
    fun q hq v hv => (hstage.free q hq v hv).1
  · show freeCount f.numVars c.values < depth + 1
    rw [hvalues]
    exact hstage.limit
  · show c.values.Free v
    rw [hvalues]
    exact (hstage.free q hq v hv).2

/-- from one round of the loop to the next -/
theorem Sane.again (h : Sane f c₀ (.loop depth (parts + 1) node c))
    (hcalls : Calls c₀ (.loop depth (parts + 1) node c))
    (hfind : (c.decomposer.findNext node c.values).result = .ok (true, d, node')) (hindex : node'.current = .ok index)
    (hcount : (countWith (Counter.solve depth) index { c with decomposer := d }).result = .ok (m, c'))
    (hrecord : (c'.record node' index m).result = .ok (node'', c'')) (hopen : node''.foundUnsat = false) :
    Sane f c₀ (.loop depth parts node'' c'') := by
  obtain ⟨node₁, c₁, comp, m₁, k, todo, p, pushed, hstage⟩ := h.chosen hcalls hfind
  obtain ⟨hwait, -, hplace⟩ := hstage.waiting hindex
  have hvalues : c.values = c₁.values := hstage.running.back.values
  have hlimit : freeCount f.numVars c.values < depth + 1 := by
    rw [hvalues]
    exact hstage.limit
  obtain ⟨hm, hback, hstack, hfew⟩ := (countWith_spec (solve_spec _ _) _ _ p hstage.running.back.ready hwait hlimit
    (Nat.le_succ _)).get hcount
  have hm' : m = f.modelsOn c₁.values p.vars.toFinset := hvalues ▸ hm
  obtain ⟨r, hrecord', hrun, hstack'⟩ := record_spec hstage.running hstage.opened.base hback hstack hfew
    hstage.opened.stack_ne_nil
  rw [← hm', ← hplace] at hrecord'
  have hr : (node'', c'') = r := Except.ok.inj (hrecord.symm.trans hrecord')
  subst hr
  exact .running (hstage.next (.again hfind hindex hcount hrecord hopen) hrun hstack') hopen

/-- from a component to its first branch -/
theorem Sane.first {v : Var} (h : Sane f c₀ (.count depth index c)) (hcomp : c.decomposer.component index = .ok comp)
    (hchoose : c.choose comp = .ok v) :
    Sane f c₀ (.branch depth v.pos (Node.start index c.decomposer.stackSize) c) := by
  cases h with
  | count hready hwait hlimit hemitted hconfined hw =>
    obtain ⟨rfl, hlt, hmem⟩ := choose_of_waiting hready hwait hcomp hchoose
    exact .branch ⟨hready, hwait.opened rfl rfl rfl, hemitted.next (.first hcomp hchoose), hconfined, hw⟩
      (by rw [Var.var_pos hlt]; exact hmem) hlimit

/-- from a component to its second branch: the first gives back the values it was given -/
theorem Sane.second {v : Var} (h : Sane f c₀ (.count depth index c)) (hcomp : c.decomposer.component index = .ok comp)
    (hchoose : c.choose comp = .ok v)
    (hbranch : (branchWith (Counter.solve depth) v.pos (Node.start index c.decomposer.stackSize) c).result =
      .ok (node, c')) (hchange : node.changeBranch = .ok node') : Sane f c₀ (.branch depth v.neg node' c') := by
  cases h with
  | count hready hwait hlimit hemitted hconfined hw =>
    obtain ⟨rfl, hlt, hmem⟩ := choose_of_waiting hready hwait hcomp hchoose
    obtain ⟨k, hk⟩ := Nat.exists_eq_succ_of_ne_zero (Finset.card_ne_zero_of_mem hmem)
    obtain ⟨hback, hstack, -, b, hnode, -⟩ := (branchWith_spec (solve_spec _ _) hready (hwait.opened rfl rfl rfl)
      (by rw [Var.var_pos hlt]; exact hmem) hlimit hk le_rfl).get hbranch
    simp only at hback hstack hnode
    subst hnode
    have hnode' := Except.ok.inj hchange
    subst hnode'
    refine .branch ⟨hback.ready, (hwait.back hback hstack).opened ?_ rfl rfl,
      hemitted.next (.second hcomp hchoose hbranch hchange), hback.values ▸ hconfined, hw⟩
      (by rw [Var.var_neg hlt, hback.values]; exact hmem) (by rw [hback.values]; exact hlimit)
    rw [hstack]
    rfl

/-- **Each call carries it to the next.** -/
theorem Sane.next (h : Sane f c₀ a) (hcalls : Calls c₀ a) (hn : a.Next b) : Sane f c₀ b := by
  cases hn with
  | loop =>
    cases h with
    | solve hframed hlimit => exact .fresh (hframed.next .loop) hlimit
  | part hfind hindex => exact h.part hcalls hfind hindex
  | again hfind hindex hcount hrecord hopen => exact h.again hcalls hfind hindex hcount hrecord hopen
  | first hcomp hchoose => exact h.first hcomp hchoose
  | second hcomp hchoose hbranch hchange => exact h.second hcomp hchoose hbranch hchange
  | consistent hassign hprop =>
    cases h with
    | branch hframed hl hlimit =>
      obtain ⟨hconfined, hlt, hready, hopened⟩ := hframed.decided hl hassign hprop
      exact .solve ⟨hready, hopened rfl, hframed.emitted.next (.consistent hassign hprop), hconfined, hframed.within⟩
        (by omega)

/-! ## From the beginning -/

/-- a counter between counts: the root is there, and possibly more -/
structure Idle (f : Formula) (c : Counter) : Prop extends Ready f c where
  stack : ∃ more, c.decomposer.stack = [.empty, root f] ++ more
  key : ∃ signature, c.decomposer.store.key .root = some (signature, false)

/-- what a count begins with, whatever values there are already -/
theorem Idle.framed (h : Idle f c₀) (hprop : c₀.propagate = .ok (true, c)) (hroot : c.decomposer.rootNode = .ok node)
    (b : Call) : Framed f c₀ b node c (root f) (.empty f.numVars) [root f] := by
  obtain ⟨consistent, c₁, new, hrun, hg, hpropagated⟩ := propagate_units h.stores h.small h.fits h.numVars
  rw [hprop] at hrun
  cases hrun
  have hd : c.decomposer = c₀.decomposer := by rw [hg.same]
  have hready := h.toReady.grown hg
  obtain ⟨more, hstack⟩ := h.stack
  unfold Decomposer.rootNode at hroot
  split_ifs at hroot with hlen
  cases hroot
  have hstack' : c.decomposer.stack = [.empty, root f] := by
    rw [hd, hstack] at hlen ⊢
    have hmore : more = [] := List.length_eq_zero_iff.1 (by simpa using hlen)
    rw [hmore, List.append_nil]
  refine ⟨hready, ⟨by rw [hstack']; rfl, by decide, hd ▸ h.key, valid_root hready.stores (hpropagated rfl),
    by rw [hstack']; rfl, rfl⟩, .root, ⟨?_, fun v hv _ _ => mem_vars_root.2 hv, fun p hp hne => ?_⟩,
    fun p hp v hv => ?_⟩
  · rw [List.flatMap_singleton]
    exact nodup_of_ascending (listed_root f).varsAscending
  · exact absurd (List.mem_singleton.1 hp) hne
  · rw [List.mem_singleton.1 hp] at hv
    exact mem_vars_root.1 hv

theorem Ready.freeCount_lt (h : Ready f c) : freeCount f.numVars c.values < c.values.numVars + 1 := by
  rw [h.numVars]
  exact Nat.lt_succ_of_le freeCount_le

/-- a count leaves the root in its place -/
theorem Idle.count (h : Idle f c) {r : ℕ × Counter} (hrun : c.count.result = .ok r) : Idle f r.2 := by
  obtain ⟨consistent, c₁, new, hprop, hg, -⟩ := propagate_units h.stores h.small h.fits h.numVars
  have hd : c₁.decomposer = c.decomposer := by rw [hg.same]
  simp only [Counter.count, Traced.result_bind, Traced.result_quiet] at hrun
  rw [hprop, Except.ok_bind] at hrun
  cases consistent with
  | false =>
    cases hrun
    exact ⟨h.toReady.grown hg, hd ▸ h.stack, hd ▸ h.key⟩
  | true =>
    simp only [Bool.not_true, Bool.false_eq_true, if_false, Traced.result_bind, Traced.result_lift] at hrun
    obtain ⟨node, hroot, hrun⟩ := exists_of_bind hrun
    obtain ⟨s, hresult, hrun⟩ := exists_of_bind hrun
    cases hrun
    have hframed := h.framed hprop hroot (.solve 0 node c₁)
    obtain ⟨hback, ⟨pushed, hstack, -⟩, -, -⟩ :=
      (solve_spec _ _ node c₁ _ hframed.ready hframed.opened hframed.ready.freeCount_lt le_rfl).get hresult
    obtain ⟨more, hmore⟩ := h.stack
    obtain ⟨signature, hkey⟩ := h.key
    refine ⟨hback.ready, ⟨more ++ pushed, ?_⟩, signature, hback.lasts.held _ _ (hd ▸ hkey)⟩
    show s.2.decomposer.stack = _
    rw [hstack, hd, hmore, List.append_assoc]

theorem Made.idle {n : ℕ} {clauses : List (List ℤ)} (hn : n < 2147483648) (hf : Formula.ofClauses n clauses = .ok f)
    (h : Made f clauses c) : Idle f c := by
  induction h with
  | @new config c hnew =>
    by_cases hbits : config.tableBits ≤ 31
    · obtain ⟨c', hrun, hfresh⟩ := new_spec hn hf config hbits
      rw [hnew] at hrun
      cases hrun
      exact ⟨hfresh.toReady, ⟨[], hfresh.stack⟩, hfresh.key⟩
    · rw [Counter.new, Traced.result_bind, Traced.result_lift, Decomposer.new, Store.empty, if_neg hbits] at hnew
      cases hnew
  | options _ _ _ ih => exact ⟨⟨ih.stores, ih.small, ih.fits, ih.numVars, ih.decomposer⟩, ih.stack, ih.key⟩
  | count _ hrun ih => exact ih.count hrun

/-- all calls of a count are sane -/
theorem Calls.sane (h : Idle f c₀) (hcalls : Calls c₀ b) : Sane f c₀ b := by
  induction hcalls with
  | @start c node hprop hroot =>
    have hframed := h.framed hprop hroot (.solve (c.values.numVars + 1) node c)
    exact .solve hframed hframed.ready.freeCount_lt
  | next hcalls hn ih => exact ih.next hcalls hn

/-- **Every node that is split is well formed.** Take a count of a counter that was made for a formula with less than
2^31 variables, whatever its settings are and whatever it has counted before. Wherever a node is split, all clauses are
propagated, no unsatisfied clause leaves the super-component, and since the super-component was pushed only variables of
its own were assigned. The last also holds after a decision and the propagation that follows, so that the components
which were pushed with it stay free. -/
theorem calls_confined {n : ℕ} {clauses : List (List ℤ)} (hn : n < 2147483648)
    (hf : Formula.ofClauses n clauses = .ok f) (hmade : Made f clauses c₀) (hcalls : Calls c₀ b) :
    (∀ node c, b.Splits node c → ∃ comp before beside, c.decomposer.superOf node = .ok comp ∧
      Emitted f c₀ b comp before beside ∧ ValidNode f c.values comp ∧ Confined f before c.values comp beside) ∧
    ∀ depth l node c c' c'' consistent, b = .branch depth l node c → c.assign l = .ok c' →
      c'.propagate = .ok (consistent, c'') → ∃ comp before beside, c.decomposer.superOf node = .ok comp ∧
        Emitted f c₀ b comp before beside ∧ Confined f before c''.values comp beside := by
  have hsane := hcalls.sane (hmade.idle hn hf)
  constructor
  · intro node c hsplits
    cases hsplits with
    | intro hopen hbase =>
      cases hsane with
      | fresh hframed _ =>
        exact ⟨_, _, _, hframed.opened.superOf, hframed.emitted, hframed.opened.valid, hframed.confined⟩
      | running hstage _ => exact absurd hbase hstage.not_le_base
  · rintro depth l node c c' c'' consistent rfl hassign hprop
    cases hsane with
    | branch hframed hl _ =>
      exact ⟨_, _, _, hframed.opened.superOf, hframed.emitted, (hframed.decided hl hassign hprop).1⟩

/-- the way of a count to the second split, if nothing stops it: whether the two propagations were consistent and a
component was found between them, the trail, the depth, and the size of the stack at the split and below it -/
def secondSplit (f : Formula) (clauses : List (List ℤ)) :
    Except Fault ((Bool × Bool × Bool) × List Var × ℕ × ℕ × ℕ) := do
  let c₀ ← (Counter.new f clauses ⟨true, 0, 0⟩).result
  let (first, c₁) ← c₀.propagate
  let node ← c₁.decomposer.rootNode
  let (found, d, node) ← (c₁.decomposer.findNext node c₁.values).result
  let index ← node.current
  let comp ← d.component index
  let v ← choose { c₁ with decomposer := d } comp
  let c₂ ← assign { c₁ with decomposer := d } v.pos
  let (second, c₃) ← c₂.propagate
  return ((first, found, second), c₃.trail, c₁.values.numVars, c₃.decomposer.stack.length, d.stackSize)

/-- a path of four variables: the second split is that of the component of all four, after a decision -/
theorem calls_confined_path : ∃ f c₀ b node c, Formula.ofClauses 4 [[1, 2], [2, 3], [3, 4]] = .ok f ∧
    Made f [[1, 2], [2, 3], [3, 4]] c₀ ∧ Calls c₀ b ∧ b.Splits node c ∧ c.trail = [⟨3⟩] ∧
    ∃ comp before beside, c.decomposer.superOf node = .ok comp ∧ Emitted f c₀ b comp before beside ∧
      ValidNode f c.values comp ∧ Confined f before c.values comp beside := by
  obtain ⟨f, hf, hview⟩ : ∃ f, Formula.ofClauses 4 [[1, 2], [2, 3], [3, 4]] = .ok f ∧
      secondSplit f [[1, 2], [2, 3], [3, 4]] = .ok ((true, true, true), [⟨3⟩], 4, 3, 3) := ⟨_, rfl, by cbv⟩
  obtain ⟨c₀, hnew, hview⟩ := exists_of_bind hview
  obtain ⟨⟨consistent, c₁⟩, hprop, hview⟩ := exists_of_bind hview
  obtain ⟨node, hroot, hview⟩ := exists_of_bind hview
  obtain ⟨⟨found, d, node'⟩, hfind, hview⟩ := exists_of_bind hview
  obtain ⟨index, hindex, hview⟩ := exists_of_bind hview
  obtain ⟨comp, hcomp, hview⟩ := exists_of_bind hview
  obtain ⟨v, hchoose, hview⟩ := exists_of_bind hview
  obtain ⟨c₂, hassign, hview⟩ := exists_of_bind hview
  obtain ⟨⟨consistent', c₃⟩, hprop', hview⟩ := exists_of_bind hview
  have hall := Except.ok.inj hview
  simp only [Prod.mk.injEq] at hall
  obtain ⟨⟨rfl, rfl, rfl⟩, htrail, hnum, hstack, hsize⟩ := hall
  have hmade : Made f [[1, 2], [2, 3], [3, 4]] c₀ := .new hnew
  have hbranch := (((Calls.start hprop hroot).next .loop).next (.part hfind hindex)).next (.first hcomp hchoose)
  rw [hnum] at hbranch
  have hloop := (hbranch.next (.consistent hassign hprop')).next .loop
  have hsplits : Call.Splits (.loop 3 (c₃.values.numVars + 1) (Node.start index d.stackSize) c₃) _ c₃ :=
    .intro rfl (by rw [hstack]; exact hsize.ge)
  exact ⟨f, c₀, _, _, c₃, hf, hmade, hloop, hsplits, htrail,
    (calls_confined (by decide) hf hmade hloop).1 _ _ hsplits⟩

/-! ## What a call leaves behind -/

/-- **A search comes back to where it was.** Take a count of a counter that was made for a formula with less than 2^31
variables, whatever its settings are and whatever it has counted before. Every call that counts a component ends with
the values, the trail and the component stack it began with, and the entry of its component is live, whatever conflicts
it met and whatever was erased meanwhile. Only a full score, or a next id that has come to the last of its machine word,
can prevent that it ends. -/
theorem calls_restore {n : ℕ} {clauses : List (List ℤ)} (hn : n < 2147483648)
    (hf : Formula.ofClauses n clauses = .ok f) (hmade : Made f clauses c₀) (hcalls : Calls c₀ (.count depth index c)) :
    ∃ comp, c.decomposer.stack[index]? = some comp ∧
      Ends (Spent (n + f.numLong) (c.decomposer.store.nextId + 2 ^ comp.vars.length))
        (countWith (Counter.solve depth) index c).result fun r =>
          r.2.values = c.values ∧ r.2.trail = c.trail ∧ r.2.decomposer.stack = c.decomposer.stack ∧
          r.2.decomposer.store.has comp.id = true := by
  cases hcalls.sane (hmade.idle hn hf) with
  | @count _ _ _ comp _ hready hwait hlimit _ _ _ =>
    have hids : c.decomposer.store.nextId + 2 ^ comp.vars.toFinset.card ≤
        c.decomposer.store.nextId + 2 ^ comp.vars.length + 1 :=
      Nat.le_succ_of_le (Nat.add_le_add_left (Nat.pow_le_pow_right (by decide) (List.toFinset_card_le _)) _)
    have hcount := countWith_spec (solve_spec _ depth) index c comp hready hwait hlimit hids
    rw [(Formula.stores_of_ofClauses hn hf).1] at hcount
    refine ⟨comp, hwait.place, hcount.mono fun r hr => ?_⟩
    obtain ⟨-, hback, hstack, -⟩ := hr
    obtain ⟨signature, hkey⟩ := hwait.key
    obtain ⟨e, he, -⟩ := Store.get?_of_key (hback.lasts.held _ _ hkey)
    exact ⟨hback.values, hback.trail, hstack, Store.has_of_get? he⟩

/-- the way of a count that evicts to its first component and back from there: whether the values were consistent and
a component was found, and its count -/
def firstPart (f : Formula) (clauses : List (List ℤ)) : Except Fault (Bool × Bool × ℕ) := do
  let c₀ ← (Counter.new f clauses ⟨true, 0, 0⟩).result
  let (consistent, c) ← propagate { c₀ with evicting := true, lowestFirst := true }
  let node ← c.decomposer.rootNode
  let (found, d, node) ← (c.decomposer.findNext node c.values).result
  let index ← node.current
  let (count, _) ← (countWith (Counter.solve c.values.numVars) index { c with decomposer := d }).result
  return (consistent, found, count)

/-- the first variable must be true: the other branch of its component ends in a conflict -/
theorem calls_restore_conflict : ∃ f c₀ depth index c r comp,
    Formula.ofClauses 4 [[1, 2], [1, -2], [-1, 3, 4]] = .ok f ∧ Made f [[1, 2], [1, -2], [-1, 3, 4]] c₀ ∧
    Calls c₀ (.count depth index c) ∧ (countWith (Counter.solve depth) index c).result = .ok r ∧ r.1 = 6 ∧
    c.decomposer.stack[index]? = some comp ∧ r.2.values = c.values ∧ r.2.trail = c.trail ∧
    r.2.decomposer.stack = c.decomposer.stack ∧ r.2.decomposer.store.has comp.id = true := by
  obtain ⟨f, hf, hview⟩ : ∃ f, Formula.ofClauses 4 [[1, 2], [1, -2], [-1, 3, 4]] = .ok f ∧
      firstPart f [[1, 2], [1, -2], [-1, 3, 4]] = .ok (true, true, 6) := ⟨_, rfl, by cbv⟩
  obtain ⟨c₀, hnew, hview⟩ := exists_of_bind hview
  obtain ⟨⟨consistent, c⟩, hprop, hview⟩ := exists_of_bind hview
  obtain ⟨node, hroot, hview⟩ := exists_of_bind hview
  obtain ⟨⟨found, d, node'⟩, hfind, hview⟩ := exists_of_bind hview
  obtain ⟨index, hindex, hview⟩ := exists_of_bind hview
  obtain ⟨⟨count, c'⟩, hcount, hview⟩ := exists_of_bind hview
  have hall := Except.ok.inj hview
  simp only [Prod.mk.injEq] at hall
  obtain ⟨rfl, rfl, rfl⟩ := hall
  have hmade : Made f [[1, 2], [1, -2], [-1, 3, 4]] { c₀ with evicting := true, lowestFirst := true } :=
    .options true true (.new hnew)
  have hcalls := ((Calls.start hprop hroot).next .loop).next (.part hfind hindex)
  obtain ⟨comp, hplace, hends⟩ := calls_restore (by decide) hf hmade hcalls
  exact ⟨f, _, _, index, _, _, comp, hf, hmade, hcalls, hcount, rfl, hplace, hends.get hcount⟩

end ModelCount.Counter
