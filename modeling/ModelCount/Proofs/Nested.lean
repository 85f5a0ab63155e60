/-
Open levels over one stack.

All open nodes of a search share the component stack and refer to it by indices. A nest is a search loop at work, last
in, first out: a level is opened at the current height of the stack and left when it is clean, and only the innermost
level is worked on (`Nest.step`). Beside its node a level remembers the stack as it was when the level was opened. No
work on a level reaches below that (`Work.apply_above`), so in every run each level still finds it (`run_nested`), and a
run that leaves all levels it opened leaves the stack as it was (`run_closed`).

So a loop over the components of a level (`Loop`), whatever is done on deeper levels between its rounds, gets the pushed
components one by one, each once, from the top down, the smaller ones first (`run_exact`).
-/
import Mathlib.Tactic
import ModelCount.Proofs.Calls
import ModelCount.Proofs.Pieces
import ModelCount.Proofs.Session

namespace ModelCount

/-! ## What a level leaves in place -/

namespace Decomposer

variable {d d' : Decomposer} {node node' : Node} {values : Assignment} {comp : Component} {more : Bool}

/-- what is found goes into the branches of the node, which keeps its base -/
theorem serve_base (caching : Bool) (father : EntryId) (t : Tally) (piece : Option Part) :
    Ends AnyFault (serve caching father t piece) fun t' => t'.node.base = t.node.base := by
  refine .of_ok fun t' hrun => ?_
  cases piece with
  | none =>
    cases hrun
    exact Node.base_setActive
  | some p =>
    obtain ⟨⟨hit, store, node⟩, hconsult, hrun⟩ := exists_of_bind hrun
    have hnode : node.base = t.node.base := by
      unfold consult at hconsult
      split_ifs at hconsult
      · obtain ⟨found, -, hconsult⟩ := exists_of_bind hconsult
        cases found with
        | none =>
          cases hconsult
          rfl
        | some count =>
          cases hconsult
          exact Node.base_setActive
      · cases hconsult
        rfl
    simp only at hrun
    split_ifs at hrun
    · cases hrun
      exact hnode
    · obtain ⟨r, -, hrun⟩ := exists_of_bind hrun
      cases hrun
      exact hnode

theorem sweepVar_base (caching : Bool) (comp : Component) (values : Assignment) (s : Sweep) (v : Var) :
    Ends AnyFault (sweepVar caching comp values s v).result fun s' => s'.node.base = s.node.base := by
  rw [sweepVar_eq]
  refine (Ends.anything _).bind fun r _ => ?_
  have hserved := Ends.foldlM_state (fun t : Tally => t.node.base = s.node.base) (l := r.1) (b := s.tally) rfl
    fun piece _ t ht => (serve_base caching comp.id t piece).mono fun _ h => h.trans ht
  exact hserved.bind fun t ht => ht

/-- **A split** pushes a slice, the larger components below the smaller ones, and sets the cursor of the node above
it. -/
theorem split_above (hrun : (d.split node values).result = .ok (d', node')) :
    node'.base = node.base ∧ node'.cursor = d'.stack.length ∧
      ∃ slice, d'.stack = d.stack ++ slice ∧ slice.Pairwise fun p q => q.numVars ≤ p.numVars := by
  obtain ⟨comp, hsuper⟩ := split_super hrun
  obtain ⟨e, s, -, hsweep, -, hd, hnode⟩ := split_steps hsuper hrun
  have hbase := (Ends.foldlM_state (fun s : Sweep => s.node.base = node.base) rfl fun v _ s hs =>
    (sweepVar_base _ comp values s v).mono fun _ h => h.trans hs).get hsweep
  rw [show node' = _ from hnode]
  exact ⟨hbase, rfl, _, congrArg stack hd, sortDescending_pairwise _⟩

/-- a question about a node whose components stand on the stack changes nothing, and its answer is whether the cursor is
above the base -/
theorem findNext_again (hopen : node.foundUnsat = false) (habove : node.base < d.stack.length) :
    (d.findNext node values).result =
      .ok (node.hasUnprocessed, d, if node.hasUnprocessed then node else node.times 1) := by
  simp only [findNext, enumerate, Traced.result_bind, Traced.result_lift]
  rw [require_pos hopen, Except.ok_bind, if_neg (Nat.not_le.2 habove), Traced.result_pure, Except.ok_bind]
  simp only [hopen, Bool.false_eq_true, if_false]
  split_ifs with hmore
  · rw [hmore]
    rfl
  · rw [Bool.not_eq_true] at hmore
    rw [hmore]
    rfl

theorem findNext_above (hrun : (d.findNext node values).result = .ok (more, d', node')) :
    node'.base = node.base ∧ d.stack <+: d'.stack := by
  simp only [findNext, Traced.result_bind, Traced.result_lift] at hrun
  obtain ⟨_, -, hrun⟩ := exists_of_bind hrun
  obtain ⟨⟨d₁, node₁⟩, henum, hrun⟩ := exists_of_bind hrun
  have hfound : node₁.base = node.base ∧ d.stack <+: d₁.stack := by
    unfold enumerate at henum
    split_ifs at henum
    · obtain ⟨hbase, -, slice, hstack, -⟩ := split_above henum
      exact ⟨hbase, slice, hstack.symm⟩
    · cases henum
      exact ⟨rfl, List.prefix_rfl⟩
  simp only at hrun
  split_ifs at hrun
  · cases hrun
    exact hfound
  · cases hrun
    exact hfound
  · cases hrun
    exact ⟨Node.base_setActive.trans hfound.1, hfound.2⟩

/-- a question about a node that has nothing on the stack splits it, and its answer is whether anything was pushed,
unless a count that was found settles the branch -/
theorem findNext_split (hbase : node.base = d.stack.length)
    (hrun : (d.findNext node values).result = .ok (more, d', node')) :
    node'.base = node.base ∧ node'.cursor = d'.stack.length ∧
      ∃ slice, d'.stack = d.stack ++ slice ∧ (slice.Pairwise fun p q => q.numVars ≤ p.numVars) ∧
        (more = true ↔ slice ≠ [] ∧ node'.foundUnsat = false) := by
  simp only [findNext, enumerate, if_pos hbase.ge, Traced.result_bind, Traced.result_lift] at hrun
  obtain ⟨_, -, hrun⟩ := exists_of_bind hrun
  obtain ⟨⟨d₁, node₁⟩, hsplit, hrun⟩ := exists_of_bind hrun
  obtain ⟨hbase₁, hcursor, slice, hstack, hsorted⟩ := split_above hsplit
  have hmore : node₁.hasUnprocessed = true ↔ slice ≠ [] := by
    rw [Node.hasUnprocessed, decide_eq_true_iff, hbase₁, hbase, hcursor, hstack, List.length_append,
      ← List.length_pos_iff]
    omega
  simp only at hrun
  split_ifs at hrun with hunsat hleft
  · cases hrun
    exact ⟨hbase₁, hcursor, slice, hstack, hsorted, by simp [hunsat]⟩
  · cases hrun
    exact ⟨hbase₁, hcursor, slice, hstack, hsorted, by simpa [hunsat] using hmore.1 hleft⟩
  · cases hrun
    have hnone : slice = [] := by
      by_contra hne
      exact hleft (hmore.2 hne)
    exact ⟨Node.base_setActive.trans hbase₁, Node.cursor_setActive.trans hcursor, slice, hstack, hsorted,
      by simp [hnone]⟩

theorem sortRange_prefix {start stop : ℕ} {below : List Component} (hbelow : below <+: d.stack)
    (hlen : below.length ≤ start) (hrun : d.sortRange start stop = .ok d') : below <+: d'.stack := by
  unfold sortRange at hrun
  split_ifs at hrun
  cases hrun
  rw [List.append_assoc]
  exact (List.prefix_take_iff.2 ⟨hbelow, hlen⟩).trans (List.prefix_append _ _)

/-- flagging an entry that may be gone meets no fault -/
theorem flagLeft_ok (s : Store) (p : Component) : ∃ s', flagLeft s p = .ok s' := by
  unfold flagLeft
  split_ifs with hlive
  · obtain ⟨e, he⟩ := Store.has_iff.1 hlive
    exact ⟨_, Store.update_eq he⟩
  · exact ⟨s, rfl⟩

/-- **Cleaning** a node succeeds and takes the stack back to its base. -/
theorem clean_ok (h : node.base ≤ d.stack.length) :
    ∃ d', d.clean node = .ok d' ∧ d'.stack = d.stack.take node.base := by
  obtain ⟨store, hstore⟩ : ∃ store, (d.stack.drop node.base).reverse.foldlM flagLeft d.store = .ok store := by
    generalize (d.stack.drop node.base).reverse = l
    induction l generalizing d with
    | nil => exact ⟨_, rfl⟩
    | cons p l ih =>
      obtain ⟨s, hs⟩ := flagLeft_ok d.store p
      obtain ⟨store, hrun⟩ := ih (d := { d with store := s }) h
      exact ⟨store, by rw [List.foldlM_cons, hs]; exact hrun⟩
  refine ⟨{ d with store := store, stack := d.stack.take node.base }, ?_, rfl⟩
  rw [clean, require_pos h, Except.ok_bind, hstore]
  rfl

end Decomposer

/-! ## Nests -/

/-- an open node, and the stack as it was when the node was opened -/
structure Level where
  node : Node
  below : List Component

/-- a decomposer and its open levels, the innermost first -/
structure Nest where
  decomposer : Decomposer
  levels : List Level

namespace Nest

/-- what is done on the innermost level -/
inductive Work where
  | findNext (values : Assignment)
  | split (values : Assignment)
  | sort (start stop : ℕ)
  | move (m : Session.Move)
  | clean
  | removePollutions

inductive Care where
  | cacheCount (index count : ℕ)
  | refresh
  | evict

/-- what a search loop does -/
inductive Op where
  | enter (index : ℕ)
  | leave
  | work (work : Work)
  | care (care : Care)

def Work.apply (d : Decomposer) (node : Node) : Work → Except Fault (Decomposer × Node)
  | .findNext values => do
    let (_, d, node) ← (d.findNext node values).result
    return (d, node)
  | .split values => (d.split node values).result
  | .sort start stop => do
    require (node.base ≤ start) .contract
    return (← d.sortRange start stop, node)
  | .move m => do return (d, ← m.apply node)
  | .clean => do return (← d.clean node, node)
  | .removePollutions => do return (← d.removePollutions node, node)

def Care.apply (d : Decomposer) : Care → Except Fault Decomposer
  | .cacheCount index count => (d.cacheCount index count).result
  | .refresh => .ok d.refresh
  | .evict => do return (← d.evict.result).2

def step (s : Nest) : Op → Except Fault Nest
  | .enter index =>
    .ok { s with levels := ⟨Node.start index s.decomposer.stack.length, s.decomposer.stack⟩ :: s.levels }
  | .leave =>
    match s.levels with
    | [] => .error .contract
    | level :: rest => do
      require (s.decomposer.stack.length ≤ level.node.base) .contract
      return ⟨s.decomposer, rest⟩
  | .work work =>
    match s.levels with
    | [] => .error .contract
    | level :: rest => do
      let (d, node) ← work.apply s.decomposer level.node
      return ⟨d, { level with node := node } :: rest⟩
  | .care care => do return ⟨← care.apply s.decomposer, s.levels⟩

def run (s : Nest) (ops : List Op) : Except Fault Nest := ops.foldlM step s

def start (d : Decomposer) : Nest := ⟨d, []⟩

/-- every level finds the stack as it was, up to its base, and the levels were opened one above the other -/
structure Nested (s : Nest) : Prop where
  base : ∀ level ∈ s.levels, level.node.base = level.below.length
  kept : ∀ level ∈ s.levels, level.below <+: s.decomposer.stack
  ordered : s.levels.Pairwise fun inner outer => outer.below <+: inner.below

def ground (s : Nest) : List Component := (s.levels.getLast?.map Level.below).getD s.decomposer.stack

variable {s s' : Nest} {d d' d₁ : Decomposer} {node node' node₁ : Node} {level : Level} {rest inner inner' : List Level}
  {ops : List Op} {below slice : List Component} {values : Assignment}

theorem Work.apply_above {work : Work} (hbelow : below <+: d.stack) (hbase : node.base = below.length)
    (hrun : work.apply d node = .ok (d', node')) : node'.base = node.base ∧ below <+: d'.stack := by
  cases work with
  | findNext values =>
    obtain ⟨⟨more, d₁, node₁⟩, hfind, hrun⟩ := exists_of_bind hrun
    cases hrun
    obtain ⟨h, hstack⟩ := Decomposer.findNext_above hfind
    exact ⟨h, hbelow.trans hstack⟩
  | split values =>
    obtain ⟨h, -, slice, hstack, -⟩ := Decomposer.split_above hrun
    exact ⟨h, hbelow.trans ⟨slice, hstack.symm⟩⟩
  | sort start stop =>
    obtain ⟨_, hstart, hrun⟩ := exists_of_bind hrun
    obtain ⟨d₁, hsort, hrun⟩ := exists_of_bind hrun
    cases hrun
    have hle : node.base ≤ start := (require_holds _).get hstart
    exact ⟨rfl, Decomposer.sortRange_prefix hbelow (hbase.ge.trans hle) hsort⟩
  | move m =>
    obtain ⟨node₁, hmove, hrun⟩ := exists_of_bind hrun
    cases hrun
    exact ⟨((Session.move_place m node).get hmove).2, hbelow⟩
  | clean =>
    obtain ⟨d₁, hclean, hrun⟩ := exists_of_bind hrun
    cases hrun
    obtain ⟨d₂, hclean', hstack⟩ := Decomposer.clean_ok (d := d) (hbase.le.trans hbelow.length_le)
    rw [hclean] at hclean'
    cases hclean'
    exact ⟨rfl, hstack ▸ List.prefix_take_iff.2 ⟨hbelow, hbase.ge⟩⟩
  | removePollutions =>
    obtain ⟨d₁, hremove, hrun⟩ := exists_of_bind hrun
    cases hrun
    unfold Decomposer.removePollutions at hremove
    obtain ⟨_, -, hremove⟩ := exists_of_bind hremove
    obtain ⟨_, -, hremove⟩ := exists_of_bind hremove
    obtain ⟨super, -, hremove⟩ := exists_of_bind hremove
    obtain ⟨_, -, hremove⟩ := exists_of_bind hremove
    obtain ⟨store, -, hremove⟩ := exists_of_bind hremove
    cases hremove
    exact ⟨rfl, hbelow⟩

theorem Care.apply_stack {care : Care} (hrun : care.apply d = .ok d') : d'.stack = d.stack := by
  cases care with
  | cacheCount index count =>
    replace hrun : (d.cacheCount index count).result = .ok d' := hrun
    unfold Decomposer.cacheCount at hrun
    split_ifs at hrun
    · simp only [Traced.result_bind, Traced.result_lift] at hrun
      obtain ⟨comp, -, hrun⟩ := exists_of_bind hrun
      obtain ⟨store, -, hrun⟩ := exists_of_bind hrun
      cases hrun
      rfl
    · cases hrun
      rfl
  | refresh =>
    cases hrun
    rfl
  | evict =>
    obtain ⟨r, hevict, hrun⟩ := exists_of_bind hrun
    cases hrun
    rw [Decomposer.evict, Traced.result_bind] at hevict
    obtain ⟨r', -, hevict⟩ := exists_of_bind hevict
    cases hevict
    rfl

theorem ground_cons : (⟨d, level :: rest⟩ : Nest).ground = (rest.getLast?.map Level.below).getD level.below := by
  simp only [ground, List.getLast?_cons, Option.map_some, Option.getD_some]
  cases rest.getLast? <;> rfl

/-- **Step.** Every level keeps the stack below it, and what stands below all of them stays. -/
theorem step_nested (h : Nested s) {op : Op} (hstep : s.step op = .ok s') : Nested s' ∧ s'.ground = s.ground := by
  obtain ⟨d, levels⟩ := s
  cases op with
  | enter index =>
    cases hstep
    refine ⟨⟨?_, ?_, List.pairwise_cons.2 ⟨h.kept, h.ordered⟩⟩, ground_cons⟩
    · exact List.forall_mem_cons.2 ⟨rfl, h.base⟩
    · exact List.forall_mem_cons.2 ⟨List.prefix_rfl, h.kept⟩
  | leave =>
    cases levels with
    | nil => cases hstep
    | cons level rest =>
      obtain ⟨_, hclean, hstep⟩ := exists_of_bind hstep
      cases hstep
      have hle : d.stack.length ≤ level.node.base := (require_holds _).get hclean
      -- what the level has pushed is popped
      have hbelow : level.below = d.stack :=
        (h.kept level (by simp)).eq_of_length_le (hle.trans (h.base level (by simp)).le)
      refine ⟨⟨fun l hl => h.base l (List.mem_cons_of_mem _ hl), fun l hl => h.kept l (List.mem_cons_of_mem _ hl),
        (List.pairwise_cons.1 h.ordered).2⟩, ?_⟩
      rw [ground_cons, hbelow]
      rfl
  | work work =>
    cases levels with
    | nil => cases hstep
    | cons level rest =>
      obtain ⟨⟨d', node'⟩, hwork, hstep⟩ := exists_of_bind hstep
      cases hstep
      have hlevel := h.base level (by simp)
      obtain ⟨hbase, hbelow⟩ := Work.apply_above (h.kept level (by simp)) hlevel hwork
      have hordered := List.pairwise_cons.1 h.ordered
      refine ⟨⟨?_, ?_, List.pairwise_cons.2 hordered⟩, by rw [ground_cons, ground_cons]⟩
      · exact List.forall_mem_cons.2 ⟨hbase.trans hlevel, fun l hl => h.base l (List.mem_cons_of_mem _ hl)⟩
      · exact List.forall_mem_cons.2 ⟨hbelow, fun l hl => (hordered.1 l hl).trans hbelow⟩
  | care care =>
    obtain ⟨d', hcare, hstep⟩ := exists_of_bind hstep
    cases hstep
    have hstack := Care.apply_stack hcare
    refine ⟨⟨h.base, fun l hl => ?_, h.ordered⟩, ?_⟩
    · exact hstack ▸ h.kept l hl
    · simp only [ground, hstack]

/-- **Run.** And so does a run. -/
theorem run_nested (h : Nested s) (hrun : s.run ops = .ok s') : Nested s' ∧ s'.ground = s.ground := by
  induction ops generalizing s with
  | nil =>
    cases hrun
    exact ⟨h, rfl⟩
  | cons op ops ih =>
    rw [run, List.foldlM_cons] at hrun
    obtain ⟨s₁, hstep, hrun⟩ := exists_of_bind hrun
    obtain ⟨h₁, hground₁⟩ := step_nested h hstep
    obtain ⟨h', hground⟩ := ih h₁ hrun
    exact ⟨h', hground.trans hground₁⟩

theorem nested_start (d : Decomposer) : Nested (start d) := ⟨nofun, nofun, List.Pairwise.nil⟩

/-- a run that leaves every level it opens leaves the stack as it was -/
theorem run_closed (hrun : (start d).run ops = .ok s) (hclosed : s.levels = []) : s.decomposer.stack = d.stack := by
  have hground := (run_nested (nested_start d) hrun).2
  unfold ground at hground
  rw [hclosed] at hground
  exact hground

/-- cleaning a level -/
theorem Nested.clean (h : Nested s) (hlevel : level ∈ s.levels) :
    ∃ d', s.decomposer.clean level.node = .ok d' ∧ d'.stack = level.below := by
  have hbelow := h.kept level hlevel
  have hbase := h.base level hlevel
  obtain ⟨d', hclean, hstack⟩ := Decomposer.clean_ok (d := s.decomposer) (hbase.le.trans hbelow.length_le)
  exact ⟨d', hclean, by rw [hstack, hbase, ← List.prefix_iff_eq_take.1 hbelow]⟩

/-! ## Deeper levels -/

theorem Work.apply_findNext {more : Bool} (hfind : (d.findNext node values).result = .ok (more, d', node')) :
    (Work.findNext values).apply d node = .ok (d', node') := by
  simp only [apply, hfind]
  rfl

theorem step_work {work : Work} (hwork : work.apply d level.node = .ok (d', node')) :
    (⟨d, level :: rest⟩ : Nest).step (.work work) = .ok ⟨d', { level with node := node' } :: rest⟩ := by
  simp only [step, hwork]
  rfl

theorem run_work {work : Work} (hwork : work.apply d level.node = .ok (d', node')) :
    (⟨d, level :: rest⟩ : Nest).run [.work work] = .ok ⟨d', { level with node := node' } :: rest⟩ := by
  rw [run, List.foldlM_cons, step_work hwork]
  rfl

/-- what deeper levels do is a step of the whole nest -/
theorem step_outer {op : Op} (outer : List Level) (hstep : (⟨d, inner⟩ : Nest).step op = .ok ⟨d', inner'⟩) :
    (⟨d, inner ++ outer⟩ : Nest).step op = .ok ⟨d', inner' ++ outer⟩ := by
  cases op with
  | enter index =>
    cases hstep
    rfl
  | leave =>
    cases inner with
    | nil => cases hstep
    | cons level rest =>
      obtain ⟨⟨⟩, hclean, hstep⟩ := exists_of_bind hstep
      cases hstep
      simp only at hclean
      simp only [List.cons_append, step, hclean]
      rfl
  | work work =>
    cases inner with
    | nil => cases hstep
    | cons level rest =>
      obtain ⟨⟨d₁, node₁⟩, hwork, hstep⟩ := exists_of_bind hstep
      cases hstep
      rw [List.cons_append, step_work hwork]
      rfl
  | care care =>
    obtain ⟨d₁, hcare, hstep⟩ := exists_of_bind hstep
    cases hstep
    rw [step, hcare]
    rfl

theorem run_outer (outer : List Level) (hrun : (⟨d, inner⟩ : Nest).run ops = .ok ⟨d', inner'⟩) :
    (⟨d, inner ++ outer⟩ : Nest).run ops = .ok ⟨d', inner' ++ outer⟩ := by
  induction ops generalizing d inner with
  | nil =>
    cases hrun
    rfl
  | cons op ops ih =>
    rw [run, List.foldlM_cons] at hrun ⊢
    obtain ⟨⟨d₁, inner₁⟩, hstep, hrun⟩ := exists_of_bind hrun
    rw [step_outer outer hstep]
    exact ih hrun

theorem run_append {ops' : List Op} (hrun : s.run ops = .ok s') : s.run (ops ++ ops') = s'.run ops' := by
  rw [run, List.foldlM_append]
  exact congrArg (fun r => r >>= fun s => s.run ops') hrun

/-! ## The loop over a slice -/

/-- a round of a loop: the values under which the level is asked, what is done on deeper levels, and the factors that
the level is given -/
structure Round where
  values : Assignment
  ops : List Op
  factors : List ℕ

def Round.steps (r : Round) : List Op :=
  [.work (.findNext r.values)] ++
    (r.ops ++ (r.factors.map (fun m => .work (.move (.times m))) ++ [.work (.move .next)]))

/-- a loop at work on a level, and the components it has got so far, with their indices -/
structure Loop where
  decomposer : Decomposer
  node : Node
  seen : List (Component × ℕ)

namespace Loop

def start (d : Decomposer) (node : Node) : Loop := ⟨d, node, []⟩

def step (s : Loop) (r : Round) : Except Fault Loop := do
  let (more, d, node) ← (s.decomposer.findNext s.node r.values).result
  require (more = true) .contract
  let index ← node.current
  let comp ← d.currentOf node
  let deeper ← (Nest.start d).run r.ops
  require (deeper.levels.isEmpty = true) .contract
  let node ← (r.factors.foldl Node.times node).next
  return ⟨deeper.decomposer, node, s.seen ++ [(comp, index)]⟩

def run (s : Loop) (rounds : List Round) : Except Fault Loop := rounds.foldlM step s

/-- where a loop over a slice stands after `k` rounds -/
structure After (below slice : List Component) (k : ℕ) (s : Loop) : Prop where
  le : k ≤ slice.length
  stack : s.decomposer.stack = below ++ slice
  base : s.node.base = below.length
  cursor : s.node.cursor = below.length + (slice.length - k)
  seen : s.seen = (slice.zipIdx below.length).reverse.take k

variable {s t : Loop} {r : Round} {rounds : List Round} {k : ℕ}

theorem place_foldl_times (node : Node) (factors : List ℕ) :
    (factors.foldl Node.times node).base = node.base ∧ (factors.foldl Node.times node).cursor = node.cursor := by
  rw [Node.foldl_times]
  exact ⟨Node.base_setActive, Node.cursor_setActive⟩

namespace After

/-- the components that the loop gets grow -/
theorem rising (h : After below slice k s) (hsorted : slice.Pairwise fun p q => q.numVars ≤ p.numVars) :
    s.seen.Pairwise fun p q => p.1.numVars ≤ q.1.numVars := by
  have hpairs : (slice.zipIdx below.length).Pairwise fun p q => q.1.numVars ≤ p.1.numVars := by
    rw [← List.zipIdx_map_fst below.length slice] at hsorted
    exact List.pairwise_map.1 hsorted
  rw [h.seen]
  exact (List.pairwise_reverse.2 hpairs).sublist (List.take_sublist _ _)

/-- a question changes nothing, and its answer is whether a component is left -/
theorem findNext (h : After below slice k s) (hne : slice ≠ []) (hopen : s.node.foundUnsat = false)
    (values : Assignment) : (s.decomposer.findNext s.node values).result =
      .ok (decide (k < slice.length), s.decomposer, if k < slice.length then s.node else s.node.times 1) := by
  have hpos := List.length_pos_of_ne_nil hne
  have hmore : s.node.hasUnprocessed = decide (k < slice.length) := by
    rw [Node.hasUnprocessed, decide_eq_decide, h.base, h.cursor]
    omega
  rw [Decomposer.findNext_again hopen (by rw [h.base, h.stack, List.length_append]; omega), hmore]
  simp only [decide_eq_true_eq]

/-- the component the loop has come to -/
theorem current (h : After below slice k s) (hk : k < slice.length) : ∃ comp index, s.node.current = .ok index ∧
    s.decomposer.currentOf s.node = .ok comp ∧ (slice.zipIdx below.length).reverse[k]? = some (comp, index) := by
  have hplace : slice.length - 1 - k < slice.length := by omega
  have hindex : s.node.current = .ok (below.length + (slice.length - 1 - k)) := by
    have hmore : s.node.hasUnprocessed = true := decide_eq_true (by rw [h.base, h.cursor]; omega)
    rw [Node.current, if_pos hmore, h.cursor]
    exact congrArg Except.ok (by omega)
  refine ⟨slice[slice.length - 1 - k], _, hindex, ?_, ?_⟩
  · rw [Decomposer.currentOf, hindex, Except.ok_bind]
    refine Decomposer.held_of_getElem? ?_
    rw [h.stack, List.getElem?_append_right (Nat.le_add_right _ _), Nat.add_sub_cancel_left]
    exact List.getElem?_eq_getElem hplace
  · rw [List.getElem?_reverse (by rwa [List.length_zipIdx]), List.length_zipIdx, List.getElem?_zipIdx,
      List.getElem?_eq_getElem hplace]
    rfl

/-- the level takes factors and goes on -/
theorem next (h : After below slice k s) (hk : k < slice.length) (factors : List ℕ) :
    ∃ node, (factors.foldl Node.times s.node).next = .ok node ∧ node.base = below.length ∧
      node.cursor = below.length + (slice.length - (k + 1)) := by
  obtain ⟨hbase, hcursor⟩ := place_foldl_times s.node factors
  refine ⟨_, if_pos (decide_eq_true ?_), hbase.trans h.base, ?_⟩
  · rw [hbase, hcursor, h.base, h.cursor]
    omega
  · show (factors.foldl Node.times s.node).cursor - 1 = _
    rw [hcursor, h.cursor]
    omega

/-- **Round.** Where a component is left, a round whose deeper levels meet no fault and are left again goes through. -/
theorem goes_on (h : After below slice k s) (hk : k < slice.length) (hopen : s.node.foundUnsat = false)
    {deeper : Nest} (hdeeper : (Nest.start s.decomposer).run r.ops = .ok deeper) (hclosed : deeper.levels = []) :
    ∃ t, s.step r = .ok t := by
  obtain ⟨comp, index, hindex, hcomp, -⟩ := h.current hk
  obtain ⟨node, hnext, -, -⟩ := h.next hk r.factors
  have hne : slice ≠ [] := List.ne_nil_of_length_pos (Nat.zero_lt_of_lt hk)
  refine ⟨⟨deeper.decomposer, node, s.seen ++ [(comp, index)]⟩, ?_⟩
  unfold step
  rw [h.findNext hne hopen, Except.ok_bind]
  simp only [hk, decide_true, if_true, require_pos, Except.ok_bind, hindex, hcomp, hdeeper, hclosed, List.isEmpty_nil,
    hnext]
  rfl

end After

/-- the steps of a round -/
theorem step_steps (hstep : s.step r = .ok t) : ∃ d node index comp deeper,
    (s.decomposer.findNext s.node r.values).result = .ok (true, d, node) ∧ node.current = .ok index ∧
      d.currentOf node = .ok comp ∧ (Nest.start d).run r.ops = .ok ⟨deeper, []⟩ ∧
      (r.factors.foldl Node.times node).next = .ok t.node ∧ t.decomposer = deeper ∧
      t.seen = s.seen ++ [(comp, index)] := by
  obtain ⟨⟨more, d, node⟩, hfind, hstep⟩ := exists_of_bind hstep
  obtain ⟨_, hmore, hstep⟩ := exists_of_bind hstep
  obtain ⟨index, hindex, hstep⟩ := exists_of_bind hstep
  obtain ⟨comp, hcomp, hstep⟩ := exists_of_bind hstep
  obtain ⟨⟨deeper, levels⟩, hdeeper, hstep⟩ := exists_of_bind hstep
  obtain ⟨_, hclosed, hstep⟩ := exists_of_bind hstep
  obtain ⟨node', hnext, hstep⟩ := exists_of_bind hstep
  cases hstep
  cases more with
  | false => cases hmore
  | true =>
    cases levels with
    | cons level rest => cases hclosed
    | nil => exact ⟨d, node, index, comp, deeper, hfind, hindex, hcomp, hdeeper, hnext, rfl, rfl⟩

/-- **Round.** Whatever is done on deeper levels, the loop gets the component below the last one. -/
theorem step_after (h : After below slice k s) (hne : slice ≠ []) (hstep : s.step r = .ok t) :
    After below slice (k + 1) t := by
  obtain ⟨d, node, index, comp, deeper, hfind, hindex, hcomp, hdeeper, hnext, hd, hseen⟩ := step_steps hstep
  obtain ⟨hopen, -⟩ := Counter.findNext_cases hfind
  rw [h.findNext hne hopen] at hfind
  have hk : k < slice.length := of_decide_eq_true (congrArg Prod.fst (Except.ok.inj hfind))
  rw [decide_eq_true hk, if_pos hk] at hfind
  cases hfind
  obtain ⟨comp', index', hindex', hcomp', hplace⟩ := h.current hk
  obtain ⟨node', hnext', hbase, hcursor⟩ := h.next hk r.factors
  rw [hindex] at hindex'
  rw [hcomp] at hcomp'
  rw [hnext] at hnext'
  cases hindex'
  cases hcomp'
  cases hnext'
  refine ⟨hk, ?_, hbase, hcursor, ?_⟩
  · rw [hd, run_closed hdeeper rfl, h.stack]
  · rw [hseen, h.seen, List.take_add_one, hplace]
    rfl

/-- **Loop.** -/
theorem run_after (h : After below slice k s) (hne : slice ≠ []) (hrun : s.run rounds = .ok t) :
    After below slice (k + rounds.length) t := by
  induction rounds generalizing s k with
  | nil =>
    cases hrun
    exact h
  | cons r rounds ih =>
    rw [run, List.foldlM_cons] at hrun
    obtain ⟨s₁, hstep, hrun⟩ := exists_of_bind hrun
    have h' := ih (step_after h hne hstep) hrun
    rwa [List.length_cons, Nat.add_comm rounds.length 1, ← Nat.add_assoc]

/-- the steps of a round are steps of the nest -/
theorem step_nest (below : List Component) (outer : List Level) (hstep : s.step r = .ok t) :
    (⟨s.decomposer, ⟨s.node, below⟩ :: outer⟩ : Nest).run r.steps =
      .ok ⟨t.decomposer, ⟨t.node, below⟩ :: outer⟩ := by
  obtain ⟨d, node, index, comp, deeper, hfind, -, -, hdeeper, hnext, hd, -⟩ := step_steps hstep
  have htimes : ∀ (factors : List ℕ) (node : Node), (⟨deeper, ⟨node, below⟩ :: outer⟩ : Nest).run
      (factors.map fun m => .work (.move (.times m))) =
        .ok ⟨deeper, ⟨factors.foldl Node.times node, below⟩ :: outer⟩ := by
    intro factors
    induction factors with
    | nil => exact fun _ => rfl
    | cons m factors ih => exact fun node => ih (node.times m)
  have hmoved : Work.apply deeper (r.factors.foldl Node.times node) (.move .next) = .ok (deeper, t.node) := by
    simp only [Work.apply, Session.Move.apply, hnext]
    rfl
  have hdone : (⟨d, ⟨node, below⟩ :: outer⟩ : Nest).run r.ops = .ok ⟨deeper, ⟨node, below⟩ :: outer⟩ :=
    run_outer (⟨node, below⟩ :: outer) hdeeper
  rw [Round.steps, run_append (run_work (Work.apply_findNext hfind)), run_append hdone,
    run_append (htimes r.factors node), run_work hmoved, hd]

/-- the steps of a loop are steps of the nest -/
theorem run_nest (below : List Component) (outer : List Level) (hrun : s.run rounds = .ok t) :
    (⟨s.decomposer, ⟨s.node, below⟩ :: outer⟩ : Nest).run (rounds.flatMap Round.steps) =
      .ok ⟨t.decomposer, ⟨t.node, below⟩ :: outer⟩ := by
  induction rounds generalizing s with
  | nil =>
    cases hrun
    rfl
  | cons r rounds ih =>
    rw [run, List.foldlM_cons] at hrun
    obtain ⟨s₁, hstep, hrun⟩ := exists_of_bind hrun
    rw [List.flatMap_cons, run_append (step_nest below outer hstep)]
    exact ih hrun

end Loop

/-- **Levels keep their components.** In every run, last in, first out, each open level finds the stack as it was when
the level was opened, and cleaning the level leaves just that. When the innermost level is split, it answers that there
is a component to solve exactly if one was pushed, unless its branch turns out unsatisfiable. Then a loop over the level
gets the pushed components with their indices, each once, from the top down, the smaller ones first, whatever is done on
deeper levels between the rounds. Unless the branch becomes unsatisfiable, the loop comes to an end only after the last
component, and nothing but a fault on a deeper level stops it before. All of it is part of a run. -/
theorem run_exact (hrun : (start d).run ops = .ok s) :
    (∀ level ∈ s.levels, level.node.base = level.below.length ∧ level.below <+: s.decomposer.stack ∧
      ∃ d', s.decomposer.clean level.node = .ok d' ∧ d'.stack = level.below) ∧
    ∀ level rest values more d₁ node₁, s.levels = level :: rest → s.decomposer.stack.length ≤ level.node.base →
      (s.decomposer.findNext level.node values).result = .ok (more, d₁, node₁) →
      ∃ slice, d₁.stack = level.below ++ slice ∧ (more = true ↔ slice ≠ [] ∧ node₁.foundUnsat = false) ∧
        (more = true → ∀ rounds t, (Loop.start d₁ node₁).run rounds = .ok t →
          rounds.length ≤ slice.length ∧
          t.seen = (slice.zipIdx level.below.length).reverse.take rounds.length ∧
          t.seen.Pairwise (fun p q => p.1.numVars ≤ q.1.numVars) ∧
          t.decomposer.stack = d₁.stack ∧
          (start d).run (ops ++ ([.work (.findNext values)] ++ rounds.flatMap Round.steps)) =
            .ok ⟨t.decomposer, { level with node := t.node } :: rest⟩ ∧
          (t.node.foundUnsat = false →
            (∀ values, (t.decomposer.findNext t.node values).result = .ok (decide (rounds.length < slice.length),
              t.decomposer, if rounds.length < slice.length then t.node else t.node.times 1)) ∧
            ∀ r deeper, rounds.length < slice.length → (start t.decomposer).run r.ops = .ok deeper →
              deeper.levels = [] → ∃ t', t.step r = .ok t')) := by
  obtain ⟨h, -⟩ := run_nested (nested_start d) hrun
  refine ⟨fun level hlevel => ⟨h.base level hlevel, h.kept level hlevel, h.clean hlevel⟩, ?_⟩
  intro level rest values more d₁ node₁ hlevels hclean hfind
  have hlevel : level ∈ s.levels := by rw [hlevels]; simp
  have hbase := h.base level hlevel
  have hbelow : level.below = s.decomposer.stack := (h.kept level hlevel).eq_of_length_le (hclean.trans hbase.le)
  obtain ⟨hbase₁, hcursor, slice, hstack, hsorted, hanswer⟩ := Decomposer.findNext_split (hbelow ▸ hbase) hfind
  rw [← hbelow] at hstack
  refine ⟨slice, hstack, hanswer, fun hmore rounds t hloop => ?_⟩
  obtain ⟨hne, -⟩ := hanswer.1 hmore
  have hstart : Loop.After level.below slice 0 (Loop.start d₁ node₁) := by
    refine ⟨Nat.zero_le _, hstack, hbase₁.trans hbase, ?_, rfl⟩
    rw [Nat.sub_zero, ← List.length_append, ← hstack]
    exact hcursor
  have hafter := Loop.run_after hstart hne hloop
  rw [Nat.zero_add] at hafter
  refine ⟨hafter.le, hafter.seen, hafter.rising hsorted, hafter.stack.trans hstack.symm, ?_,
    fun hopen => ⟨hafter.findNext hne hopen, ?_⟩⟩
  · obtain ⟨d₂, levels⟩ := s
    cases hlevels
    rw [run_append hrun, run_append (run_work (Work.apply_findNext hfind))]
    exact Loop.run_nest level.below rest hloop
  · exact fun r deeper hk hdeeper hclosed => hafter.goes_on hk hopen hdeeper hclosed

/-- the values that make some literals over 8 variables true -/
def chainValues (l : List ℤ) : Assignment := ((Assignment.empty 8).assignAll (l.map Lit.ofInt)).toOption.getD default

/-- the root splits into the classes of 3 to 8 and of 1 and 2, and a level is opened for the first -/
def chainOpened : List Op := [.enter 1, .work (.findNext (chainValues [])), .enter 2]

/-- that level is split where 5 is true; a deeper one finds nothing to push, and what another one pushes is evicted -/
def chainRounds : List Round :=
  [⟨chainValues [5], [.enter 5, .work (.findNext (chainValues [5, 3])), .work .clean, .leave], [3]⟩,
    ⟨chainValues [5], [.care (.cacheCount 5 3), .enter 4, .work (.findNext (chainValues [5, 8])), .work (.sort 6 7),
      .care (.cacheCount 6 3), .work .clean, .leave, .care .evict], [5]⟩]

theorem run_exact_chain : ∃ f d₀ d s level rest d₁ node₁ t,
    Formula.ofClauses 8 [[1, 2], [3, 4], [4, 5], [5, 6], [6, 7], [7, 8]] = .ok f ∧
    Decomposer.new ⟨true, 0, 0⟩ = .ok d₀ ∧ (d₀.load f).result = .ok d ∧ (start d).run chainOpened = .ok s ∧
    s.levels = level :: rest ∧ rest.length = 1 ∧ (∀ level ∈ s.levels, level.below <+: s.decomposer.stack) ∧
    (s.decomposer.findNext level.node (chainValues [5])).result = .ok (true, d₁, node₁) ∧
    (Loop.start d₁ node₁).run chainRounds = .ok t ∧
    t.seen.map (fun p => (p.1.vars, p.2)) = [([⟨3⟩, ⟨4⟩], 5), ([⟨6⟩, ⟨7⟩, ⟨8⟩], 4)] ∧
    ∃ slice, d₁.stack = level.below ++ slice ∧ t.seen = (slice.zipIdx level.below.length).reverse.take 2 := by
  obtain ⟨f, hf, hview⟩ : ∃ f, Formula.ofClauses 8 [[1, 2], [3, 4], [4, 5], [5, 6], [6, 7], [7, 8]] = .ok f ∧
      (do
        let d₀ ← Decomposer.new ⟨true, 0, 0⟩
        let d ← (d₀.load f).result
        let s ← (start d).run chainOpened
        let (level, rest) ← s.levels.head?.elim (.error .contract) fun level => .ok (level, s.levels.drop 1)
        let (more, d₁, node₁) ← (s.decomposer.findNext level.node (chainValues [5])).result
        let t ← (Loop.start d₁ node₁).run chainRounds
        return (rest.length, s.decomposer.stack.length - level.node.base, more,
          t.seen.map fun p => (p.1.vars, p.2)) : Except Fault _).toOption =
        some (1, 0, true, [([⟨3⟩, ⟨4⟩], 5), ([⟨6⟩, ⟨7⟩, ⟨8⟩], 4)]) := ⟨_, rfl, by cbv⟩
  obtain ⟨d₀, hnew, hview⟩ := exists_of_bind (Except.eq_ok_of_toOption hview)
  obtain ⟨d, hload, hview⟩ := exists_of_bind hview
  obtain ⟨s, hrun, hview⟩ := exists_of_bind hview
  obtain ⟨⟨level, rest⟩, hlevel, hview⟩ := exists_of_bind hview
  obtain ⟨⟨more, d₁, node₁⟩, hfind, hview⟩ := exists_of_bind hview
  obtain ⟨t, hloop, hview⟩ := exists_of_bind hview
  have hseen := Except.ok.inj hview
  simp only [Prod.mk.injEq] at hseen
  obtain ⟨hrest, hbase, rfl, hseen⟩ := hseen
  have hlevels : s.levels = level :: rest := by
    cases hs : s.levels with
    | nil =>
      rw [hs] at hlevel
      cases hlevel
    | cons a l =>
      rw [hs] at hlevel
      cases hlevel
      rfl
  obtain ⟨hkept, hvisit⟩ := run_exact hrun
  obtain ⟨slice, hstack, -, hall⟩ :=
    hvisit level rest (chainValues [5]) true d₁ node₁ hlevels (Nat.le_of_sub_eq_zero hbase) hfind
  exact ⟨f, d₀, d, s, level, rest, d₁, node₁, t, hf, hnew, hload, hrun, hlevels, hrest, fun l hl => (hkept l hl).2.1,
    hfind, hloop, hseen, slice, hstack, (hall rfl chainRounds t hloop).2.1⟩

end Nest

end ModelCount
