/-
What a node counts over any run of its operations.

A branch is given factors and marks, in any order, and all that matters of them is which they are (`Branch.gathered`):
one 0 or one mark settles it for good, and else it counts the product (`take_gathered`). A node gives to its first branch
before it changes branches and to its second one after (`given`). Its cursor goes its own way (`cursorAfter`). So a run
ends where these three lead (`run_eq`), and neither half of the node has an influence on the other.
-/
import Mathlib.Tactic
import ModelCount.Proofs.Branch
import ModelCount.Proofs.Outcome

namespace ModelCount

namespace Branch

/-- what a branch may be given: a factor, or the mark that it has no models -/
inductive Gift where
  | factor (k : ℕ)
  | mark
  deriving DecidableEq, Repr

def take (b : Branch) : Gift → Branch
  | .factor k => b.times k
  | .mark => .settled

def factors (gifts : List Gift) : List ℕ := gifts.filterMap fun g => match g with
  | .factor k => some k
  | .mark => none

def Settling (gifts : List Gift) : Prop := .mark ∈ gifts ∨ .factor 0 ∈ gifts

instance (gifts : List Gift) : Decidable (Settling gifts) := inferInstanceAs (Decidable (_ ∨ _))

def gathered (gifts : List Gift) : Branch :=
  if Settling gifts then .settled
  else ⟨if factors gifts = [] then 0 else (factors gifts).prod, false⟩

variable {gifts gifts' : List Gift}

theorem mem_factors {k : ℕ} : k ∈ factors gifts ↔ .factor k ∈ gifts := by
  simp only [factors, List.mem_filterMap]
  constructor
  · intro hex
    obtain ⟨g, hg, heq⟩ := hex
    cases g with
    | factor k' => cases heq; exact hg
    | mark => cases heq
  · intro hk
    exact ⟨_, hk, rfl⟩

theorem settling_append_singleton {g : Gift} :
    Settling (gifts ++ [g]) ↔ Settling gifts ∨ g = .mark ∨ g = .factor 0 := by
  simp only [Settling, List.mem_append, List.mem_singleton, eq_comm (a := g)]
  tauto

/-- one more gift -/
theorem take_gathered (gifts : List Gift) (g : Gift) : (gathered gifts).take g = gathered (gifts ++ [g]) := by
  cases g with
  | mark => exact (if_pos (settling_append_singleton.2 (.inr (.inl rfl)))).symm
  | factor k =>
    have hfactors : factors (gifts ++ [.factor k]) = factors gifts ++ [k] := List.filterMap_append
    by_cases hs : Settling gifts
    · rw [gathered, gathered, if_pos hs, if_pos (settling_append_singleton.2 (.inl hs))]
      rfl
    by_cases hk : k = 0
    · rw [gathered, gathered, if_neg hs, if_pos (settling_append_singleton.2 (.inr (.inr (congrArg _ hk)))), hk]
      by_cases hnone : factors gifts = [] <;> simp [take, times, settled, hnone]
    · have hs' : ¬ Settling (gifts ++ [.factor k]) := by simp [settling_append_singleton, hs, hk]
      rw [gathered, gathered, if_neg hs, if_neg hs', hfactors]
      by_cases hnone : factors gifts = []
      · simp [take, times, hnone, hk]
      · have hzero : 0 ∉ factors gifts := fun h => hs (.inr (mem_factors.1 h))
        simp [take, times, hnone, hk, hzero]

def takes (b : Branch) (gift : Option Gift) : Branch := gift.elim b b.take

theorem takes_gathered (gifts : List Gift) (gift : Option Gift) :
    (gathered gifts).takes gift = gathered (gifts ++ gift.toList) := by
  cases gift with
  | none => simp [takes]
  | some g => exact take_gathered gifts g

theorem unsat_gathered : (gathered gifts).unsat = true ↔ Settling gifts := by
  unfold gathered
  split_ifs with h <;> simp [h, settled]

theorem coherent_gathered (gifts : List Gift) : (gathered gifts).Coherent := by
  intro h
  rw [gathered, if_pos (unsat_gathered.1 h)]
  rfl

/-- the order of the gifts does not matter -/
theorem gathered_perm (h : gifts.Perm gifts') : gathered gifts = gathered gifts' := by
  have hsettling : Settling gifts ↔ Settling gifts' := or_congr h.mem_iff h.mem_iff
  have hfactors : (factors gifts).Perm (factors gifts') := h.filterMap _
  have hnone : factors gifts = [] ↔ factors gifts' = [] := by
    rw [← List.length_eq_zero_iff, ← List.length_eq_zero_iff, hfactors.length_eq]
  simp only [gathered, hsettling, hnone, hfactors.prod_eq]

end Branch

namespace Node

/-- an operation of a node: give the active branch a factor or a mark, change branches, or move or read the cursor -/
inductive Op where
  | times (factor : ℕ)
  | markUnsat
  | changeBranch
  | setEnd (stop : ℕ)
  | next
  | resetCursor
  | current
  deriving DecidableEq, Repr

def step (node : Node) : Op → Except Fault Node
  | .times factor => .ok (node.times factor)
  | .markUnsat => .ok node.markUnsat
  | .changeBranch => node.changeBranch
  | .setEnd stop => node.setEnd stop
  | .next => node.next
  | .resetCursor => .ok node.resetCursor
  | .current => do
    let _ ← node.current
    return node

def run (node : Node) (ops : List Op) : Except Fault Node := ops.foldlM step node

def branch (node : Node) (second : Bool) : Branch := if second then node.second else node.first

namespace Op

def gift : Op → Option Branch.Gift
  | times factor => some (.factor factor)
  | markUnsat => some .mark
  | _ => none

def onCursor : Op → Bool
  | setEnd _ | next | resetCursor | current => true
  | _ => false

/-- where an operation takes the cursor; none if it is refused -/
def cursorAfter (base cursor : ℕ) : Op → Option ℕ
  | setEnd stop => if base ≤ stop then some stop else none
  | next => if base < cursor then some (cursor - 1) else none
  | resetCursor => some base
  | current => if base < cursor then some cursor else none
  | _ => some cursor

end Op

/-- what a branch is given in a run: the first one before the branches are changed, the second one afterwards -/
def given (second : Bool) (ops : List Op) : List Branch.Gift :=
  (if second then ops.dropWhile (· != .changeBranch) else ops.takeWhile (· != .changeBranch)).filterMap Op.gift

/-- where a run takes the cursor; none if one of its operations is refused -/
def cursorAfter (base : ℕ) (ops : List Op) : Option ℕ := ops.foldlM (Op.cursorAfter base) base

/-- the node that a run leads to, and none if it is refused: it changes branches once at most, and never moves the
cursor below the base -/
def runEnd (superIndex base : ℕ) (ops : List Op) : Option Node :=
  if ops.count .changeBranch ≤ 1 then
    (cursorAfter base ops).map fun cursor => ⟨superIndex, base, cursor, decide (.changeBranch ∈ ops),
      .gathered (given false ops), .gathered (given true ops)⟩
  else none

variable {ops ops' : List Op} {op : Op} {superIndex base : ℕ} {node : Node}

theorem given_cons (second : Bool) (op : Op) (ops : List Op) :
    given second (op :: ops) =
      if op = .changeBranch then if second then ops.filterMap Op.gift else []
      else (if second then [] else op.gift.toList) ++ given second ops := by
  by_cases hop : op = .changeBranch
  · subst hop
    cases second with
    | false => simp [given]
    | true => simpa [given] using List.filterMap_cons_none rfl
  · cases second <;> cases hgift : op.gift <;> simp [given, hop, hgift]

/-- the last operation of a run gives to the branch that is active then -/
theorem given_append_singleton (second : Bool) (ops : List Op) (op : Op) :
    given second (ops ++ [op]) =
      given second ops ++ if decide (.changeBranch ∈ ops) = second then op.gift.toList else [] := by
  induction ops with
  | nil => cases second <;> cases op <;> rfl
  | cons x ops ih =>
    rw [List.cons_append, given_cons, given_cons]
    by_cases hx : x = .changeBranch
    · subst hx
      cases second <;> cases hgift : op.gift <;> simp [hgift]
    · have hmem : .changeBranch ∈ x :: ops ↔ .changeBranch ∈ ops := by simp [Ne.symm hx]
      rw [if_neg hx, if_neg hx, ih, List.append_assoc]
      simp only [hmem]

theorem cursorAfter_append_singleton (base : ℕ) (ops : List Op) (op : Op) :
    cursorAfter base (ops ++ [op]) = (cursorAfter base ops).bind fun cursor => op.cursorAfter base cursor := by
  simp [cursorAfter, List.foldlM_append]

theorem run_append_singleton (node : Node) (ops : List Op) (op : Op) :
    node.run (ops ++ [op]) = node.run ops >>= fun node => node.step op := by
  simp only [run, List.foldlM_append, List.foldlM_cons, List.foldlM_nil, bind_pure]

/-- **What one operation does** to a node. A second change of branches is refused, and so is what takes the cursor
below the base; the active branch takes what the operation gives, and the other one stays as it is. -/
theorem step_eq (node : Node) (op : Op) :
    (node.step op).toOption =
      if op = .changeBranch ∧ node.onSecond = true then none
      else (op.cursorAfter node.base node.cursor).map fun cursor =>
        ⟨node.superIndex, node.base, cursor, node.onSecond || decide (op = .changeBranch),
          if node.onSecond then node.first else node.first.takes op.gift,
          if node.onSecond then node.second.takes op.gift else node.second⟩ := by
  obtain ⟨superIndex, base, cursor, onSecond, first, second⟩ := node
  cases op with
  | times k => cases onSecond <;> rfl
  | markUnsat => cases onSecond <;> rfl
  | changeBranch => cases onSecond <;> rfl
  | setEnd stop =>
    by_cases h : base ≤ stop <;> cases onSecond <;>
      simp [step, setEnd, Op.cursorAfter, Op.gift, Branch.takes, h, Except.toOption]
  | next =>
    by_cases h : base < cursor <;> cases onSecond <;>
      simp [step, next, hasUnprocessed, Op.cursorAfter, Op.gift, Branch.takes, h, Except.toOption]
  | resetCursor => cases onSecond <;> rfl
  | current =>
    by_cases h : base < cursor
    · cases onSecond <;> simp [step, current, hasUnprocessed, Op.cursorAfter, Op.gift, Branch.takes, h, Except.toOption]
    · have hrefused : (⟨superIndex, base, cursor, onSecond, first, second⟩ : Node).step .current =
          .error .noRemaining := by
        simp only [step, current, hasUnprocessed, h, decide_false, Bool.false_eq_true, if_false]
        rfl
      simp [hrefused, Op.cursorAfter, h, Except.toOption]

/-- one more operation -/
theorem step_runEnd (superIndex base : ℕ) (ops : List Op) (op : Op) :
    ((runEnd superIndex base ops).bind fun node => (node.step op).toOption) = runEnd superIndex base (ops ++ [op]) := by
  have hcount : (ops ++ [op]).count .changeBranch = ops.count .changeBranch + if op = .changeBranch then 1 else 0 := by
    rw [List.count_append, List.count_singleton]
    simp
  have hmem : .changeBranch ∈ ops ↔ 1 ≤ ops.count .changeBranch := List.count_pos_iff.symm
  unfold runEnd
  rw [cursorAfter_append_singleton, given_append_singleton, given_append_singleton]
  by_cases hfew : ops.count .changeBranch ≤ 1
  · rw [if_pos hfew]
    cases hcursor : cursorAfter base ops with
    | none => simp
    | some cursor =>
      rw [Option.map_some, Option.bind_some, Option.bind_some, step_eq]
      simp only
      by_cases htwice : op = .changeBranch ∧ .changeBranch ∈ ops
      · have hmany : ¬ (ops ++ [op]).count .changeBranch ≤ 1 := by
          rw [hcount, if_pos htwice.1]
          have := hmem.1 htwice.2
          omega
        rw [if_pos (by simpa using htwice), if_neg hmany]
      · have hstill : (ops ++ [op]).count .changeBranch ≤ 1 := by
          rw [hcount]
          split_ifs with hop
          · have : ¬ 1 ≤ ops.count .changeBranch := fun h => htwice ⟨hop, hmem.2 h⟩
            omega
          · exact hfew
        rw [if_neg (by simpa using htwice), if_pos hstill]
        refine congrFun (congrArg Option.map (funext fun cursor => ?_)) _
        by_cases hin : .changeBranch ∈ ops <;> simp [hin, Branch.takes_gathered, eq_comm]
  · rw [if_neg hfew, if_neg (by rw [hcount]; omega)]
    rfl

/-- **A run** from a new node. -/
theorem run_eq (superIndex base : ℕ) (ops : List Op) :
    ((start superIndex base).run ops).toOption = runEnd superIndex base ops := by
  induction ops using List.reverseRecOn with
  | nil => rfl
  | append_singleton ops op ih => rw [run_append_singleton, Except.toOption_bind, ih, step_runEnd]

theorem run_ok_iff : (start superIndex base).run ops = .ok node ↔ runEnd superIndex base ops = some node := by
  rw [← run_eq]
  cases (start superIndex base).run ops <;> simp [Except.toOption]

/-! ## Either half of a node by itself -/

theorem gift_of_onCursor (h : op.onCursor = true) : op.gift = none ∧ op ≠ .changeBranch := by
  cases op <;> simp_all [Op.onCursor, Op.gift]

theorem cursorAfter_of_not_onCursor (h : op.onCursor = false) (base cursor : ℕ) :
    op.cursorAfter base cursor = some cursor := by
  cases op <;> simp_all [Op.onCursor, Op.cursorAfter]

theorem given_filter_not (second : Bool) (ops : List Op) :
    given second (ops.filter fun op => !op.onCursor) = given second ops := by
  have hgifts : ∀ ops : List Op, (ops.filter fun op => !op.onCursor).filterMap Op.gift = ops.filterMap Op.gift := by
    intro ops
    rw [List.filterMap_filter]
    refine List.filterMap_congr fun op _ => ?_
    cases h : op.onCursor with
    | false => rfl
    | true => exact (gift_of_onCursor h).1.symm
  induction ops with
  | nil => rfl
  | cons op ops ih =>
    rw [given_cons, ← ih]
    cases h : op.onCursor with
    | false => rw [List.filter_cons, if_pos (by simp [h]), given_cons, hgifts]
    | true =>
      obtain ⟨hgift, hne⟩ := gift_of_onCursor h
      rw [List.filter_cons, if_neg (by simp [h]), if_neg hne, hgift]
      simp

theorem given_filter (second : Bool) (ops : List Op) : given second (ops.filter Op.onCursor) = [] := by
  refine List.filterMap_eq_nil_iff.2 fun op hop => ?_
  have hmem : op ∈ ops.filter Op.onCursor := by
    cases second
    · exact (List.takeWhile_prefix _).subset hop
    · exact (List.dropWhile_suffix _).subset hop
  exact (gift_of_onCursor (List.mem_filter.1 hmem).2).1

theorem cursorAfter_filter_not (base : ℕ) (ops : List Op) :
    cursorAfter base (ops.filter fun op => !op.onCursor) = some base := by
  induction ops with
  | nil => rfl
  | cons op ops ih =>
    cases h : op.onCursor with
    | false =>
      rw [List.filter_cons, if_pos (by simp [h]), cursorAfter, List.foldlM_cons, cursorAfter_of_not_onCursor h]
      exact ih
    | true => rwa [List.filter_cons, if_neg (by simp [h])]

theorem cursorAfter_filter (base : ℕ) (ops : List Op) :
    cursorAfter base (ops.filter Op.onCursor) = cursorAfter base ops := by
  have key : ∀ cursor, (ops.filter Op.onCursor).foldlM (Op.cursorAfter base) cursor =
      ops.foldlM (Op.cursorAfter base) cursor := by
    induction ops with
    | nil => exact fun _ => rfl
    | cons op ops ih =>
      intro cursor
      cases h : op.onCursor with
      | false =>
        rw [List.filter_cons, if_neg (by simp [h]), List.foldlM_cons, cursorAfter_of_not_onCursor h, ih]
        rfl
      | true =>
        rw [List.filter_cons, if_pos h, List.foldlM_cons, List.foldlM_cons]
        exact bind_congr ih
  exact key base

theorem runEnd_eq_some : runEnd superIndex base ops = some node ↔
    ops.count .changeBranch ≤ 1 ∧ ∃ cursor, cursorAfter base ops = some cursor ∧
      node = ⟨superIndex, base, cursor, decide (.changeBranch ∈ ops), .gathered (given false ops),
        .gathered (given true ops)⟩ := by
  unfold runEnd
  split_ifs with h
  · simp [h, eq_comm]
  · simp [h]

/-- without the operations on the cursor a run counts the same -/
theorem runEnd_filter_not (h : runEnd superIndex base ops = some node) :
    runEnd superIndex base (ops.filter fun op => !op.onCursor) = some { node with cursor := base } := by
  obtain ⟨hcount, cursor, -, rfl⟩ := runEnd_eq_some.1 h
  refine runEnd_eq_some.2 ⟨?_, base, cursorAfter_filter_not base ops, ?_⟩
  · rwa [List.count_filter rfl]
  · have hmem : .changeBranch ∈ ops.filter (fun op => !op.onCursor) ↔ .changeBranch ∈ ops :=
      List.mem_filter.trans (and_iff_left rfl)
    simp only [hmem, given_filter_not]

/-- without the operations on the branches a run takes the cursor to the same place -/
theorem runEnd_filter (h : runEnd superIndex base ops = some node) :
    runEnd superIndex base (ops.filter Op.onCursor) = some { start superIndex base with cursor := node.cursor } := by
  obtain ⟨-, cursor, hcursor, rfl⟩ := runEnd_eq_some.1 h
  have hnot : .changeBranch ∉ ops.filter Op.onCursor := fun hmem => (gift_of_onCursor (List.mem_filter.1 hmem).2).2 rfl
  refine runEnd_eq_some.2 ⟨?_, cursor, (cursorAfter_filter base ops).trans hcursor, ?_⟩
  · rw [List.count_eq_zero_of_not_mem hnot]
    exact Nat.zero_le 1
  · simp only [given_filter, hnot, decide_false]
    rfl

/-- **Branch counting.** A run of any operations comes to its end if the branches are changed once at most and no
operation on the cursor is refused. Then:
- a branch is unsatisfiable if it was given a mark or a factor 0, and counts 0 then;
- else it counts the product of the factors that it was given, and 0 without any;
- the count of the node is the sum;
- another run that gives a branch the same, in any order, leads to the same branch;
- the operations on the cursor do not matter for the branches, nor the others for the cursor. -/
theorem run_counts (superIndex base : ℕ) (ops : List Op) :
    ((∃ node, (start superIndex base).run ops = .ok node) ↔
      ops.count .changeBranch ≤ 1 ∧ ∃ cursor, cursorAfter base ops = some cursor) ∧
    ∀ node, (start superIndex base).run ops = .ok node →
      (∀ second, (node.branch second).unsat = true ↔ .mark ∈ given second ops ∨ .factor 0 ∈ given second ops) ∧
      (∀ second, (node.branch second).unsat = true → (node.branch second).count = 0) ∧
      (∀ second, (node.branch second).unsat = false → (node.branch second).count =
        if Branch.factors (given second ops) = [] then 0 else (Branch.factors (given second ops)).prod) ∧
      node.total = (node.branch false).count + (node.branch true).count ∧
      (∀ second superIndex' base' ops' node', (start superIndex' base').run ops' = .ok node' →
        (given second ops').Perm (given second ops) → node'.branch second = node.branch second) ∧
      (start superIndex base).run (ops.filter fun op => !op.onCursor) = .ok { node with cursor := base } ∧
      (start superIndex base).run (ops.filter Op.onCursor) =
        .ok { start superIndex base with cursor := node.cursor } := by
  have hbranch : ∀ superIndex base ops node, (start superIndex base).run ops = .ok node →
      ∀ second, node.branch second = .gathered (given second ops) := by
    intro superIndex base ops node hrun second
    obtain ⟨-, cursor, -, rfl⟩ := runEnd_eq_some.1 (run_ok_iff.1 hrun)
    cases second <;> rfl
  refine ⟨?_, fun node hrun => ⟨fun second => ?_, fun second hunsat => ?_, fun second hunsat => ?_, rfl,
    fun second superIndex' base' ops' node' hrun' hperm => ?_, run_ok_iff.2 (runEnd_filter_not (run_ok_iff.1 hrun)),
    run_ok_iff.2 (runEnd_filter (run_ok_iff.1 hrun))⟩⟩
  · simp only [run_ok_iff, runEnd_eq_some]
    constructor
    · intro hex
      obtain ⟨node, hcount, cursor, hcursor, -⟩ := hex
      exact ⟨hcount, cursor, hcursor⟩
    · intro hboth
      obtain ⟨hcount, cursor, hcursor⟩ := hboth
      exact ⟨_, hcount, cursor, hcursor, rfl⟩
  · rw [hbranch _ _ _ _ hrun, Branch.unsat_gathered]
    rfl
  · rw [hbranch _ _ _ _ hrun] at hunsat ⊢
    exact Branch.coherent_gathered _ hunsat
  · rw [hbranch _ _ _ _ hrun] at hunsat ⊢
    have hnot : ¬ Branch.Settling (given second ops) := fun hs => by
      rw [Branch.unsat_gathered.2 hs] at hunsat
      cases hunsat
    rw [Branch.gathered, if_neg hnot]
  · rw [hbranch _ _ _ _ hrun, hbranch _ _ _ _ hrun', Branch.gathered_perm hperm]

/-- a run in which the first branch gets factors and the second one a 0, factors and a mark, while the cursor moves -/
theorem run_counts_both :
    let ops : List Op := [.times 3, .setEnd 7, .times 4, .current, .next, .changeBranch, .times 5, .next, .times 0,
      .times 9, .markUnsat]
    ∃ node, (start 1 4).run ops = .ok node ∧ node.branch false = ⟨12, false⟩ ∧ node.branch true = ⟨0, true⟩ ∧
      node.total = 12 ∧ node.cursor = 5 ∧
      ∀ node', (start 2 9).run [.times 4, .setEnd 9, .times 3] = .ok node' → node'.branch false = node.branch false := by
  intro ops
  obtain ⟨hends, hcounts⟩ := run_counts 1 4 ops
  obtain ⟨node, hrun⟩ := hends.2 ⟨by decide, 5, by decide⟩
  obtain ⟨hunsat, hzero, hproduct, htotal, horder, -, hcursor⟩ := hcounts node hrun
  have hfirst : (node.branch false).unsat = false := by
    rw [← Bool.not_eq_true, hunsat]
    decide
  have hsecond : (node.branch true).unsat = true := (hunsat true).2 (by decide)
  have hfirst' : (node.branch false).count = 12 := hproduct false hfirst
  have hsecond' : (node.branch true).count = 0 := hzero true hsecond
  refine ⟨node, hrun, ?_, ?_, ?_, ?_, fun node' hrun' => horder false 2 9 _ node' hrun' (by decide)⟩
  · exact congrArg₂ Branch.mk hfirst' hfirst
  · exact congrArg₂ Branch.mk hsecond' hsecond
  · rw [htotal, hfirst', hsecond']
  · exact (congrArg Node.cursor (Except.ok.inj hcursor)).symm

end Node

end ModelCount
