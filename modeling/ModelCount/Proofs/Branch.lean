/-
What a branch has counted so far.

The count 0 of a branch stands for no factor yet and, once the branch is found unsatisfiable, for 0. Read this way
(`Branch.value`), every factor multiplies (`value_times`). A node gives factors to its active branch only.
-/
import Mathlib.Tactic
import ModelCount.Node

namespace ModelCount

namespace Branch

/-- the product of the factors: 1 before the first one, 0 once the branch is found unsatisfiable -/
def value (b : Branch) : ℕ := if b.unsat then 0 else if b.count = 0 then 1 else b.count

/-- a branch found unsatisfiable counts 0 -/
def Coherent (b : Branch) : Prop := b.unsat = true → b.count = 0

variable {b : Branch}

@[simp] theorem value_start : start.value = 1 := rfl

theorem coherent_start : start.Coherent := fun h => nomatch h

theorem value_of_unsat (h : b.unsat = true) : b.value = 0 := if_pos h

theorem value_times (b : Branch) (factor : ℕ) : (b.times factor).value = b.value * factor := by
  unfold times
  split_ifs with hu hc
  · rw [value_of_unsat hu, Nat.zero_mul]
  · unfold value
    by_cases hk : factor = 0 <;> simp [hu, hc, hk]
  · unfold value
    by_cases hk : factor = 0 <;> simp [hu, hc, hk]

theorem value_foldl_times (b : Branch) (factors : List ℕ) :
    (factors.foldl Branch.times b).value = b.value * factors.prod := by
  induction factors generalizing b with
  | nil => simp
  | cons m factors ih => rw [List.foldl_cons, ih, value_times, List.prod_cons, Nat.mul_assoc]

/-- a branch is open as long as it may be satisfiable -/
theorem value_pos : 0 < b.value ↔ b.unsat = false := by
  unfold value
  split_ifs with hu hc
  · simp [hu]
  · simp [hu]
  · simp [hu, Nat.pos_of_ne_zero hc]

theorem value_open {k : ℕ} (hk : 0 < k) : (⟨k, false⟩ : Branch).value = k := by
  simp [value, hk.ne']

/-- a branch with a count multiplies it by the factors, none of which is 0 -/
theorem foldl_times_open {k : ℕ} {factors : List ℕ} (hk : 0 < k) (hpos : 0 < factors.prod) :
    factors.foldl Branch.times ⟨k, false⟩ = ⟨k * factors.prod, false⟩ := by
  induction factors generalizing k with
  | nil => rw [List.foldl_nil, List.prod_nil, Nat.mul_one]
  | cons m factors ih =>
    rw [List.prod_cons] at hpos ⊢
    have hm : 0 < m := Nat.pos_of_mul_pos_right hpos
    have hstep : (⟨k, false⟩ : Branch).times m = ⟨k * m, false⟩ := by simp [times, hk.ne', hm.ne']
    rw [List.foldl_cons, hstep, ih (Nat.mul_pos hk hm) (Nat.pos_of_mul_pos_left hpos), Nat.mul_assoc]

/-- the factor 1 makes the value of an open branch its count -/
theorem times_one (hopen : b.unsat = false) : b.times 1 = ⟨b.value, false⟩ := by
  unfold times value
  split_ifs <;> simp_all

theorem Coherent.times (h : b.Coherent) (factor : ℕ) : (b.times factor).Coherent := by
  unfold Branch.times
  split_ifs with hu hc
  · exact h
  · intro hz
    simpa using hz
  · intro hz
    obtain rfl : factor = 0 := by simpa using hz
    exact Nat.mul_zero _

/-- once it has taken a factor, or is found unsatisfiable, a branch counts its value -/
theorem Coherent.count_eq (h : b.Coherent) (hb : b.unsat = true ∨ b.count ≠ 0) : b.count = b.value := by
  unfold value
  split_ifs with hu hc
  · exact h hu
  · exact absurd hc (hb.resolve_left hu)
  · rfl

/-- the factor 1 makes an open branch count its value -/
theorem Coherent.count_times_one (h : b.Coherent) : (b.times 1).count = b.value := by
  have hc := h.times 1
  rw [hc.count_eq, value_times, Nat.mul_one]
  unfold Branch.times
  split_ifs with hu hz
  · exact Or.inl hu
  · exact Or.inr (by simp)
  · exact Or.inr (by simpa using hz)

/-- a branch found unsatisfiable counts 0, whatever its remaining factors are -/
theorem Coherent.count_of_unsat (h : b.Coherent) (hu : b.unsat = true) (rest : ℕ) : b.count = b.value * rest := by
  rw [h hu, value_of_unsat hu, Nat.zero_mul]

end Branch

namespace Node

variable {node : Node} {b b' : Branch}

@[simp] theorem active_setActive : (node.setActive b).active = b := by
  unfold setActive active
  split_ifs <;> simp_all

@[simp] theorem setActive_active : node.setActive node.active = node := by
  unfold setActive active
  split_ifs <;> rfl

@[simp] theorem setActive_setActive : (node.setActive b).setActive b' = node.setActive b' := by
  unfold setActive
  split_ifs <;> simp_all

@[simp] theorem base_setActive : (node.setActive b).base = node.base := by
  unfold setActive
  split_ifs <;> rfl

@[simp] theorem superIndex_setActive : (node.setActive b).superIndex = node.superIndex := by
  unfold setActive
  split_ifs <;> rfl

@[simp] theorem cursor_setActive : (node.setActive b).cursor = node.cursor := by
  unfold setActive
  split_ifs <;> rfl

@[simp] theorem times_setActive (factor : ℕ) : (node.setActive b).times factor = node.setActive (b.times factor) := by
  rw [times, active_setActive, setActive_setActive]

/-- factors go into the active branch -/
theorem foldl_times (node : Node) (factors : List ℕ) :
    factors.foldl Node.times node = node.setActive (factors.foldl Branch.times node.active) := by
  induction factors generalizing node with
  | nil => exact setActive_active.symm
  | cons m factors ih => rw [List.foldl_cons, ih, times, active_setActive, setActive_setActive, List.foldl_cons]

theorem base_iterate_times (factor k : ℕ) : ((fun m : Node => m.times factor)^[k] node).base = node.base := by
  induction k generalizing node with
  | zero => rfl
  | succ k ih =>
    rw [Function.iterate_succ_apply, ih]
    unfold times
    exact base_setActive

/-- the node with another active branch and another cursor -/
def atCursor (node : Node) (b : Branch) (cursor : ℕ) : Node := { node.setActive b with cursor := cursor }

variable {cursor : ℕ}

@[simp] theorem active_atCursor : (node.atCursor b cursor).active = b := active_setActive

@[simp] theorem cursor_atCursor : (node.atCursor b cursor).cursor = cursor := rfl

theorem atCursor_cursor : node.atCursor b node.cursor = node.setActive b := by
  unfold atCursor setActive
  split_ifs <;> rfl

@[simp] theorem base_atCursor : (node.atCursor b cursor).base = node.base := base_setActive

@[simp] theorem superIndex_atCursor : (node.atCursor b cursor).superIndex = node.superIndex := superIndex_setActive

@[simp] theorem foundUnsat_atCursor : (node.atCursor b cursor).foundUnsat = b.unsat :=
  congrArg Branch.unsat active_atCursor

@[simp] theorem hasUnprocessed_atCursor : (node.atCursor b cursor).hasUnprocessed = decide (node.base < cursor) :=
  congrArg (fun k => decide (k < cursor)) base_atCursor

@[simp] theorem setActive_atCursor : (node.atCursor b cursor).setActive b' = node.atCursor b' cursor := by
  unfold atCursor setActive
  split_ifs <;> simp_all

@[simp] theorem times_atCursor (factor : ℕ) :
    (node.atCursor b cursor).times factor = node.atCursor (b.times factor) cursor := by
  rw [times, active_atCursor, setActive_atCursor]

@[simp] theorem resetCursor_atCursor : (node.atCursor b cursor).resetCursor = node.atCursor b node.base := by
  unfold resetCursor atCursor
  simp only [base_setActive]

theorem current_atCursor (h : node.base < cursor) : (node.atCursor b cursor).current = .ok (cursor - 1) := by
  rw [current, hasUnprocessed_atCursor, if_pos (by simpa using h)]
  rfl

theorem next_atCursor (h : node.base < cursor) :
    (node.atCursor b cursor).next = .ok (node.atCursor b (cursor - 1)) := by
  rw [next, hasUnprocessed_atCursor, if_pos (by simpa using h)]
  rfl

theorem markUnsat_eq : node.markUnsat = node.atCursor .settled node.cursor := by
  unfold markUnsat atCursor setActive
  split_ifs <;> rfl

end Node

end ModelCount
