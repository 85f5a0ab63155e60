/-
Partial assignments as functions on literals.

`val` reads a literal without the bounds check. `Fits n a` says that an assignment has cells for the variables 1
to `n` and that opposite literals have opposite values, which giving and taking back a value preserves.
-/
import Mathlib.Tactic
import ModelCount.Assignment
import ModelCount.Proofs.Literal
import ModelCount.Proofs.Outcome

namespace ModelCount

def Value.opposite : Value → Value
  | isFalse => isTrue
  | isTrue => isFalse
  | unassigned => unassigned

@[simp] theorem Value.opposite_eq_unassigned {x : Value} : x.opposite = .unassigned ↔ x = .unassigned := by
  cases x <;> simp [opposite]

namespace Assignment

/-- the value of a literal; one without a cell has none -/
def val (a : Assignment) (l : Lit) : Value := a.values[l.index]?.getD .unassigned

def Free (a : Assignment) (v : Var) : Prop := a.val v.pos = .unassigned

instance (a : Assignment) (v : Var) : Decidable (a.Free v) := inferInstanceAs (Decidable (_ = _))

/-- the assignment speaks about the variables 1 to `n`, and opposite literals have opposite values -/
structure Fits (n : ℕ) (a : Assignment) : Prop where
  size : 2 * (n + 1) ≤ a.values.size
  opposite : ∀ l : Lit, l.var.Within n → a.val (-l) = (a.val l).opposite

instance (n : ℕ) (a : Assignment) : Decidable (a.Fits n) :=
  decidable_of_iff (2 * (n + 1) ≤ a.values.size ∧
      ∀ i < 2 * (n + 1), (Lit.mk i).var.Within n → a.val (-Lit.mk i) = (a.val (Lit.mk i)).opposite)
    ⟨fun h => ⟨h.1, fun l hl => h.2 l.raw (Lit.raw_lt hl.2) hl⟩,
      fun h => ⟨h.size, fun i _ hl => h.opposite (Lit.mk i) hl⟩⟩

namespace Fits

variable {n : ℕ} {a : Assignment} {l m : Lit} {v : Var}

theorem index_lt (h : a.Fits n) (hl : l.var.Within n) : l.index < a.values.size :=
  Nat.lt_of_lt_of_le (Lit.raw_lt hl.2) h.size

theorem value_eq (h : a.Fits n) (hl : l.var.Within n) : a.value l = .ok (a.val l) := by
  unfold value val
  rw [Array.getElem?_eq_getElem (h.index_lt hl)]
  rfl

theorem isActive_eq (h : a.Fits n) (hl : l.var.Within n) : a.isActive l = .ok (a.val l == .unassigned) := by
  unfold isActive; rw [h.value_eq hl]; rfl

theorem isSatisfied_eq (h : a.Fits n) (hl : l.var.Within n) : a.isSatisfied l = .ok (a.val l == .isTrue) := by
  unfold isSatisfied; rw [h.value_eq hl]; rfl

theorem isResolved_eq (h : a.Fits n) (hl : l.var.Within n) : a.isResolved l = .ok (a.val l == .isFalse) := by
  unfold isResolved; rw [h.value_eq hl]; rfl

theorem eitherSatisfied_eq (h : a.Fits n) (hl : l.var.Within n) (hm : m.var.Within n) :
    a.eitherSatisfied l m = .ok (a.val l == .isTrue || a.val m == .isTrue) := by
  rw [eitherSatisfied, h.isSatisfied_eq hl, Except.ok_bind, h.isSatisfied_eq hm]
  cases a.val l == .isTrue <;> rfl

theorem bothActive_eq (h : a.Fits n) (hl : l.var.Within n) (hm : m.var.Within n) :
    a.bothActive l m = .ok (a.val l == .unassigned && a.val m == .unassigned) := by
  rw [bothActive, h.isActive_eq hl, Except.ok_bind, h.isActive_eq hm]
  cases a.val l == .unassigned <;> rfl

theorem isVarActive_eq (h : a.Fits n) (hn : n < 2147483648) (hv : v.Within n) :
    a.isVarActive v = .ok (decide (a.Free v)) := by
  have hlt : v.id < 2147483648 := Nat.lt_of_le_of_lt hv.2 hn
  rw [isVarActive, h.isActive_eq (by rw [Var.var_pos hlt]; exact hv)]
  congr 1

/-- a literal has no value exactly if its variable is free -/
theorem free_var_iff (h : a.Fits n) (hn : n < 2147483648) (hl : l.var.Within n) :
    a.Free l.var ↔ a.val l = .unassigned := by
  have hlt : l.var.id < 2147483648 := Nat.lt_of_le_of_lt hl.2 hn
  unfold Free
  rcases Lit.eq_pos_or_neg hlt with e | e
  · rw [← e]
  · have hp : l.var.pos = -l := by
      conv_rhs => rw [e, Var.negate_neg hlt]
    rw [hp, h.opposite l hl, Value.opposite_eq_unassigned]

/-- the value of an assigned literal is true or false -/
theorem val_cases (h : a.Fits n) (hn : n < 2147483648) (hl : l.var.Within n) :
    (a.Free l.var ∧ a.val l = .unassigned) ∨ (¬ a.Free l.var ∧ a.val l = .isTrue) ∨
      (¬ a.Free l.var ∧ a.val l = .isFalse) := by
  rw [h.free_var_iff hn hl]
  cases a.val l <;> simp

end Fits

/-! ## Giving and taking back values -/

theorem val_empty (n : ℕ) (l : Lit) : (empty n).val l = .unassigned := by
  unfold val empty
  simp only [Array.getElem?_replicate]
  split_ifs <;> rfl

theorem fits_empty (n : ℕ) : (empty n).Fits n :=
  ⟨by simp [empty], fun l _ => by rw [val_empty, val_empty]; rfl⟩

theorem numVars_empty (n : ℕ) : (empty n).numVars = n := by
  simp only [numVars, empty, Array.size_replicate]
  omega

/-- writing both literals of a variable -/
theorem Fits.write_eq {n : ℕ} {a : Assignment} (h : a.Fits n) {l : Lit} (hl : l.var.Within n) {x : Value} :
    ∃ a', a.write l (-l) x x.opposite = .ok a' ∧ a'.Fits n ∧ a'.values.size = a.values.size ∧
      ∀ m, a'.val m = if m = l then x else if m = -l then x.opposite else a.val m := by
  have h1 := h.index_lt hl
  have h2 : (-l).index < a.values.size := h.index_lt (by rw [Lit.var_negate]; exact hl)
  have hne : l.index ≠ (-l).index := fun e => Lit.negate_ne l (Lit.ext_raw e.symm)
  have hval : ∀ m, (Assignment.mk ((a.values.setIfInBounds l.index x).setIfInBounds (-l).index x.opposite)).val m =
      if m = l then x else if m = -l then x.opposite else a.val m := by
    intro m
    simp only [val, Array.getElem?_setIfInBounds, Array.size_setIfInBounds]
    by_cases hm : m = l
    · subst hm
      simp [hne.symm, h1]
    · have hm' : l.index ≠ m.index := fun e => hm (Lit.ext_raw e.symm)
      by_cases hn : m = -l
      · subst hn
        simp [hm, h2]
      · have hn' : (-l).index ≠ m.index := fun e => hn (Lit.ext_raw e.symm)
        simp [hm, hn, hm', hn']
  refine ⟨_, by unfold write; rw [if_pos ⟨h1, h2⟩], ⟨?_, ?_⟩, by simp, hval⟩
  · simpa using h.size
  · intro m hm
    rw [hval, hval]
    by_cases e1 : m = l
    · subst e1
      simp [Lit.negate_ne]
    · by_cases e2 : m = -l
      · subst e2
        have : x.opposite.opposite = x := by cases x <;> rfl
        simp [Lit.negate_ne, this]
      · have e3 : -m ≠ l := fun e => e2 (by rw [← e, Lit.negate_negate])
        have e4 : -m ≠ -l := fun e => e1 (by rw [← Lit.negate_negate m, e, Lit.negate_negate])
        rw [if_neg e1, if_neg e2, if_neg e3, if_neg e4]
        exact h.opposite m hm

theorem Fits.assign_eq {n : ℕ} {a : Assignment} (h : a.Fits n) {l : Lit} (hl : l.var.Within n) :
    ∃ a', a.assign l = .ok a' ∧ a'.Fits n ∧ a'.values.size = a.values.size ∧
      ∀ m, a'.val m = if m = l then .isTrue else if m = -l then .isFalse else a.val m :=
  h.write_eq hl (x := .isTrue)

theorem Fits.unassign_eq {n : ℕ} {a : Assignment} (h : a.Fits n) (hn : n < 2147483648) {v : Var} (hv : v.Within n) :
    ∃ a', a.unassign v = .ok a' ∧ a'.Fits n ∧ a'.values.size = a.values.size ∧
      ∀ m : Lit, a'.val m = if m.var = v then .unassigned else a.val m := by
  have hlt : v.id < 2147483648 := Nat.lt_of_le_of_lt hv.2 hn
  obtain ⟨a', h1, h2, h3, h4⟩ := h.write_eq (l := v.pos) (x := .unassigned) (by rw [Var.var_pos hlt]; exact hv)
  refine ⟨a', ?_, h2, h3, fun m => ?_⟩
  · rw [← h1, Var.negate_pos hlt]; rfl
  · rw [h4]
    by_cases hm : m.var = v
    · have : m = v.pos ∨ m = -v.pos := Lit.eq_or_eq_negate (by rw [hm, Var.var_pos hlt])
      rcases this with e | e
      · rw [if_pos e, if_pos hm]
      · rw [if_pos hm, if_pos e]
        split_ifs <;> rfl
    · have e1 : m ≠ v.pos := fun e => hm (by rw [e, Var.var_pos hlt])
      have e2 : m ≠ -v.pos := fun e => hm (by rw [e, Lit.var_negate, Var.var_pos hlt])
      rw [if_neg e1, if_neg e2, if_neg hm]

/-- taking back the values of several variables -/
theorem Fits.unassignAll_eq {n : ℕ} {a : Assignment} (h : a.Fits n) (hn : n < 2147483648) {vars : List Var}
    (hvars : ∀ v ∈ vars, v.Within n) :
    ∃ a', vars.foldlM unassign a = .ok a' ∧ a'.values.size = a.values.size ∧
      ∀ m : Lit, a'.val m = if m.var ∈ vars then .unassigned else a.val m := by
  induction vars generalizing a with
  | nil => exact ⟨a, rfl, rfl, fun m => by simp⟩
  | cons v vars ih =>
    obtain ⟨a1, h1, h2, h3, h4⟩ := h.unassign_eq hn (hvars v (by simp))
    obtain ⟨a', k1, k2, k3⟩ := ih h2 fun w hw => hvars w (List.mem_cons_of_mem _ hw)
    refine ⟨a', by rw [List.foldlM_cons, h1, Except.ok_bind, k1], k2.trans h3, fun m => ?_⟩
    rw [k3, h4]
    by_cases hm : m.var ∈ vars
    · simp [hm]
    · simp [hm, List.mem_cons]

/-- an assignment is its table of values -/
theorem ext_val {a b : Assignment} (hsize : a.values.size = b.values.size) (h : ∀ l, a.val l = b.val l) : a = b := by
  cases a with
  | mk x =>
    cases b with
    | mk y =>
      congr 1
      refine Array.ext hsize fun i h1 h2 => ?_
      have hi := h ⟨i⟩
      unfold val Lit.index at hi
      rwa [Array.getElem?_eq_getElem h1, Array.getElem?_eq_getElem h2] at hi

end Assignment

end ModelCount
