/-
Literals whose variables stay below 2^31: the packing loses nothing, and every literal is the positive or
the negative literal of its variable.
-/
import Mathlib.Tactic
import ModelCount.Literal

namespace ModelCount

/-- the variable is one of 1 to `n` -/
def Var.Within (n : ℕ) (v : Var) : Prop := 1 ≤ v.id ∧ v.id ≤ n

instance (n : ℕ) (v : Var) : Decidable (v.Within n) := inferInstanceAs (Decidable (_ ∧ _))

def ClauseId.Within (m : ℕ) (c : ClauseId) : Prop := 1 ≤ c.id ∧ c.id ≤ m

instance (m : ℕ) (c : ClauseId) : Decidable (c.Within m) := inferInstanceAs (Decidable (_ ∧ _))

/-! ## The literals of a variable -/

theorem Var.pos_raw {v : Var} (h : v.id < 2147483648) : v.pos.raw = 2 * v.id + 1 := by
  simp only [Var.pos, Lit.of, Bool.toNat_true]
  omega

theorem Var.neg_raw {v : Var} (h : v.id < 2147483648) : v.neg.raw = 2 * v.id := by
  simp only [Var.neg, Lit.of, Bool.toNat_false]
  omega

namespace Lit

theorem ext_raw {l m : Lit} (h : l.raw = m.raw) : l = m := by
  cases l; cases m; simpa using h

theorem negate_raw (l : Lit) : (-l).raw = if l.raw % 2 = 0 then l.raw + 1 else l.raw - 1 := by
  show (negate l).raw = _
  unfold negate
  split_ifs <;> rfl

@[simp] theorem var_negate (l : Lit) : (-l).var = l.var := by
  rw [var, negate_raw]
  split_ifs with h <;> congr 1 <;> omega

@[simp] theorem isPositive_negate (l : Lit) : (-l).isPositive = !l.isPositive := by
  unfold isPositive
  rw [negate_raw]
  split_ifs with h
  · have : (l.raw + 1) % 2 = 1 := by omega
    simp [this, h]
  · have h1 : l.raw % 2 = 1 := by omega
    have h2 : (l.raw - 1) % 2 = 0 := by omega
    simp [h1, h2]

theorem ext_var {l m : Lit} (hv : l.var = m.var) (hs : l.isPositive = m.isPositive) : l = m := by
  apply ext_raw
  simp only [var, Var.mk.injEq] at hv
  simp only [isPositive] at hs
  have h : l.raw % 2 = m.raw % 2 := by
    rcases Nat.mod_two_eq_zero_or_one l.raw with h | h <;>
      rcases Nat.mod_two_eq_zero_or_one m.raw with h' | h' <;> simp_all
  omega

@[simp] theorem negate_negate (l : Lit) : - -l = l :=
  ext_var (by simp) (by simp)

theorem negate_ne (l : Lit) : -l ≠ l := by
  intro h
  have := congrArg isPositive h
  simp at this

/-- literals of one variable are equal or opposite -/
theorem eq_or_eq_negate {l m : Lit} (h : l.var = m.var) : l = m ∨ l = -m := by
  by_cases hs : l.isPositive = m.isPositive
  · exact Or.inl (ext_var h hs)
  · refine Or.inr (ext_var (by simpa using h) ?_)
    cases hl : l.isPositive <;> cases hm : m.isPositive <;> simp_all

theorem raw_lt {n : ℕ} {l : Lit} (h : l.var.id ≤ n) : l.raw < 2 * (n + 1) := by
  simp only [var] at h
  omega

theorem two_le_raw {l : Lit} (h : 1 ≤ l.var.id) : 2 ≤ l.raw := by
  simp only [var] at h
  omega

end Lit

namespace Var

variable {v : Var}

theorem var_pos (h : v.id < 2147483648) : v.pos.var = v := by
  cases v
  simp only [Lit.var, pos_raw h, mk.injEq]
  omega

theorem var_neg (h : v.id < 2147483648) : v.neg.var = v := by
  cases v
  simp only [Lit.var, neg_raw h, mk.injEq]
  omega

theorem isPositive_pos (h : v.id < 2147483648) : v.pos.isPositive = true := by
  rw [Lit.isPositive, pos_raw h]
  simp

theorem isPositive_neg (h : v.id < 2147483648) : v.neg.isPositive = false := by
  rw [Lit.isPositive, neg_raw h]
  simp

theorem negate_pos (h : v.id < 2147483648) : -v.pos = v.neg :=
  Lit.ext_var (by rw [Lit.var_negate, var_pos h, var_neg h])
    (by rw [Lit.isPositive_negate, isPositive_pos h, isPositive_neg h]; rfl)

theorem negate_neg (h : v.id < 2147483648) : -v.neg = v.pos := by
  calc -v.neg
      = - -v.pos := by rw [negate_pos h]
    _ = v.pos := Lit.negate_negate _

end Var

theorem Lit.eq_pos_or_neg {l : Lit} (h : l.var.id < 2147483648) : l = l.var.pos ∨ l = l.var.neg := by
  rcases eq_or_eq_negate (Var.var_pos h).symm with hl | hl
  · exact Or.inl hl
  · right; rw [← Var.negate_pos h]; exact hl

/-! ## Literals of signed numbers -/

namespace Lit

variable {n : ℤ}

theorem ofInt_raw (h : n.natAbs < 2147483648) :
    (ofInt n).raw = 2 * n.natAbs + (decide (0 < n)).toNat := by
  simp only [ofInt, of]
  have := Bool.toNat_le (decide (0 < n))
  omega

theorem var_ofInt (h : n.natAbs < 2147483648) : (ofInt n).var = ⟨n.natAbs⟩ := by
  simp only [var, ofInt_raw h, Var.mk.injEq]
  have := Bool.toNat_le (decide (0 < n))
  omega

theorem isPositive_ofInt (h : n.natAbs < 2147483648) : (ofInt n).isPositive = decide (0 < n) := by
  rw [isPositive, ofInt_raw h]
  cases decide (0 < n) <;> simp

end Lit

end ModelCount
