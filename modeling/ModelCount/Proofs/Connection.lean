/-
What belongs together in a super-component under an assignment.

The candidates are the free variables of the super-component. Two of them are joined by a binary clause or by a
long clause that is kept, and the parts of the super-component are the classes of the candidates under joining.
A clause of length three is kept if none of its literals is true; a longer one if every literal whose variable is
no candidate is false. Neither depends on the variable from which a clause is met (`kept_iff_three`,
`kept_iff_long`).
-/
import Mathlib.Tactic
import Mathlib.Logic.Relation
import ModelCount.Proofs.Adjacency
import ModelCount.Proofs.Assignment
import ModelCount.Component

namespace ModelCount

def Candidate (values : Assignment) (comp : Component) (v : Var) : Prop := v ∈ comp.vars ∧ values.Free v

instance (values : Assignment) (comp : Component) (v : Var) : Decidable (Candidate values comp v) :=
  inferInstanceAs (Decidable (v ∈ comp.vars ∧ values.Free v))

namespace Formula

def varsOf (f : Formula) (c : ClauseId) : List Var := (f.literals c).map Lit.var

/-- a listed long clause that joins its candidates -/
def Kept (f : Formula) (values : Assignment) (comp : Component) (c : ClauseId) : Prop :=
  c ∈ comp.clauses ∧
    if (f.literals c).length = 3 then ∀ l ∈ f.literals c, values.val l ≠ .isTrue
    else ∀ l ∈ f.literals c, ¬ Candidate values comp l.var → values.val l = .isFalse

/-- two candidates that a binary clause or a kept clause contains -/
def Joined (f : Formula) (values : Assignment) (comp : Component) (v w : Var) : Prop :=
  Candidate values comp v ∧ Candidate values comp w ∧
    ((∃ c ∈ f.binaryClauses, v ∈ c.map Lit.var ∧ w ∈ c.map Lit.var) ∨
      ∃ c, f.Kept values comp c ∧ v ∈ f.varsOf c ∧ w ∈ f.varsOf c)

/-- two variables that a chain of joined candidates connects -/
def Connected (f : Formula) (values : Assignment) (comp : Component) : Var → Var → Prop :=
  Relation.ReflTransGen (f.Joined values comp)

/-- every literal of the clause has no value (length three), or belongs to a candidate (longer) -/
def AllActive (f : Formula) (values : Assignment) (comp : Component) (c : ClauseId) : Prop :=
  if (f.literals c).length = 3 then ∀ l ∈ f.literals c, values.val l = .unassigned
  else ∀ l ∈ f.literals c, Candidate values comp l.var

/-- a variable that a walk may give points to: a candidate, or what else is free in a kept clause of a candidate -/
def Pointed (f : Formula) (values : Assignment) (comp : Component) (v : Var) : Prop :=
  values.Free v ∧ (v ∈ comp.vars ∨
    ∃ c, f.Kept values comp c ∧ v ∈ f.varsOf c ∧ ∃ w ∈ f.varsOf c, Candidate values comp w)

/-- no candidate of a kept clause is alone in its class -/
def NoLonely (f : Formula) (values : Assignment) (comp : Component) : Prop :=
  ∀ c, f.Kept values comp c → ∀ v ∈ f.varsOf c, Candidate values comp v → ∃ w, f.Connected values comp v w ∧ w ≠ v

end Formula

/-- a formula, an assignment and a super-component that belong together -/
structure Setting (f : Formula) (cls : List (List Lit)) (values : Assignment) (comp : Component) : Prop where
  stores : f.Stores cls
  small : f.numVars < 2147483648
  fits : values.Fits f.numVars
  vars : ∀ v ∈ comp.vars, v.Within f.numVars
  varsNodup : comp.vars.Nodup
  clauses : ∀ c ∈ comp.clauses, c.Within f.numLong
  clausesNodup : comp.clauses.Nodup

namespace Formula

variable {f : Formula} {values : Assignment} {comp : Component} {v w : Var}

theorem pointed_of_candidate (h : Candidate values comp v) : f.Pointed values comp v := ⟨h.2, Or.inl h.1⟩

theorem Joined.symm (h : f.Joined values comp v w) : f.Joined values comp w v := by
  obtain ⟨hv, hw, h⟩ := h
  refine ⟨hw, hv, ?_⟩
  rcases h with ⟨c, hc, h1, h2⟩ | ⟨c, hc, h1, h2⟩
  · exact Or.inl ⟨c, hc, h2, h1⟩
  · exact Or.inr ⟨c, hc, h2, h1⟩

theorem Connected.symm (h : f.Connected values comp v w) : f.Connected values comp w v := by
  induction h with
  | refl => exact Relation.ReflTransGen.refl
  | tail _ hj ih => exact Relation.ReflTransGen.head hj.symm ih

theorem Connected.trans {u : Var} (h : f.Connected values comp u v) (h' : f.Connected values comp v w) :
    f.Connected values comp u w :=
  Relation.ReflTransGen.trans h h'

theorem Connected.candidate (h : f.Connected values comp v w) (hv : Candidate values comp v) :
    Candidate values comp w := by
  cases h with
  | refl => exact hv
  | tail _ hj => exact hj.2.1

/-- a set that joined variables do not leave is not left by chains either -/
theorem Connected.closed {C : Var → Prop} (hC : ∀ v w, f.Joined values comp v w → C v → C w)
    (h : f.Connected values comp v w) (hv : C v) : C w := by
  induction h with
  | refl => exact hv
  | tail _ hj ih => exact hC _ _ hj ih

/-- the variables of a clause, seen from one of them -/
theorem mem_vars_iff {lits : List Lit} (hv : v ∈ lits.map Lit.var) :
    w ∈ lits.map Lit.var ↔ w = v ∨ w ∈ (othersOf v lits).map Lit.var := by
  simp only [List.mem_map, othersOf, List.mem_filter, bne_iff_ne] at hv ⊢
  constructor
  · intro hex
    rcases hex with ⟨l, hl, rfl⟩
    by_cases h : l.var = v
    · exact Or.inl h
    · exact Or.inr ⟨l, ⟨hl, h⟩, rfl⟩
  · intro hor
    rcases hor with rfl | ⟨l, ⟨hl, -⟩, rfl⟩
    · exact hv
    · exact ⟨l, hl, rfl⟩

theorem var_ne_of_mem_othersOf {lits : List Lit} {l : Lit} (hl : l ∈ othersOf v lits) : l.var ≠ v := by
  simpa using (List.mem_filter.1 hl).2

/-- a property of all literals of a clause, seen from a variable whose literals have it -/
theorem forall_lits_iff {lits : List Lit} {P : Lit → Prop} (hP : ∀ l : Lit, l.var = v → l ∈ lits → P l) :
    (∀ l ∈ lits, P l) ↔ ∀ l ∈ othersOf v lits, P l := by
  simp only [othersOf, List.mem_filter, bne_iff_ne]
  constructor
  · intro h l hboth
    rcases hboth with ⟨hl, -⟩
    exact h l hl
  · intro h l hl
    by_cases hv : l.var = v
    · exact hP l hv hl
    · exact h l ⟨hl, hv⟩

end Formula

namespace Setting

open Formula

variable {f : Formula} {cls : List (List Lit)} {values : Assignment} {comp : Component} {v w : Var} {c : ClauseId}

theorem proper (h : Setting f cls values comp) (hc : c.Within f.numLong) : Proper f.numVars (f.literals c) :=
  h.stores.proper _ (h.stores.literals_mem hc).1

theorem within (h : Setting f cls values comp) (hv : Candidate values comp v) : v.Within f.numVars :=
  h.vars v hv.1

theorem val_eq_unassigned (h : Setting f cls values comp) {l : Lit} (hl : Candidate values comp l.var) :
    values.val l = .unassigned :=
  (h.fits.free_var_iff h.small (h.within hl)).1 hl.2

/-- the variables of a long clause, the one that it is visited from first -/
theorem visited_vars (h : Setting f cls values comp) {lits : List Lit} (hcw : c.Within f.numLong)
    (hvc : v ∈ f.varsOf c) (ho : othersOf v (f.literals c) = lits) :
    (∀ w ∈ v :: lits.map Lit.var, w.Within f.numVars) ∧ (v :: lits.map Lit.var).Nodup := by
  subst ho
  refine ⟨fun w hw => ?_, List.nodup_cons.2 ⟨fun hv => ?_, (h.proper hcw).nodup.sublist (List.filter_sublist.map _)⟩⟩
  · obtain ⟨l, hl, rfl⟩ := List.mem_map.1 ((mem_vars_iff hvc).2 (List.mem_cons.1 hw))
    exact (h.proper hcw).within l hl
  · obtain ⟨l, hl, hlv⟩ := List.mem_map.1 hv
    exact var_ne_of_mem_othersOf hl hlv

theorem kept_iff_three (h : Setting f cls values comp) (hv : Candidate values comp v)
    (h3 : (f.literals c).length = 3) :
    f.Kept values comp c ↔
      c ∈ comp.clauses ∧ ∀ l ∈ othersOf v (f.literals c), values.val l ≠ .isTrue := by
  rw [Kept, if_pos h3]
  refine and_congr_right fun _ => forall_lits_iff fun l hl _ => ?_
  rw [h.val_eq_unassigned (hl ▸ hv)]
  simp

theorem kept_iff_long (hv : Candidate values comp v) (h3 : (f.literals c).length ≠ 3) :
    f.Kept values comp c ↔
      c ∈ comp.clauses ∧
        ∀ l ∈ othersOf v (f.literals c), ¬ Candidate values comp l.var → values.val l = .isFalse := by
  rw [Kept, if_neg h3]
  exact and_congr_right fun _ => forall_lits_iff fun l hl _ hn => absurd (hl ▸ hv) hn

theorem allActive_iff_three (h : Setting f cls values comp) (hv : Candidate values comp v)
    (h3 : (f.literals c).length = 3) :
    f.AllActive values comp c ↔ ∀ l ∈ othersOf v (f.literals c), values.val l = .unassigned := by
  rw [AllActive, if_pos h3]
  exact forall_lits_iff fun l hl _ => h.val_eq_unassigned (hl ▸ hv)

theorem allActive_iff_long (hv : Candidate values comp v) (h3 : (f.literals c).length ≠ 3) :
    f.AllActive values comp c ↔ ∀ l ∈ othersOf v (f.literals c), Candidate values comp l.var := by
  rw [AllActive, if_neg h3]
  exact forall_lits_iff fun l hl _ => hl ▸ hv

/-- two different candidates share a binary clause exactly if one has the other as a binary link -/
theorem binary_iff (h : Setting f cls values comp) (hv : v.Within f.numVars) (hne : v ≠ w) :
    (∃ c ∈ f.binaryClauses, v ∈ c.map Lit.var ∧ w ∈ c.map Lit.var) ↔ Link.binary w ∈ f.links v := by
  have hlt : v.id < 2147483648 := Nat.lt_of_le_of_lt hv.2 h.small
  have hpart : (∃ b, b.var = w ∧ (b ∈ f.partnersOf v.neg ∨ b ∈ f.partnersOf v.pos)) ↔
      ∃ a b, b ∈ f.partnersOf a ∧ a.var = v ∧ b.var = w := by
    constructor
    · intro hex
      rcases hex with ⟨b, hb, hm | hm⟩
      · exact ⟨_, b, hm, Var.var_neg hlt, hb⟩
      · exact ⟨_, b, hm, Var.var_pos hlt, hb⟩
    · intro hex
      rcases hex with ⟨a, b, hm, rfl, hb⟩
      rcases Lit.eq_pos_or_neg hlt with e | e
      · exact ⟨b, hb, Or.inr (e ▸ hm)⟩
      · exact ⟨b, hb, Or.inl (e ▸ hm)⟩
  rw [Stores.binary_mem_links, hpart]
  have hsymm : ∀ a b, b ∈ f.partnersOf a → a ∈ f.partnersOf b := by
    intro a b hb
    rw [h.stores.partners] at hb ⊢
    exact hb.symm
  constructor
  · intro hex
    rcases hex with ⟨c, hc, h1, h2⟩
    obtain ⟨a, b, rfl, -, hb⟩ := h.stores.mem_binaryClauses.1 hc
    simp only [List.map_cons, List.map_nil, List.mem_cons, List.not_mem_nil, or_false] at h1 h2
    rcases h1 with rfl | rfl <;> rcases h2 with rfl | rfl
    · exact absurd rfl hne
    · exact ⟨a, b, hb, rfl, rfl⟩
    · exact ⟨b, a, hsymm a b hb, rfl, rfl⟩
    · exact absurd rfl hne
  · intro hex
    rcases hex with ⟨a, b, hb, rfl, rfl⟩
    have hraw : a.raw ≠ b.raw := fun e => hne (congrArg Lit.var (Lit.ext_raw e))
    rcases Nat.lt_or_gt_of_ne hraw with hlt' | hlt'
    · exact ⟨[a, b], h.stores.mem_binaryClauses.2 ⟨a, b, rfl, hlt', hb⟩, by simp, by simp⟩
    · exact ⟨[b, a], h.stores.mem_binaryClauses.2 ⟨b, a, rfl, hlt', hsymm a b hb⟩, by simp, by simp⟩

end Setting

end ModelCount
