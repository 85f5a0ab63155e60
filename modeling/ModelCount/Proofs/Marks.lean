/-
Marks as two functions, one on variables and one on clauses.

Writing one mark changes one value of one function (`varMark_putVar`, `clauseMark_putClause`). A sweep (`claim`)
takes out the seen members of the super-component, in its order, and turns exactly their marks to claimed
(`claim_eq`). It packs them and their signature side by side (`Parcel.closed_eq`), whatever the buffer held before
(`claim_exact`).
-/
import Mathlib.Tactic
import ModelCount.Marks
import ModelCount.Proofs.Component
import ModelCount.Proofs.Outcome

namespace ModelCount.Marks

/-- the mark of a variable; one without a slot is outside -/
def varMark (m : Marks) (v : Var) : VarMark := (m.slots[v.index]?.map Slot.var).getD .outside

/-- the mark of a clause; one without a slot is outside -/
def clauseMark (m : Marks) (c : ClauseId) : ClauseMark := (m.slots[c.index]?.map Slot.clause).getD .outside

variable {m m' : Marks} {v w : Var} {c d : ClauseId}

/-! ## Single marks -/

theorem var_eq (h : v.index < m.numSlots) : m.var v = .ok (m.varMark v) := by
  unfold Marks.var varMark
  rw [Array.getElem?_eq_getElem h]
  rfl

theorem clause_eq (h : c.index < m.numSlots) : m.clause c = .ok (m.clauseMark c) := by
  unfold Marks.clause clauseMark
  rw [Array.getElem?_eq_getElem h]
  rfl

@[simp] theorem numSlots_putVar {x : VarMark} : (m.putVar v x).numSlots = m.numSlots := by
  simp [numSlots, putVar]

@[simp] theorem numSlots_putClause {x : ClauseMark} : (m.putClause c x).numSlots = m.numSlots := by
  simp [numSlots, putClause]

theorem Var.index_inj : v.index = w.index ↔ v = w := by
  cases v; cases w; simp [Var.index]

theorem ClauseId.index_inj : c.index = d.index ↔ c = d := by
  cases c; cases d; simp [ClauseId.index]

theorem varMark_putVar {x : VarMark} (h : v.index < m.numSlots) :
    (m.putVar v x).varMark w = if w = v then x else m.varMark w := by
  unfold varMark putVar
  simp only [Array.getElem?_modify]
  by_cases hw : w = v
  · subst hw
    have h' : w.index < m.slots.size := h
    simp [h']
  · have : v.index ≠ w.index := fun e => hw (Var.index_inj.1 e).symm
    simp [hw, this]

@[simp] theorem clauseMark_putVar {x : VarMark} : (m.putVar v x).clauseMark c = m.clauseMark c := by
  unfold clauseMark putVar
  simp only [Array.getElem?_modify]
  split_ifs
  · cases m.slots[c.index]? <;> rfl
  · rfl

theorem clauseMark_putClause {x : ClauseMark} (h : c.index < m.numSlots) :
    (m.putClause c x).clauseMark d = if d = c then x else m.clauseMark d := by
  unfold clauseMark putClause
  simp only [Array.getElem?_modify]
  by_cases hd : d = c
  · subst hd
    have h' : d.index < m.slots.size := h
    simp [h']
  · have : c.index ≠ d.index := fun e => hd (ClauseId.index_inj.1 e).symm
    simp [hd, this]

@[simp] theorem varMark_putClause {x : ClauseMark} : (m.putClause c x).varMark v = m.varMark v := by
  unfold varMark putClause
  simp only [Array.getElem?_modify]
  split_ifs
  · cases m.slots[v.index]? <;> rfl
  · rfl

/-- marks are their binding and the two functions -/
theorem ext_mark (hslots : m.numSlots = m'.numSlots) (hbinding : m.binding = m'.binding)
    (hv : ∀ v, m.varMark v = m'.varMark v) (hc : ∀ c, m.clauseMark c = m'.clauseMark c) : m = m' := by
  cases m with
  | mk slots binding =>
    cases m' with
    | mk slots' binding' =>
      congr 1
      refine Array.ext hslots fun i h h' => ?_
      have hvi := hv ⟨i⟩
      have hci := hc ⟨i⟩
      unfold varMark Var.index at hvi
      unfold clauseMark ClauseId.index at hci
      rw [Array.getElem?_eq_getElem h, Array.getElem?_eq_getElem h'] at hvi hci
      cases hs : slots[i] with
      | mk x y =>
        cases hs' : slots'[i] with
        | mk x' y' => simp_all

/-! ## Several marks -/

theorem setVars_eq {vars : List Var} {x : VarMark} (h : ∀ v ∈ vars, v.index < m.numSlots) :
    ∃ m', m.setVars vars x = .ok m' ∧ m'.numSlots = m.numSlots ∧ m'.binding = m.binding ∧
      (∀ v, m'.varMark v = if v ∈ vars then x else m.varMark v) ∧ ∀ c, m'.clauseMark c = m.clauseMark c := by
  induction vars generalizing m with
  | nil => exact ⟨m, rfl, rfl, rfl, fun v => by simp, fun c => rfl⟩
  | cons v vars ih =>
    have hv := h v (by simp)
    obtain ⟨m', h1, h2, h3, h4, h5⟩ := @ih (m.putVar v x) fun w hw => by
      rw [numSlots_putVar]; exact h w (List.mem_cons_of_mem _ hw)
    refine ⟨m', ?_, h2.trans numSlots_putVar, h3, fun w => ?_, fun c => ?_⟩
    · have hset : m.setVar v x = .ok (m.putVar v x) := if_pos hv
      unfold setVars at h1 ⊢
      rw [List.foldlM_cons, hset, Except.ok_bind, h1]
    · rw [h4, varMark_putVar hv]
      by_cases hw : w ∈ vars
      · simp [hw]
      · by_cases hwv : w = v <;> simp [hw, hwv]
    · rw [h5, clauseMark_putVar]

theorem setClauses_eq {clauses : List ClauseId} {x : ClauseMark} (h : ∀ c ∈ clauses, c.index < m.numSlots) :
    ∃ m', m.setClauses clauses x = .ok m' ∧ m'.numSlots = m.numSlots ∧ m'.binding = m.binding ∧
      (∀ v, m'.varMark v = m.varMark v) ∧
      ∀ c, m'.clauseMark c = if c ∈ clauses then x else m.clauseMark c := by
  induction clauses generalizing m with
  | nil => exact ⟨m, rfl, rfl, rfl, fun v => rfl, fun c => by simp⟩
  | cons c clauses ih =>
    have hc := h c (by simp)
    obtain ⟨m', h1, h2, h3, h4, h5⟩ := @ih (m.putClause c x) fun d hd => by
      rw [numSlots_putClause]; exact h d (List.mem_cons_of_mem _ hd)
    refine ⟨m', ?_, h2.trans numSlots_putClause, h3, fun v => ?_, fun d => ?_⟩
    · have hset : m.setClause c x = .ok (m.putClause c x) := if_pos hc
      unfold setClauses at h1 ⊢
      rw [List.foldlM_cons, hset, Except.ok_bind, h1]
    · rw [h4, varMark_putClause]
    · rw [h5, clauseMark_putClause hc]
      by_cases hd : d ∈ clauses
      · simp [hd]
      · by_cases hdc : d = c <;> simp [hd, hdc]

/-- binding clears all marks -/
theorem bind_eq (index : ℕ) (comp : Component) (h : 0 < m.numSlots) :
    ∃ m', m.bind index comp = .ok m' ∧ m'.numSlots = m.numSlots ∧ m'.binding = some (index, comp.id) ∧
      (∀ v, m'.varMark v = .outside) ∧ ∀ c, m'.clauseMark c = .outside := by
  have hne : ¬ m.slots.isEmpty = true := by
    rw [Array.isEmpty_iff_size_eq_zero]
    unfold numSlots at h
    omega
  refine ⟨_, by unfold Marks.bind; rw [if_neg hne], by simp [numSlots, clear], rfl, fun v => ?_, fun c => ?_⟩
  · unfold varMark clear
    simp only [Array.getElem?_replicate]
    split_ifs <;> rfl
  · unfold clauseMark clear
    simp only [Array.getElem?_replicate]
    split_ifs <;> rfl

/-! ## First occurrences -/

theorem nodup_eraseDups {α : Type} [BEq α] [LawfulBEq α] (l : List α) : l.eraseDups.Nodup := by
  induction hn : l.length using Nat.strong_induction_on generalizing l with
  | _ n ih =>
    cases l with
    | nil => simp
    | cons x l =>
      rw [List.eraseDups_cons, List.nodup_cons]
      refine ⟨by simp, ih _ ?_ _ rfl⟩
      have := List.length_filter_le (fun y => !y == x) l
      rw [List.length_cons] at hn
      omega

theorem eraseDups_of_nodup {α : Type} [BEq α] [LawfulBEq α] {l : List α} (h : l.Nodup) : l.eraseDups = l := by
  induction l with
  | nil => rfl
  | cons x l ih =>
    obtain ⟨hx, hl⟩ := List.nodup_cons.1 h
    have hkeep : l.filter (fun y => !y == x) = l :=
      List.filter_eq_self.2 fun y hy => by simpa using fun e : y = x => hx (e ▸ hy)
    rw [List.eraseDups_cons, hkeep, ih hl]

theorem eraseDups_map {α β : Type} [BEq α] [LawfulBEq α] [BEq β] [LawfulBEq β] {f : α → β} {l : List α}
    (h : ∀ x ∈ l, ∀ y ∈ l, f x = f y → x = y) : (l.map f).eraseDups = l.eraseDups.map f := by
  induction hn : l.length using Nat.strong_induction_on generalizing l with
  | _ n ih =>
    cases l with
    | nil => rfl
    | cons x l =>
      have hfilter : (l.map f).filter (fun y => !y == f x) = (l.filter fun y => !y == x).map f := by
        rw [List.filter_map]
        refine congrArg (List.map f) (List.filter_congr fun y hy => ?_)
        have hxy : f y = f x ↔ y = x :=
          ⟨h y (List.mem_cons_of_mem _ hy) x List.mem_cons_self, congrArg f⟩
        by_cases hyx : y = x <;> simp [hyx, hxy]
      have hle := List.length_filter_le (fun y => !y == x) l
      have hrest : ∀ y ∈ l.filter (fun y => !y == x), y ∈ x :: l :=
        fun y hy => List.mem_cons_of_mem _ (List.mem_of_mem_filter hy)
      rw [List.map_cons, List.eraseDups_cons, List.eraseDups_cons, List.map_cons, hfilter]
      rw [ih _ (by rw [List.length_cons] at hn; omega) (fun y hy z hz => h y (hrest y hy) z (hrest z hz)) rfl]

/-! ## Packing -/

namespace Parcel

variable {p : Parcel}

theorem foldl_addVar (vars : List Var) :
    vars.foldl addVar p = ⟨vars.foldl Component.addVar p.part, p.buffer ++ vars.map Var.id⟩ := by
  induction vars generalizing p with
  | nil => simp
  | cons v vars ih => rw [List.foldl_cons, ih]; simp [addVar]

/-- one more clause of a list with flags -/
def addFlagged (p : Parcel) (c : ClauseId × Bool) : Parcel := p.addClause c.1 c.2

theorem foldl_addFlagged (clauses : List (ClauseId × Bool)) :
    clauses.foldl addFlagged p = ⟨(clauses.map Prod.fst).foldl Component.addClause p.part,
      p.buffer ++ ((clauses.filter fun c => !c.2).map Prod.fst).map ClauseId.id⟩ := by
  induction clauses generalizing p with
  | nil => simp
  | cons c clauses ih =>
    obtain ⟨c, allActive⟩ := c
    rw [List.foldl_cons, ih]
    cases allActive <;> simp [addFlagged, addClause]

/-- no word of a buffer is used again -/
@[simp] theorem fresh_eq (buffer : Array ℕ) : fresh buffer = ⟨.blank, #[]⟩ := by
  simp [fresh]

/-- a parcel that was filled and closed -/
theorem closed_eq (buffer : Array ℕ) (vars : List Var) (clauses : List (ClauseId × Bool)) :
    (clauses.foldl addFlagged (vars.foldl addVar (fresh buffer)).closeVars).closeClauses =
      ⟨.ofParts vars (clauses.map Prod.fst),
        (Signature.ofParts vars ((clauses.filter fun c => !c.2).map Prod.fst)).words.toArray⟩ := by
  rw [foldl_addVar, foldl_addFlagged]
  simp [closeVars, closeClauses, Component.ofParts, Signature.ofParts]

end Parcel

/-! ## Taking a component out -/

/-- a sweep over variables packs the first occurrence of each seen one -/
theorem claimVars_eq {vars : List Var} {p : Parcel} (h : ∀ v ∈ vars, v.index < m.numSlots) :
    ∃ m', m.claimVars p vars = .ok ((vars.filter fun v => m.varMark v == .seen).eraseDups.foldl Parcel.addVar p, m') ∧
      m'.numSlots = m.numSlots ∧ m'.binding = m.binding ∧
      (∀ v, m'.varMark v = if v ∈ vars ∧ m.varMark v = .seen then .claimed else m.varMark v) ∧
      ∀ c, m'.clauseMark c = m.clauseMark c := by
  induction vars generalizing m p with
  | nil => exact ⟨m, rfl, rfl, rfl, fun v => by simp, fun c => rfl⟩
  | cons v vars ih =>
    have hv := h v (by simp)
    rw [claimVars, var_eq hv, Except.ok_bind]
    by_cases hs : m.varMark v = .seen
    · obtain ⟨m', h1, h2, h3, h4, h5⟩ := @ih (m.putVar v .claimed) (p.addVar v)
        (fun w hw => by rw [numSlots_putVar]; exact h w (List.mem_cons_of_mem _ hw))
      -- later occurrences of `v` are claimed when their turn comes
      have hfilter : vars.filter (fun w => (m.putVar v .claimed).varMark w == .seen) =
          (vars.filter fun w => m.varMark w == .seen).filter fun w => !w == v := by
        rw [List.filter_filter]
        refine List.filter_congr fun w _ => ?_
        rw [varMark_putVar hv]
        by_cases hw : w = v <;> simp [hw]
      refine ⟨m', ?_, h2.trans numSlots_putVar, h3, fun w => ?_, fun c => ?_⟩
      · rw [if_pos hs, h1, hfilter, List.filter_cons, if_pos (by simp [hs]), List.eraseDups_cons, List.foldl_cons]
      · rw [h4, varMark_putVar hv]
        by_cases hw : w = v
        · subst hw
          simp [hs]
        · simp [hw]
      · rw [h5, clauseMark_putVar]
    · obtain ⟨m', h1, h2, h3, h4, h5⟩ := @ih m p (fun w hw => h w (List.mem_cons_of_mem _ hw))
      refine ⟨m', ?_, h2, h3, fun w => ?_, h5⟩
      · rw [if_neg hs, h1, List.filter_cons, if_neg (by simp [hs])]
      · rw [h4]
        by_cases hw : w = v
        · subst hw
          simp [hs]
        · simp [hw]

/-- the clause is seen, with its flag -/
def seenFlag (m : Marks) (c : ClauseId) : Option (ClauseId × Bool) :=
  match m.clauseMark c with
  | .seen allActive => some (c, allActive)
  | _ => none

theorem seenFlag_eq_some {p : ClauseId × Bool} : m.seenFlag c = some p ↔ c = p.1 ∧ m.clauseMark c = .seen p.2 := by
  obtain ⟨d, b⟩ := p
  unfold seenFlag
  cases m.clauseMark c <;> simp

/-- a claimed clause is seen no more -/
theorem seenFlag_putClause (h : c.index < m.numSlots) :
    (m.putClause c .claimed).seenFlag d = if d = c then none else m.seenFlag d := by
  unfold seenFlag
  rw [clauseMark_putClause h]
  split_ifs <;> rfl

/-- a sweep over clauses packs the first occurrence of each seen one -/
theorem claimClauses_eq {clauses : List ClauseId} {p : Parcel} (h : ∀ c ∈ clauses, c.index < m.numSlots) :
    ∃ m', m.claimClauses p clauses = .ok ((clauses.filterMap m.seenFlag).eraseDups.foldl Parcel.addFlagged p, m') ∧
      m'.numSlots = m.numSlots ∧ m'.binding = m.binding ∧ (∀ v, m'.varMark v = m.varMark v) ∧
      ∀ c, m'.clauseMark c = if c ∈ clauses ∧ (m.seenFlag c).isSome then .claimed else m.clauseMark c := by
  induction clauses generalizing m p with
  | nil => exact ⟨m, rfl, rfl, rfl, fun v => rfl, fun c => by simp⟩
  | cons c clauses ih =>
    have hc := h c (by simp)
    rw [claimClauses, clause_eq hc, Except.ok_bind]
    cases hm : m.seenFlag c with
    | some q =>
      obtain ⟨hcq, hs⟩ := seenFlag_eq_some.1 hm
      obtain ⟨m', h1, h2, h3, h4, h5⟩ := @ih (m.putClause c .claimed) (p.addClause c q.2)
        (fun d hd => by rw [numSlots_putClause]; exact h d (List.mem_cons_of_mem _ hd))
      have hfilter : clauses.filterMap (m.putClause c .claimed).seenFlag =
          (clauses.filterMap m.seenFlag).filter fun r => !r == q := by
        rw [List.filter_filterMap]
        refine List.filterMap_congr fun d _ => ?_
        rw [seenFlag_putClause hc]
        by_cases hd : d = c
        · rw [if_pos hd, hd, hm]
          simp [Option.filter]
        · rw [if_neg hd]
          cases hdm : m.seenFlag d with
          | none => rfl
          | some r =>
            have hne : r ≠ q := fun e => hd ((seenFlag_eq_some.1 hdm).1.trans (e ▸ hcq.symm))
            simp [Option.filter, hne]
      refine ⟨m', ?_, h2.trans numSlots_putClause, h3, fun v => ?_, fun d => ?_⟩
      · rw [hs]
        simp only
        rw [h1, hfilter, List.filterMap_cons_some hm, List.eraseDups_cons, List.foldl_cons, Parcel.addFlagged, ← hcq]
      · rw [h4, varMark_putClause]
      · rw [h5, clauseMark_putClause hc, seenFlag_putClause hc]
        by_cases hd : d = c
        · subst hd
          simp [hm]
        · simp [hd]
    | none =>
      obtain ⟨m', h1, h2, h3, h4, h5⟩ := @ih m p (fun d hd => h d (List.mem_cons_of_mem _ hd))
      refine ⟨m', ?_, h2, h3, h4, fun d => ?_⟩
      · rw [List.filterMap_cons_none hm, ← h1]
        unfold seenFlag at hm
        cases hs : m.clauseMark c with
        | seen b => rw [hs] at hm; cases hm
        | _ => rfl
      · rw [h5]
        by_cases hd : d = c
        · subst hd
          simp [hm]
        · simp [hd]

def seenVars (m : Marks) (comp : Component) : List Var := comp.vars.filter fun v => m.varMark v == .seen

/-- the seen clauses of a super-component, with their flags -/
def seenClauses (m : Marks) (comp : Component) : List (ClauseId × Bool) := comp.clauses.filterMap m.seenFlag

theorem isSome_seenFlag : (m.seenFlag c).isSome = true ↔ ∃ b, m.clauseMark c = .seen b := by
  unfold seenFlag
  cases m.clauseMark c <;> simp

theorem isSome_seenFlag_eq :
    (m.seenFlag c).isSome = (m.clauseMark c == .seen true || m.clauseMark c == .seen false) := by
  unfold seenFlag
  cases m.clauseMark c with
  | seen b => cases b <;> rfl
  | _ => rfl

theorem mem_seenClauses {comp : Component} {p : ClauseId × Bool} :
    p ∈ m.seenClauses comp ↔ p.1 ∈ comp.clauses ∧ m.clauseMark p.1 = .seen p.2 := by
  simp only [seenClauses, List.mem_filterMap, seenFlag_eq_some]
  constructor
  · intro hex
    rcases hex with ⟨d, hd, rfl, hs⟩
    exact ⟨hd, hs⟩
  · intro hboth
    rcases hboth with ⟨hd, hs⟩
    exact ⟨p.1, hd, rfl, hs⟩

theorem map_fst_seenClauses {comp : Component} :
    (m.seenClauses comp).map Prod.fst = comp.clauses.filter fun c => (m.seenFlag c).isSome := by
  unfold seenClauses
  induction comp.clauses with
  | nil => rfl
  | cons c clauses ih =>
    cases hc : m.seenFlag c with
    | none => rw [List.filterMap_cons_none hc, ih, List.filter_cons, if_neg (by simp [hc])]
    | some p =>
      rw [List.filterMap_cons_some hc, List.map_cons, ih, List.filter_cons, if_pos (by simp [hc]),
        (seenFlag_eq_some.1 hc).1]

/-- **One sweep** over any lists, with any buffer: what is packed are the first occurrences of the seen members. -/
theorem claimInto_eq {comp : Component} {index : ℕ} (hb : m.binding = some (index, comp.id))
    (hv : ∀ v ∈ comp.vars, v.index < m.numSlots) (hc : ∀ c ∈ comp.clauses, c.index < m.numSlots) (buffer : Array ℕ) :
    ∃ m', m.claimInto buffer comp = .ok (⟨.ofParts (m.seenVars comp).eraseDups ((m.seenClauses comp).eraseDups.map Prod.fst),
        (Signature.ofParts (m.seenVars comp).eraseDups
          (((m.seenClauses comp).eraseDups.filter fun c => !c.2).map Prod.fst)).words.toArray⟩, m') ∧
      m'.numSlots = m.numSlots ∧ m'.binding = m.binding ∧
      (∀ v, m'.varMark v = if v ∈ comp.vars ∧ m.varMark v = .seen then .claimed else m.varMark v) ∧
      ∀ c, m'.clauseMark c = if c ∈ comp.clauses ∧ (m.seenFlag c).isSome then .claimed else m.clauseMark c := by
  obtain ⟨m1, h1, h2, h3, h4, h5⟩ := claimVars_eq (p := .fresh buffer) hv
  have hc1 : ∀ c ∈ comp.clauses, c.index < m1.numSlots := fun c hc' => by rw [h2]; exact hc c hc'
  obtain ⟨m2, k1, k2, k3, k4, k5⟩ :=
    claimClauses_eq (p := ((m.seenVars comp).eraseDups.foldl Parcel.addVar (.fresh buffer)).closeVars) hc1
  have hflag : m1.seenFlag = m.seenFlag := by
    funext c
    unfold seenFlag
    rw [h5]
  refine ⟨m2, ?_, k2.trans h2, k3.trans h3, fun v => by rw [k4, h4], fun c => by rw [k5, h5, hflag]⟩
  rw [claimInto, hb]
  simp only [ne_eq, not_true_eq_false, if_false]
  rw [h1, Except.ok_bind]
  simp only
  rw [← seenVars, k1, Except.ok_bind, hflag, ← Parcel.closed_eq buffer]
  rfl

/-- **One sweep.** The seen members come out in the order of the super-component, the clauses with all literals
active are left out of the signature only, and exactly the members that came out are claimed afterwards. -/
theorem claim_eq {comp : Component} {index : ℕ} (hb : m.binding = some (index, comp.id))
    (hv : ∀ v ∈ comp.vars, v.index < m.numSlots) (hvd : comp.vars.Nodup)
    (hc : ∀ c ∈ comp.clauses, c.index < m.numSlots) (hcd : comp.clauses.Nodup) :
    ∃ m', m.claim comp = .ok (.ofParts (m.seenVars comp) ((m.seenClauses comp).map Prod.fst),
        .ofParts (m.seenVars comp) (((m.seenClauses comp).filter fun c => !c.2).map Prod.fst), m') ∧
      m'.numSlots = m.numSlots ∧ m'.binding = m.binding ∧
      (∀ v, m'.varMark v = if v ∈ comp.vars ∧ m.varMark v = .seen then .claimed else m.varMark v) ∧
      ∀ c, m'.clauseMark c = if c ∈ comp.clauses ∧ (m.seenFlag c).isSome then .claimed else m.clauseMark c := by
  obtain ⟨m', hclaim, hrest⟩ := claimInto_eq hb hv hc #[]
  have hvars : (m.seenVars comp).eraseDups = m.seenVars comp := eraseDups_of_nodup (hvd.filter _)
  have hclauses : (m.seenClauses comp).eraseDups = m.seenClauses comp := by
    refine eraseDups_of_nodup (.of_map Prod.fst ?_)
    rw [map_fst_seenClauses]
    exact hcd.filter _
  refine ⟨m', ?_, hrest⟩
  rw [claim, hclaim, Except.ok_bind, hvars, hclauses]
  rfl

/-! ## What a sweep takes out and leaves -/

/-- the clauses that come out of a sweep -/
theorem map_fst_claimed {comp : Component} :
    (m.seenClauses comp).eraseDups.map Prod.fst = (comp.clauses.filter fun c => (m.seenFlag c).isSome).eraseDups := by
  rw [← map_fst_seenClauses, eraseDups_map]
  intro p hp q hq heq
  have hmarks : ClauseMark.seen p.2 = .seen q.2 := by
    rw [← (mem_seenClauses.1 hp).2, ← (mem_seenClauses.1 hq).2, heq]
  exact Prod.ext heq (ClauseMark.seen.inj hmarks)

/-- the clauses that come into the signature: those that come out, less the ones with all literals active -/
theorem map_fst_listed {comp : Component} :
    ((m.seenClauses comp).eraseDups.filter fun c => !c.2).map Prod.fst =
      ((m.seenClauses comp).eraseDups.map Prod.fst).filter fun c => !m.clauseMark c == .seen true := by
  rw [List.filter_map]
  refine congrArg (List.map Prod.fst) (List.filter_congr fun p hp => ?_)
  have hmark := (mem_seenClauses.1 (List.mem_eraseDups.1 hp)).2
  cases hp2 : p.2 <;> simp [hmark, hp2]

/-- a sweep does the same with any buffer -/
theorem claimInto_buffer (buffer : Array ℕ) (m : Marks) (comp : Component) :
    m.claimInto buffer comp = m.claimInto #[] comp := by
  simp only [claimInto, Parcel.fresh_eq]

/-- after a sweep nothing of the super-component is seen -/
theorem seen_claimed {comp : Component} {m' : Marks}
    (hvar : ∀ v, m'.varMark v = if v ∈ comp.vars ∧ m.varMark v = .seen then .claimed else m.varMark v)
    (hclause : ∀ c, m'.clauseMark c = if c ∈ comp.clauses ∧ (m.seenFlag c).isSome then .claimed else m.clauseMark c) :
    m'.seenVars comp = [] ∧ m'.seenClauses comp = [] := by
  constructor
  · refine List.filter_eq_nil_iff.2 fun v hv hs => ?_
    rw [beq_iff_eq, hvar] at hs
    split_ifs at hs with hseen
    exact hseen ⟨hv, hs⟩
  · refine List.filterMap_eq_nil_iff.2 fun c hc => Option.not_isSome_iff_eq_none.1 fun hs => ?_
    obtain ⟨b, hb⟩ := isSome_seenFlag.1 hs
    rw [hclause] at hb
    split_ifs at hb with hseen
    exact hseen ⟨hc, isSome_seenFlag.2 ⟨b, hb⟩⟩

/-- where nothing is seen, a sweep takes nothing out and changes no mark -/
theorem claimInto_idle {comp : Component} {index : ℕ} (hb : m.binding = some (index, comp.id))
    (hv : ∀ v ∈ comp.vars, v.index < m.numSlots) (hc : ∀ c ∈ comp.clauses, c.index < m.numSlots)
    (hvars : m.seenVars comp = []) (hclauses : m.seenClauses comp = []) (buffer : Array ℕ) :
    m.claimInto buffer comp = .ok (⟨.empty, #[0, 0]⟩, m) := by
  obtain ⟨m', hclaim, hslots, hbinding, hvar, hclause⟩ := claimInto_eq hb hv hc buffer
  have hsame : m' = m := by
    refine ext_mark hslots hbinding (fun v => ?_) fun c => ?_
    · rw [hvar, if_neg]
      intro hboth
      have : v ∈ m.seenVars comp := List.mem_filter.2 ⟨hboth.1, by simp [hboth.2]⟩
      rw [hvars] at this
      cases this
    · rw [hclause, if_neg]
      intro hboth
      obtain ⟨b, hb⟩ := isSome_seenFlag.1 hboth.2
      have : (c, b) ∈ m.seenClauses comp := mem_seenClauses.2 ⟨hboth.1, hb⟩
      rw [hclauses] at this
      cases this
  rw [hclaim, hvars, hclauses, hsame]
  rfl

/-- **A sweep**, whatever the marks are and whatever words earlier sweeps have left in the buffer.
- What comes out are the seen members, each once, in the order of the super-component, packed.
- The signature is that of the component without the clauses that were seen with all literals active; it is what the
  buffer holds, in which the two ends of the lists are the only zeros.
- The marks that become claimed are those of the members that came out, and so another sweep takes nothing out. -/
theorem claim_exact {comp : Component} {index : ℕ} (hb : m.binding = some (index, comp.id))
    (hv : ∀ v ∈ comp.vars, v.id ≠ 0 ∧ v.index < m.numSlots)
    (hc : ∀ c ∈ comp.clauses, c.id ≠ 0 ∧ c.index < m.numSlots) :
    ∃ part signature m', m.claim comp = .ok (part, signature, m') ∧
      part = .ofParts part.vars part.clauses ∧ part.vars.Nodup ∧ part.clauses.Nodup ∧
      part.vars = (comp.vars.filter fun v => m.varMark v == .seen).eraseDups ∧
      part.clauses = (comp.clauses.filter fun c =>
        m.clauseMark c == .seen true || m.clauseMark c == .seen false).eraseDups ∧
      signature = .ofComponent part (fun c => m.clauseMark c == .seen true) ∧
      m'.numSlots = m.numSlots ∧ m'.binding = m.binding ∧
      (∀ v, m'.varMark v = if v ∈ part.vars then .claimed else m.varMark v) ∧
      (∀ c, m'.clauseMark c = if c ∈ part.clauses then .claimed else m.clauseMark c) ∧
      m'.claim comp = .ok (.empty, .ofParts [] [], m') ∧
      ∀ buffer, ∃ p, m.claimInto buffer comp = .ok (p, m') ∧ p.part = part ∧ p.buffer.toList = signature.words ∧
        p.buffer.toList.count 0 = 2 ∧ m'.claimInto p.buffer comp = .ok (⟨.empty, #[0, 0]⟩, m') := by
  have hv' : ∀ v ∈ comp.vars, v.index < m.numSlots := fun v hm => (hv v hm).2
  have hc' : ∀ c ∈ comp.clauses, c.index < m.numSlots := fun c hm => (hc c hm).2
  obtain ⟨m', hclaim, hslots, hbinding, hvar, hclause⟩ := claimInto_eq hb hv' hc' #[]
  set vars := (m.seenVars comp).eraseDups with hvars
  set clauses := (m.seenClauses comp).eraseDups.map Prod.fst with hclauses
  have hmem : ∀ v, v ∈ vars ↔ v ∈ comp.vars ∧ m.varMark v = .seen := by
    intro v
    rw [hvars, List.mem_eraseDups, seenVars, List.mem_filter, beq_iff_eq]
  have hmem' : ∀ c, c ∈ clauses ↔ c ∈ comp.clauses ∧ (m.seenFlag c).isSome = true := by
    intro c
    rw [hclauses, map_fst_claimed, List.mem_eraseDups, List.mem_filter]
  have hagain : ∀ buffer, m'.claimInto buffer comp = .ok (⟨.empty, #[0, 0]⟩, m') := by
    obtain ⟨hnone, hnone'⟩ := seen_claimed hvar hclause
    exact claimInto_idle (hbinding ▸ hb) (fun v hm => hslots ▸ hv' v hm) (fun c hm => hslots ▸ hc' c hm) hnone hnone'
  rw [map_fst_listed, ← hclauses] at hclaim
  refine ⟨.ofParts vars clauses, .ofParts vars (clauses.filter fun c => !m.clauseMark c == .seen true), m', ?_, ?_, ?_,
    ?_, ?_, ?_, ?_, hslots, hbinding, fun v => ?_, fun c => ?_, ?_,
    fun buffer => ⟨_, (claimInto_buffer buffer m comp).trans hclaim, rfl, rfl, ?_, hagain _⟩⟩
  · rw [claim, hclaim, Except.ok_bind]
    rfl
  · rw [Component.vars_ofParts, Component.clauses_ofParts]
  · rw [Component.vars_ofParts]
    exact nodup_eraseDups _
  · rw [Component.clauses_ofParts, hclauses, map_fst_claimed]
    exact nodup_eraseDups _
  · rw [Component.vars_ofParts]
    rfl
  · rw [Component.clauses_ofParts, hclauses, map_fst_claimed]
    simp only [isSome_seenFlag_eq]
  · rw [Signature.ofComponent, Component.vars_ofParts, Component.clauses_ofParts]
  · simp only [hvar, Component.vars_ofParts, hmem]
  · simp only [hclause, Component.clauses_ofParts, hmem']
  · rw [claim, hagain, Except.ok_bind]
    rfl
  · exact Signature.count_zero_ofParts (fun v hm => (hv v ((hmem v).1 hm).1).1)
      fun c hm => (hc c ((hmem' c).1 (List.mem_of_mem_filter hm)).1).1

/-- a super-component that lists a variable and a clause twice, marks of every kind, and a variable and a clause that
are seen but no members -/
theorem claim_exact_mixed :
    let comp := (Component.ofParts ([3, 1, 4, 2, 1, 5].map Var.mk) ([2, 4, 1, 2, 3].map ClauseId.mk)).withId ⟨7⟩
    let m : Marks := ⟨#[⟨.outside, .outside⟩, ⟨.seen, .seen false⟩, ⟨.unseen, .seen true⟩, ⟨.seen, .claimed⟩,
      ⟨.claimed, .unseen⟩, ⟨.outside, .outside⟩, ⟨.seen, .seen true⟩], some (1, ⟨7⟩)⟩
    (∀ v ∈ comp.vars, v.id ≠ 0 ∧ v.index < m.numSlots) ∧ (∀ c ∈ comp.clauses, c.id ≠ 0 ∧ c.index < m.numSlots) ∧
      ∃ part signature m', m.claim comp = .ok (part, signature, m') ∧ part.vars = [3, 1].map Var.mk ∧
        part.clauses = [2, 1].map ClauseId.mk ∧ signature.words = [3, 1, 0, 1, 0] ∧
        (List.range 7).map (fun i => m'.varMark ⟨i⟩) =
          [.outside, .claimed, .unseen, .claimed, .claimed, .outside, .seen] ∧
        (List.range 7).map (fun i => m'.clauseMark ⟨i⟩) =
          [.outside, .claimed, .claimed, .claimed, .unseen, .outside, .seen true] ∧
        ∃ p, m.claimInto #[9, 0, 0, 8] comp = .ok (p, m') ∧ p.buffer.toList = [3, 1, 0, 1, 0] := by
  intro comp m
  have hv : ∀ v ∈ comp.vars, v.id ≠ 0 ∧ v.index < m.numSlots := by decide
  have hc : ∀ c ∈ comp.clauses, c.id ≠ 0 ∧ c.index < m.numSlots := by decide
  obtain ⟨part, signature, m', hclaim, -, -, -, hvars, hclauses, hsignature, -, -, hvar, hclause, -, hbuffer⟩ :=
    @claim_exact m comp 1 rfl hv hc
  have hvars' : part.vars = [3, 1].map Var.mk := hvars.trans (by decide)
  have hclauses' : part.clauses = [2, 1].map ClauseId.mk := hclauses.trans (by decide)
  have hwords : signature.words = [3, 1, 0, 1, 0] := by
    rw [hsignature, Signature.ofComponent, hvars', hclauses']
    decide
  obtain ⟨p, hinto, -, hp, -⟩ := hbuffer #[9, 0, 0, 8]
  refine ⟨hv, hc, part, signature, m', hclaim, hvars', hclauses', hwords, ?_, ?_, p, hinto, hp.trans hwords⟩
  · simp only [hvar, hvars']
    decide
  · simp only [hclause, hclauses']
    decide

end ModelCount.Marks
