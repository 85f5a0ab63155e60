/-
Nodes as a search meets them.

After unit propagation every clause is satisfied or has two literals without a value, and a super-component that was
split off earlier contains all of every unsatisfied clause that it touches (`ValidNode`). Then the kept clauses are
the unsatisfied ones, every class of candidates is closed, and what is left of the formula on a part is what the
signature of the part stands for (`residual_eq_standing`).
-/
import Mathlib.Tactic
import ModelCount.Proofs.Part
import ModelCount.Proofs.Residual

namespace ModelCount

open Formula

/-- a super-component and an assignment at which units are propagated and no unsatisfied clause leaves the
super-component -/
structure ValidNode (f : Formula) (values : Assignment) (comp : Component) : Prop where
  propagated : ∀ c ∈ f.clauses, Propagated values c
  vars : ∀ v ∈ comp.vars, v.Within f.numVars
  varsAscending : comp.vars.Pairwise fun v w => v.id < w.id
  clauses : ∀ c ∈ comp.clauses, c.Within f.numLong
  clausesAscending : comp.clauses.Pairwise fun c d => c.id < d.id
  binary : ∀ c ∈ f.binaryClauses, Unsatisfied values c → (∃ l ∈ c, Candidate values comp l.var) →
    ∀ l ∈ c, values.Free l.var → l.var ∈ comp.vars
  long : ∀ c : ClauseId, c.Within f.numLong → Unsatisfied values (f.literals c) →
    (∃ l ∈ f.literals c, Candidate values comp l.var) →
    c ∈ comp.clauses ∧ ∀ l ∈ f.literals c, values.Free l.var → l.var ∈ comp.vars

/-- a strictly ascending list has nothing twice -/
theorem nodup_of_ascending {α : Type} {key : α → ℕ} {l : List α} (h : l.Pairwise fun a b => key a < key b) : l.Nodup :=
  h.imp fun hlt heq => Nat.ne_of_lt hlt (congrArg key heq)

theorem ValidNode.setting {f : Formula} {cls : List (List Lit)} {values : Assignment} {comp : Component}
    (h : ValidNode f values comp) (hf : f.Stores cls) (hn : f.numVars < 2147483648) (hv : values.Fits f.numVars) :
    Setting f cls values comp :=
  ⟨hf, hn, hv, h.vars, nodup_of_ascending h.varsAscending, h.clauses, nodup_of_ascending h.clausesAscending⟩

/-- what a signature stands for: the listed clauses restricted to the variables, and all clauses over them -/
def Formula.standing (f : Formula) (K : Finset Var) (listed : List ClauseId) : List (List Lit) :=
  ((f.units.map (fun a => [a]) ++ f.binaryClauses).filter fun c => decide (∀ l ∈ c, l.var ∈ K)).map
      (List.filter fun l => decide (l.var ∈ K)) ++
    (f.longClauses.filter fun p => decide (p.1 ∈ listed ∨ ∀ l ∈ p.2, l.var ∈ K)).map
      fun p => p.2.filter fun l => decide (l.var ∈ K)

namespace Formula

theorem unit_mem_clauses {f : Formula} {a : Lit} (ha : a ∈ f.units) : [a] ∈ f.clauses :=
  List.mem_append_left _ (List.mem_append_left _ (List.mem_map.2 ⟨a, ha, rfl⟩))

theorem binary_mem_clauses {f : Formula} {c : List Lit} (hc : c ∈ f.binaryClauses) : c ∈ f.clauses :=
  List.mem_append_left _ (List.mem_append_right _ hc)

theorem Stores.literals_mem_clauses {f : Formula} {cls : List (List Lit)} (h : Stores f cls) {c : ClauseId}
    (hc : c.Within f.numLong) : f.literals c ∈ f.clauses :=
  List.mem_append_right _ (List.mem_map.2 ⟨(c, f.literals c), h.mem_longClauses_iff.2 ⟨hc, rfl⟩, rfl⟩)

end Formula

theorem Setting.reads {f : Formula} {cls : List (List Lit)} {values : Assignment} {comp : Component}
    (hs : Setting f cls values comp) : Reads f.numVars values f.clauses :=
  ⟨hs.small, hs.fits, fun _ hc => hs.stores.proper_of_mem_clauses hc⟩

/-- a clause of a kind: a unit, a binary clause or a long one -/
theorem Setting.clause_cases {f : Formula} {cls : List (List Lit)} {values : Assignment} {comp : Component}
    (hs : Setting f cls values comp) {c : List Lit} (hc : c ∈ f.clauses) :
    (∃ a, c = [a]) ∨ c ∈ f.binaryClauses ∨ ∃ d : ClauseId, d.Within f.numLong ∧ f.literals d = c := by
  simp only [Formula.clauses, List.mem_append] at hc
  rcases hc with (hc | hc) | hc
  · obtain ⟨a, -, rfl⟩ := List.mem_map.1 hc
    exact Or.inl ⟨a, rfl⟩
  · exact Or.inr (Or.inl hc)
  · obtain ⟨⟨d, lits⟩, hd, rfl⟩ := List.mem_map.1 hc
    exact Or.inr (Or.inr ⟨d, hs.stores.mem_longClauses_iff.1 hd⟩)

/-- a clause with at most one literal is satisfied once units are propagated -/
theorem Propagated.not_unsatisfied {values : Assignment} {c : List Lit} (h : Propagated values c)
    (hlen : c.length ≤ 1) : ¬ Unsatisfied values c := by
  refine h.resolve_right fun htwo => ?_
  have := List.length_filter_le (fun l => decide (values.val l = .unassigned)) c
  omega

namespace ValidNode

variable {f : Formula} {cls : List (List Lit)} {values : Assignment} {comp part : Component} {v w : Var}
  {c : ClauseId} {signature : Signature}

theorem kept_unsatisfied (hs : Setting f cls values comp) (hk : f.Kept values comp c) :
    Unsatisfied values (f.literals c) := by
  intro l hl
  have hif := hk.2
  split_ifs at hif with h3
  · exact hif l hl
  · by_cases hcand : Candidate values comp l.var
    · rw [hs.val_eq_unassigned hcand]; simp
    · rw [hif l hl hcand]; simp

/-- the kept clauses with a candidate are the unsatisfied ones -/
theorem kept_of_unsatisfied (hs : Setting f cls values comp) (h : ValidNode f values comp) (hc : c.Within f.numLong)
    (hu : Unsatisfied values (f.literals c)) (ht : ∃ l ∈ f.literals c, Candidate values comp l.var) :
    f.Kept values comp c := by
  obtain ⟨hmem, hall⟩ := h.long c hc hu ht
  refine ⟨hmem, ?_⟩
  split_ifs with h3
  · exact hu
  · intro l hl hn
    by_contra hne
    have hfree := hs.reads.free_of_ne (hs.stores.literals_mem_clauses hc) hu hl hne
    exact hn ⟨hall l hl hfree, hfree⟩

/-- the free variables of an unsatisfied clause with a candidate are connected to it -/
theorem connected_of_unsatisfied (hs : Setting f cls values comp) (h : ValidNode f values comp) {lits : List Lit}
    (hc : lits ∈ f.clauses) (hu : Unsatisfied values lits) {k l : Lit} (hk : k ∈ lits)
    (hcand : Candidate values comp k.var) (hl : l ∈ lits) (hfree : values.Free l.var) :
    f.Connected values comp k.var l.var := by
  rcases hs.clause_cases hc with ⟨a, rfl⟩ | hb | ⟨d, hd, rfl⟩
  · exact absurd hu ((h.propagated _ hc).not_unsatisfied (by simp))
  · have hmem := h.binary lits hb hu ⟨k, hk, hcand⟩ l hl hfree
    exact Relation.ReflTransGen.single ⟨hcand, ⟨hmem, hfree⟩,
      Or.inl ⟨lits, hb, List.mem_map_of_mem hk, List.mem_map_of_mem hl⟩⟩
  · have hmem := (h.long d hd hu ⟨k, hk, hcand⟩).2 l hl hfree
    exact Relation.ReflTransGen.single ⟨hcand, ⟨hmem, hfree⟩,
      Or.inr ⟨d, h.kept_of_unsatisfied hs hd hu ⟨k, hk, hcand⟩, List.mem_map_of_mem hk, List.mem_map_of_mem hl⟩⟩

/-- a walk gives no points to variables that are no candidates -/
theorem candidate_of_pointed (hs : Setting f cls values comp) (h : ValidNode f values comp)
    (hv : f.Pointed values comp v) : Candidate values comp v := by
  obtain ⟨hfree, hmem | ⟨c, hk, hvc, w, hwc, hcand⟩⟩ := hv
  · exact ⟨hmem, hfree⟩
  · obtain ⟨l, hl, rfl⟩ := List.mem_map.1 hvc
    obtain ⟨k, hkc, rfl⟩ := List.mem_map.1 hwc
    exact ⟨(h.long c (hs.clauses c hk.1) (kept_unsatisfied hs hk) ⟨k, hkc, hcand⟩).2 l hl hfree, hfree⟩

theorem noLonely (hs : Setting f cls values comp) (h : ValidNode f values comp) : f.NoLonely values comp := by
  intro c hk v hv hcand
  obtain ⟨k, hkc, rfl⟩ := List.mem_map.1 hv
  have hmem := hs.stores.literals_mem_clauses (hs.clauses c hk.1)
  have hu := kept_unsatisfied hs hk
  obtain ⟨l, hl, hfree, hne⟩ := hs.reads.exists_other hmem (h.propagated _ hmem) hu k.var
  exact ⟨l.var, h.connected_of_unsatisfied hs hmem hu hkc hcand hl hfree, hne⟩

/-- **Classes are closed.** No unsatisfied clause leads out of a class of candidates. -/
theorem closed_class (hs : Setting f cls values comp) (h : ValidNode f values comp) {K : Finset Var}
    (hv : Candidate values comp v) (hK : ∀ w, w ∈ K ↔ f.Connected values comp v w) : Closed values f.clauses K := by
  refine ⟨fun w hw => (((hK w).1 hw).candidate hv).2, ?_⟩
  intro lits hc hu hex l hl hfree
  rcases hex with ⟨k, hk, hkK⟩
  have hconn := (hK _).1 hkK
  exact (hK _).2 (hconn.trans (h.connected_of_unsatisfied hs hc hu hk (hconn.candidate hv) hl hfree))

/-- all candidates together are closed -/
theorem closed_candidates (hs : Setting f cls values comp) (h : ValidNode f values comp) {K : Finset Var}
    (hK : ∀ w, w ∈ K ↔ Candidate values comp w) : Closed values f.clauses K := by
  refine ⟨fun w hw => ((hK w).1 hw).2, ?_⟩
  intro lits hc hu hex l hl hfree
  rcases hex with ⟨k, hk, hkK⟩
  exact (hK _).2 ((h.connected_of_unsatisfied hs hc hu hk ((hK _).1 hkK) hl hfree).candidate ((hK _).1 hkK))

/-! ## What a signature stands for -/

/-- a kept clause that touches a part has all literals active exactly if no literal is false -/
theorem allActive_iff (hs : Setting f cls values comp) (h : ValidNode f values comp) (hk : f.Kept values comp c)
    (ht : ∃ l ∈ f.literals c, Candidate values comp l.var) :
    f.AllActive values comp c ↔ ∀ l ∈ f.literals c, values.val l ≠ .isFalse := by
  have hcw := hs.clauses c hk.1
  have hmem := hs.stores.literals_mem_clauses hcw
  have hu := kept_unsatisfied hs hk
  have hall := (h.long c hcw hu ht).2
  unfold AllActive
  split_ifs with h3
  · refine forall₂_congr fun l hl => ?_
    constructor
    · intro e; rw [e]; simp
    · intro hne
      exact (hs.reads.free_iff hmem hl).1 (hs.reads.free_of_ne hmem hu hl hne)
  · refine forall₂_congr fun l hl => ?_
    constructor
    · intro hcand; rw [hs.val_eq_unassigned hcand]; simp
    · intro hne
      have hfree := hs.reads.free_of_ne hmem hu hl hne
      exact ⟨hall l hl hfree, hfree⟩

variable {K : Finset Var} {listed : List ClauseId}

/-- a clause with one or two literals is left on a class exactly if it lies within -/
theorem left_iff_of_short (hs : Setting f cls values comp) (h : ValidNode f values comp)
    (hK : Closed values f.clauses K) {lits : List Lit} (hc : lits ∈ f.clauses) (hlen : lits.length ≤ 2) :
    Unsatisfied values lits ∧ Touches K lits ↔ ∀ l ∈ lits, l.var ∈ K := by
  constructor
  · intro hboth l hl
    rcases hboth with ⟨hu, ht⟩
    apply hK.closed lits hc hu ht l hl
    -- two literals without a value are all there are
    have htwo := (h.propagated _ hc).resolve_left (not_not_intro hu)
    have hall : lits.filter (fun l => decide (values.val l = .unassigned)) = lits :=
      List.filter_sublist.eq_of_length_le (by omega)
    rw [← hall] at hl
    obtain ⟨hl, hval⟩ := List.mem_filter.1 hl
    exact (hs.reads.free_iff hc hl).2 (by simpa using hval)
  · intro hall
    refine ⟨fun l hl => ?_, ?_⟩
    · rw [(hs.reads.free_iff hc hl).1 (hK.free _ (hall l hl))]; simp
    · obtain ⟨l, hl⟩ := List.exists_mem_of_ne_nil lits (hs.reads.proper _ hc).nonempty
      exact ⟨l, hl, hall l hl⟩

/-- a long clause is left on a part exactly if it is listed in the signature or lies within -/
theorem left_iff_of_long (hs : Setting f cls values comp) (h : ValidNode f values comp)
    (hpart : IsPart f values comp v part (.ofParts part.vars listed)) (hlisted : ∀ c, c ∈ listed ↔
      c ∈ part.clauses ∧ ¬ f.AllActive values comp c) (hc : c.Within f.numLong) :
    Unsatisfied values (f.literals c) ∧ Touches part.vars.toFinset (f.literals c) ↔
      c ∈ listed ∨ ∀ l ∈ f.literals c, l.var ∈ part.vars.toFinset := by
  have hmem := hs.stores.literals_mem_clauses hc
  have hK : Closed values f.clauses part.vars.toFinset :=
    h.closed_class hs hpart.candidate fun w => by rw [List.mem_toFinset]; exact hpart.mem_vars w
  have hcandidate : ∀ w ∈ part.vars, Candidate values comp w :=
    fun w hw => ((hpart.mem_vars w).1 hw).candidate hpart.candidate
  constructor
  · intro hboth
    rcases hboth with ⟨hu, l, hl, hlK⟩
    rw [List.mem_toFinset] at hlK
    have ht : ∃ l ∈ f.literals c, Candidate values comp l.var := ⟨l, hl, hcandidate _ hlK⟩
    have hk := h.kept_of_unsatisfied hs hc hu ht
    by_cases ha : f.AllActive values comp c
    · refine Or.inr fun k hkc => hK.closed _ hmem hu ⟨l, hl, List.mem_toFinset.2 hlK⟩ k hkc ?_
      exact hs.reads.free_of_ne hmem hu hkc ((h.allActive_iff hs hk ht).1 ha k hkc)
    · exact Or.inl ((hlisted c).2 ⟨hpart.mem_clauses c hk ⟨l.var, List.mem_map_of_mem hl, hlK⟩, ha⟩)
  · intro hor
    rcases hor with hl | hall
    · have hcp := ((hlisted c).1 hl).1
      refine ⟨kept_unsatisfied hs (hpart.kept c hcp), ?_⟩
      obtain ⟨w, hw, hwp⟩ := hpart.touches (h.noLonely hs) c hcp
      obtain ⟨l, hl, rfl⟩ := List.mem_map.1 hw
      exact ⟨l, hl, List.mem_toFinset.2 hwp⟩
    · refine ⟨fun l hl => ?_, ?_⟩
      · rw [(hs.reads.free_iff hmem hl).1 (hK.free _ (hall l hl))]; simp
      · obtain ⟨l, hl⟩ := List.exists_mem_of_ne_nil _ (hs.reads.proper _ hmem).nonempty
        exact ⟨l, hl, hall l hl⟩

/-- **Meaning of a signature.** What is left of the formula on a part is what its signature stands for. -/
theorem residual_eq_standing (hs : Setting f cls values comp) (h : ValidNode f values comp)
    (hpart : IsPart f values comp v part (.ofParts part.vars listed)) (hlisted : ∀ c, c ∈ listed ↔
      c ∈ part.clauses ∧ ¬ f.AllActive values comp c) :
    residual values f.clauses part.vars.toFinset = f.standing part.vars.toFinset listed := by
  have hK : Closed values f.clauses part.vars.toFinset :=
    h.closed_class hs hpart.candidate fun w => by rw [List.mem_toFinset]; exact hpart.mem_vars w
  unfold residual standing Formula.clauses
  rw [List.filter_append, List.map_append]
  congr 1
  · have hshort : ∀ c ∈ f.units.map (fun a => [a]) ++ f.binaryClauses, c ∈ f.clauses ∧ c.length ≤ 2 := by
      intro c hc
      refine ⟨List.mem_append_left _ hc, ?_⟩
      rcases List.mem_append.1 hc with hc | hc
      · obtain ⟨a, -, rfl⟩ := List.mem_map.1 hc
        simp
      · obtain ⟨a, b, rfl, -⟩ := hs.stores.mem_binaryClauses.1 hc
        simp
    rw [List.filter_congr fun c hc => decide_eq_decide.2
      (h.left_iff_of_short hs hK (hshort c hc).1 (hshort c hc).2)]
    refine List.map_congr_left fun c hc => ?_
    obtain ⟨hc, hall⟩ := List.mem_filter.1 hc
    obtain ⟨hu, ht⟩ := (h.left_iff_of_short hs hK (hshort c hc).1 (hshort c hc).2).2 (by simpa using hall)
    exact hs.reads.reduced_eq hK (hshort c hc).1 hu ht
  · have hlong : ∀ p ∈ f.longClauses, p.1.Within f.numLong ∧ f.literals p.1 = p.2 :=
      fun p hp => hs.stores.mem_longClauses_iff.1 hp
    rw [List.filter_map, List.map_map]
    have hleft : ∀ p ∈ f.longClauses, (Unsatisfied values p.2 ∧ Touches part.vars.toFinset p.2 ↔
        p.1 ∈ listed ∨ ∀ l ∈ p.2, l.var ∈ part.vars.toFinset) := by
      intro p hp
      obtain ⟨hw, hlits⟩ := hlong p hp
      rw [← hlits]
      exact h.left_iff_of_long hs hpart hlisted hw
    have hfilter : f.longClauses.filter
          ((fun c => decide (Unsatisfied values c ∧ Touches part.vars.toFinset c)) ∘ Prod.snd) =
        f.longClauses.filter fun p => decide (p.1 ∈ listed ∨ ∀ l ∈ p.2, l.var ∈ part.vars.toFinset) :=
      List.filter_congr fun p hp => decide_eq_decide.2 (hleft p hp)
    rw [hfilter]
    refine List.map_congr_left fun p hp => ?_
    obtain ⟨hp, hmeant⟩ := List.mem_filter.1 hp
    obtain ⟨hu, ht⟩ := (hleft p hp).2 (by simpa using hmeant)
    obtain ⟨hw, hlits⟩ := hlong p hp
    exact hs.reads.reduced_eq hK (hlits ▸ hs.stores.literals_mem_clauses hw) hu ht

end ValidNode

end ModelCount
