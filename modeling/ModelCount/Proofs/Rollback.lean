/-
The visit of a longer clause is all or nothing.

Whether the clause is kept shows only at its last literal, and by then variables may have been reached and scores
raised. If an open literal turns up, the reached variables are released from the end of the list, while the points are
given back literal by literal. The two together leave no trace: the explorer is equal to the one before, the mark of
the clause apart (`Undone.eq`, `visitLong_all_or_nothing`). Nothing is asked of the state, so that the literals before
the open one may be outside and false, reached in this visit or before, claimed or satisfied, in any order.
-/
import Mathlib.Tactic
import ModelCount.Proofs.Visit

namespace ModelCount.Explorer

variable {n k : ℕ} {values : Assignment} {e₀ e : Explorer} {v : Var} {c : ClauseId} {lits : List Lit}

/-- a visit that was undone has changed the mark of the clause and nothing else -/
theorem Undone.eq (h : Undone e₀ c e) (hc : c.index < e₀.marks.numSlots) :
    e = { e₀ with marks := e₀.marks.putClause c .outside } := by
  have hmarks : e.marks = e₀.marks.putClause c .outside := by
    refine Marks.ext_mark (h.alike.slots.trans Marks.numSlots_putClause.symm) h.alike.binding (fun w => ?_) fun d => ?_
    · rw [h.varMark, Marks.varMark_putClause]
    · rw [h.clauseMark, Marks.clauseMark_putClause hc]
  have hscores : e.scores = e₀.scores := by
    refine Array.ext h.alike.scores fun i h1 h2 => ?_
    have hi := h.score ⟨i⟩
    unfold scoreOf Var.index at hi
    rwa [Array.getElem?_eq_getElem h1, Array.getElem?_eq_getElem h2] at hi
  have hreached : e.reached = e₀.reached := Array.toList_inj.1 h.reached
  have hmaxVar := h.alike.maxVar
  have hmaxClause := h.alike.maxClause
  have hadjacency := h.alike.adjacency
  cases e
  simp_all

/-- `e` comes from `e₀` by a visit from `v` that kept the clause `c`, whose other literals are `lits` -/
structure Visited (values : Assignment) (e₀ : Explorer) (v : Var) (c : ClauseId) (lits : List Lit) (e : Explorer) :
    Prop where
  alike : Alike e₀ e
  clauseMark : ∃ b, (b = true ↔ ∀ l ∈ lits, e₀.marks.varMark l.var ≠ .outside) ∧
    ∀ d, e.marks.clauseMark d = if d = c then .seen b else e₀.marks.clauseMark d
  varMark : ∀ w, e.marks.varMark w =
    if w ∈ lits.map Lit.var ∧ e₀.marks.varMark w = .unseen then .seen else e₀.marks.varMark w
  reached : e.reached.toList =
    e₀.reached.toList ++ (lits.map Lit.var).filter fun w => e₀.marks.varMark w == .unseen
  score : ∀ w, e.scoreOf w =
    e₀.scoreOf w + if w = v ∨ ∃ l ∈ lits, l.var = w ∧ values.val l = .unassigned then 1 else 0

/-- the clause is marked and the visited variable gets its point after the other literals were met -/
theorem Met.visited (h : Met values e₀ lits e) (hd : (v :: lits.map Lit.var).Nodup) (hv : v.index < e.scores.size)
    (hc : c.index < e.marks.numSlots) {b : Bool} (hb : b = true ↔ ∀ l ∈ lits, e₀.marks.varMark l.var ≠ .outside) :
    Visited values e₀ v c lits
      { e.withScore v (e.scoreOf v + 1) with marks := e.marks.putClause c (.seen b) } := by
  have hj := h.joins hd hv hc b
  exact ⟨hj.alike, ⟨b, hb, hj.clauseMark⟩, hj.varMark, hj.reached, hj.score⟩

/-- the end of a visit from `v`, by what the scan of the other literals found -/
def conclude (v : Var) (c : ClauseId) : Option Bool × Explorer → Except Fault Explorer
  | (some allActive, e) => e.raise v >>= fun e => .ok { e with marks := e.marks.putClause c (.seen allActive) }
  | (none, e) => .ok e

theorem visitLong_eq (hlt : c.index < e.marks.numSlots) (hunseen : e.marks.clauseMark c = .unseen) :
    (e.visitLong values v c lits).result =
      (scan values c e.reached.size [] lits true e).result >>= conclude v c := by
  simp only [visitLong, Traced.result_bind, Traced.result_lift, Marks.clause_eq hlt, hunseen, Except.ok_bind]
  rw [if_neg (by simp), Traced.result_bind]
  congr 1
  funext r
  rcases r with ⟨_ | allActive, e1⟩
  · rfl
  · simp only [Traced.result_bind, Traced.result_lift]
    rfl

/-- **All or nothing.** Visiting an unseen clause from `v`, no score being at its limit, never fails. If an open
literal excludes the clause, the explorer is the one before but for the mark of the clause, whatever the visit did
until then. Otherwise the clause is seen, with all literals active exactly if no other literal is outside; its unseen
variables are reached in clause order; and `v` and every other literal without a value have one point more. -/
theorem visitLong_all_or_nothing (he : e.Roomy n k) (hvalues : values.Fits n) (hc : c.Within k)
    (hw : ∀ w ∈ v :: lits.map Lit.var, w.Within n) (hd : (v :: lits.map Lit.var).Nodup)
    (hunseen : e.marks.clauseMark c = .unseen) (hscores : ∀ w, e.scoreOf w < 4294967295) :
    ((∃ l ∈ lits, Open values e l) →
      (e.visitLong values v c lits).result = .ok { e with marks := e.marks.putClause c .outside }) ∧
    ((∀ l ∈ lits, ¬ Open values e l) →
      ∃ e', (e.visitLong values v c lits).result = .ok e' ∧ Visited values e v c lits e') := by
  obtain ⟨hnot, hd'⟩ := List.nodup_cons.1 hd
  have hlits : ∀ l ∈ lits, l.var.Within n := fun l hl => hw _ (List.mem_cons_of_mem _ (List.mem_map_of_mem hl))
  obtain ⟨⟨answer, e1⟩, hscan, hscanned⟩ := (scan_spec he hvalues hc hlits hd').exists_ok fun fault hfull => by
    obtain ⟨-, w, -, hlimit⟩ := hfull
    have := hscores w
    omega
  have hrun : (e.visitLong values v c lits).result = conclude v c (answer, e1) := by
    rw [visitLong_eq (he.clause_lt_slots hc) hunseen, hscan, Except.ok_bind]
  rcases hscanned with ⟨hopen, hnone, hundone⟩ | ⟨hclosed, hmet, b, hsome, hb⟩
  · simp only at hnone
    subst hnone
    refine ⟨fun _ => ?_, fun hall => ?_⟩
    · rw [hrun, ← hundone.eq (he.clause_lt_slots hc)]
      rfl
    · obtain ⟨l, hl, ho⟩ := hopen
      exact absurd ho (hall l hl)
  · simp only at hsome hmet
    subst hsome
    refine ⟨fun hex => ?_, fun _ => ?_⟩
    · obtain ⟨l, hl, ho⟩ := hex
      exact absurd ho (hclosed l hl)
    · have hroom := hmet.reaches.alike.roomy he
      have hlt := hroom.index_lt_scores (hw v List.mem_cons_self)
      obtain ⟨e2, hraise, rfl⟩ := (raise_spec hlt).exists_ok fun fault hfull => by
        obtain ⟨-, w, rfl, hlimit⟩ := hfull
        have := hscores w
        rw [hmet.scoreOf_eq hnot] at hlimit
        omega
      refine ⟨_, hrun.trans ?_, hmet.visited hd hlt (hroom.clause_lt_slots hc) hb⟩
      rw [conclude, hraise]
      rfl

theorem scoreOf_lt {limit : ℕ} (hpos : 0 < limit) (h : ∀ s ∈ e.scores.toList, s < limit) (w : Var) :
    e.scoreOf w < limit := by
  unfold scoreOf
  cases hs : e.scores[w.index]? with
  | none => exact hpos
  | some s => exact h s (Array.mem_toList_iff.2 (Array.mem_of_getElem? hs))

/-- both outcomes, from a state with points, reached variables and marks of every kind. Literals that are unseen,
false and outside, seen and claimed come before the literal of the variable 6, which is outside: without a value it
excludes the clause, and false it lets the clause be kept. -/
theorem visitLong_open_and_closed :
    let e : Explorer :=
      { blank with
        scores := #[0, 3, 1, 0, 2, 5, 0, 0]
        reached := #[⟨4⟩, ⟨1⟩]
        marks := ⟨#[⟨.outside, .outside⟩, ⟨.seen, .unseen⟩, ⟨.unseen, .seen true⟩, ⟨.outside, .claimed⟩,
          ⟨.seen, .outside⟩, ⟨.claimed, .unseen⟩, ⟨.outside, .outside⟩, ⟨.unseen, .outside⟩], none⟩ }
    let lits := [2, -3, -4, 5, 6, 7].map Lit.ofInt
    let u := Value.unassigned
    let partly : Assignment := ⟨#[u, u, u, u, u, u, .isFalse, .isTrue, u, u, .isFalse, .isTrue, u, u, u, u]⟩
    let fully : Assignment :=
      ⟨#[u, u, u, u, u, u, .isFalse, .isTrue, u, u, .isFalse, .isTrue, .isTrue, .isFalse, u, u]⟩
    (e.visitLong partly ⟨1⟩ ⟨1⟩ lits).result = .ok { e with marks := e.marks.putClause ⟨1⟩ .outside } ∧
      ∃ e', (e.visitLong fully ⟨1⟩ ⟨1⟩ lits).result = .ok e' ∧ e'.reached.toList = [4, 1, 2, 7].map Var.mk ∧
        (List.range 8).map (fun i => e'.scoreOf ⟨i⟩) = [0, 4, 2, 0, 3, 5, 0, 1] ∧
        e'.marks.clauseMark ⟨1⟩ = .seen false := by
  intro e lits u partly fully
  have he : e.Roomy 7 2 := ⟨by decide, by decide, by decide⟩
  have hlits : ∀ w ∈ ⟨1⟩ :: lits.map Lit.var, w.Within 7 := by decide
  have hscores : ∀ w, e.scoreOf w < 4294967295 := scoreOf_lt (by decide) (by decide)
  have hc : (⟨1⟩ : ClauseId).Within 2 := by decide
  have hpartly : partly.Fits 7 := by decide
  have hfully : fully.Fits 7 := by decide
  have hexcluded := (visitLong_all_or_nothing he hpartly hc hlits (by decide) (by decide) hscores).1 (by decide)
  obtain ⟨e', hrun, hkept⟩ :=
    (visitLong_all_or_nothing he hfully hc hlits (by decide) (by decide) hscores).2 (by decide)
  refine ⟨hexcluded, e', hrun, hkept.reached.trans (by decide), ?_, ?_⟩
  · simp only [hkept.score]
    decide
  · obtain ⟨b, hb, hmark⟩ := hkept.clauseMark
    have hfalse : b = false := by
      rw [← Bool.not_eq_true, hb]
      decide
    rw [hmark, if_pos rfl, hfalse]

end ModelCount.Explorer
