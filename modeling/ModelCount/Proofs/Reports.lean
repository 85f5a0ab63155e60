/-
The splits a count reports.

Every split is reported as an event. The splits that a count reports are those of its calls (`count_reports`): the calls
that are followed by `Call.Next` from the beginning of a count are all that matter for what is split.
-/
import Mathlib.Tactic
import ModelCount.Proofs.Calls

namespace ModelCount

def Event.isSplit : Event → Bool
  | .split .. => true
  | _ => false

/-- every split that is reported has the property -/
def Reports {α : Type} (P : Event → Prop) (t : Traced α) : Prop := ∀ e ∈ t.events, e.isSplit = true → P e

variable {α β : Type} {P Q : Event → Prop}

namespace Reports

theorem pure (a : α) : Reports P (Pure.pure a : Traced α) := fun _ he => absurd he List.not_mem_nil

theorem lift (r : Except Fault α) : Reports P (liftM r : Traced α) := fun _ he => absurd he List.not_mem_nil

theorem quiet (r : Except Fault α) : Reports P (Traced.quiet r) := fun _ he => absurd he List.not_mem_nil

theorem emit {e : Event} (h : e.isSplit = false) : Reports P (Traced.emit e) := by
  intro e' he hs
  rw [List.mem_singleton.1 he, h] at hs
  cases hs

theorem mono {t : Traced α} (h : Reports P t) (hPQ : ∀ e, P e → Q e) : Reports Q t :=
  fun e he hs => hPQ e (h e he hs)

theorem bind {x : Traced α} {f : α → Traced β} (hx : Reports P x) (hf : ∀ a, x.result = .ok a → Reports P (f a)) :
    Reports P (x >>= f) := by
  obtain ⟨events, result⟩ := x
  cases result with
  | error fault => exact hx
  | ok a =>
    intro e he hs
    have he' : e ∈ events ++ (f a).events := he
    rcases List.mem_append.1 he' with he' | he'
    · exact hx e he' hs
    · exact hf a rfl e he' hs

theorem foldlM {f : β → α → Traced β} {l : List α} {b : β} (hf : ∀ b a, Reports P (f b a)) :
    Reports P (l.foldlM f b) := by
  induction l generalizing b with
  | nil => exact pure b
  | cons a l ih => exact (hf b a).bind fun _ _ => ih

end Reports

/-! ## The store reports no splits -/

namespace Store

variable {s : Store}

theorem rebuild_reports (buckets : ℕ) : Reports P (s.rebuild buckets) :=
  (Reports.emit rfl).bind fun _ _ => Reports.pure _

theorem grow_reports : Reports P s.grow := by
  unfold grow
  split_ifs
  · exact rebuild_reports _
  · exact Reports.pure _

theorem attach_reports (id : EntryId) (count : ℕ) : Reports P (s.attach id count) :=
  grow_reports.bind fun _ _ => (Reports.lift _).bind fun _ _ => (Reports.lift _).bind fun _ _ =>
    (Reports.lift _).bind fun _ _ => Reports.pure _

theorem evictRound_reports : Reports P s.evictRound := by
  unfold evictRound
  split_ifs
  · exact Reports.pure _
  · refine (Reports.foldlM fun _ _ => Reports.quiet _).bind fun s' _ => ?_
    have hshrink : Reports P s'.shrink := by
      unfold shrink
      simp only
      split_ifs
      · exact rebuild_reports _
      · exact Reports.pure _
    exact hshrink.bind fun _ _ => (Reports.emit rfl).bind fun _ _ => Reports.pure _

theorem evictRounds_reports (budget rounds erased : ℕ) : Reports P (evictRounds budget rounds erased s) := by
  induction rounds generalizing erased s with
  | zero => exact Reports.quiet _
  | succ rounds ih =>
    unfold evictRounds
    simp only
    split_ifs
    · exact Reports.pure _
    · refine evictRound_reports.bind fun r _ => ?_
      split_ifs
      · exact Reports.pure _
      · exact ih _

theorem evict_reports (budget : ℕ) : Reports P (s.evict budget) := by
  refine (evictRounds_reports _ _ _).bind fun r _ => ?_
  simp only
  split_ifs
  · exact (Reports.emit rfl).bind fun _ _ => Reports.pure _
  · exact (Reports.pure _).bind fun _ _ => Reports.pure _

end Store

namespace Counter

variable {c : Counter} {node : Node} {a b : Call} {depth : ℕ}

theorem evict_reports : Reports P c.evict := by
  unfold evict
  split_ifs
  · exact ((Store.evict_reports _).bind fun _ _ => Reports.pure _).bind fun _ _ => Reports.pure _
  · exact Reports.pure _

theorem record_reports (index count : ℕ) : Reports P (c.record node index count) := by
  have hcache : Reports P (c.decomposer.cacheCount index count) := by
    unfold Decomposer.cacheCount
    split_ifs
    · exact (Reports.lift _).bind fun _ _ => (Store.attach_reports _ _).bind fun _ _ => Reports.pure _
    · exact Reports.pure _
  exact hcache.bind fun _ _ => (Reports.lift _).bind fun _ _ => evict_reports.bind fun _ _ => Reports.pure _

/-! ## The calls report theirs -/

/-- the event is reported by the split of a call that the call leads to -/
def Led (a : Call) (e : Event) : Prop :=
  ∃ b node c, Relation.ReflTransGen Call.Next a b ∧ b.Splits node c ∧ e ∈ (c.decomposer.split node c.values).events

theorem Led.next {e : Event} (hn : a.Next b) (h : Led b e) : Led a e := by
  obtain ⟨b', node, c, h1, h2⟩ := h
  exact ⟨b', node, c, h1.head hn, h2⟩

/-- a question for the next component reports a split only if it makes one -/
theorem findNext_reports (d : Decomposer) (node : Node) (values : Assignment) :
    Reports (fun e => node.foundUnsat = false ∧ d.stack.length ≤ node.base ∧ e ∈ (d.split node values).events)
      (d.findNext node values) := by
  refine (Reports.lift _).bind fun _ hopen => ?_
  have hunsat : node.foundUnsat = false := by
    by_contra hne
    rw [Traced.result_lift, require, if_neg hne] at hopen
    cases hopen
  refine Reports.bind ?_ fun r _ => ?_
  · unfold Decomposer.enumerate
    split_ifs with hbase
    · exact fun e he _ => ⟨hunsat, hbase, he⟩
    · exact Reports.pure _
  · rcases r with ⟨d', node'⟩
    simp only
    split_ifs <;> exact Reports.pure _

theorem solveWith_reports (hcount : ∀ index c, Reports (Led (.count depth index c)) (countWith (solve depth) index c))
    (parts : ℕ) (node : Node) (c : Counter) :
    Reports (Led (.loop depth parts node c)) (solveWith (countWith (solve depth)) parts node c) := by
  induction parts generalizing node c with
  | zero => exact Reports.quiet _
  | succ parts ih =>
    have hfirst := (findNext_reports c.decomposer node c.values).mono (Q := Led (.loop depth (parts + 1) node c))
      fun e he => ⟨_, node, c, .refl, .intro he.1 he.2.1, he.2.2⟩
    refine hfirst.bind fun r hfind => ?_
    rcases r with ⟨found, d, node'⟩
    cases found with
    | false => exact Reports.pure _
    | true =>
      refine (Reports.lift _).bind fun index hindex => ?_
      refine ((hcount index _).mono fun e he => he.next (.part hfind hindex)).bind fun r hresult => ?_
      rcases r with ⟨m, c'⟩
      refine (record_reports index m).bind fun r hrecord => ?_
      rcases r with ⟨node'', c''⟩
      simp only
      split_ifs with hunsat
      · exact (Reports.lift _).bind fun _ _ => Reports.pure _
      · exact (ih node'' c'').mono fun e he =>
          he.next (.again hfind hindex hresult hrecord (by simpa using hunsat))

theorem branchWith_reports (hsolve : ∀ node c, Reports (Led (.solve depth node c)) (solve depth node c)) (l : Lit)
    (node : Node) (c : Counter) : Reports (Led (.branch depth l node c)) (branchWith (solve depth) l node c) := by
  refine (Reports.lift _).bind fun c' hassign => (Reports.quiet _).bind fun r hprop => ?_
  rcases r with ⟨consistent, c''⟩
  refine Reports.bind ?_ fun r _ => (Reports.lift _).bind fun _ _ => (Reports.lift _).bind fun _ _ => Reports.pure _
  cases consistent with
  | false => exact Reports.pure _
  | true => exact (hsolve node c'').mono fun e he => he.next (.consistent hassign hprop)

theorem countWith_reports (hsolve : ∀ node c, Reports (Led (.solve depth node c)) (solve depth node c)) (index : ℕ)
    (c : Counter) : Reports (Led (.count depth index c)) (countWith (solve depth) index c) := by
  refine (Reports.lift _).bind fun comp hcomp => (Reports.lift _).bind fun v hchoose => ?_
  refine ((branchWith_reports hsolve v.pos _ c).mono fun e he => he.next (.first hcomp hchoose)).bind
    fun r hbranch => ?_
  rcases r with ⟨node, c'⟩
  refine (Reports.lift _).bind fun node' hchange => ?_
  exact ((branchWith_reports hsolve v.neg node' c').mono fun e he =>
    he.next (.second hcomp hchoose hbranch hchange)).bind fun _ _ => Reports.pure _

theorem solve_reports (depth : ℕ) (node : Node) (c : Counter) :
    Reports (Led (.solve depth node c)) (solve depth node c) := by
  induction depth generalizing node c with
  | zero => exact Reports.quiet _
  | succ depth ih =>
    exact (solveWith_reports (countWith_reports ih) _ node c).mono fun e he => he.next .loop

theorem Calls.trans {c₀ : Counter} (h : Calls c₀ a) (hn : Relation.ReflTransGen Call.Next a b) : Calls c₀ b := by
  induction hn with
  | refl => exact h
  | tail _ hn ih => exact ih.next hn

/-- **The splits of a count** that are reported are those of its calls. -/
theorem count_reports (c₀ : Counter) : Reports (fun e => ∃ b node c, Calls c₀ b ∧ b.Splits node c ∧
    e ∈ (c.decomposer.split node c.values).events) c₀.count := by
  refine (Reports.quiet _).bind fun r hprop => ?_
  rcases r with ⟨consistent, c⟩
  cases consistent with
  | false => exact Reports.pure _
  | true =>
    refine (Reports.lift _).bind fun node hroot => ?_
    refine ((solve_reports _ node c).mono fun e he => ?_).bind fun _ _ => Reports.pure _
    obtain ⟨b, node', c', hcalls, hsplits⟩ := he
    exact ⟨b, node', c', (Calls.start hprop hroot).trans hcalls, hsplits⟩

end Counter

end ModelCount
