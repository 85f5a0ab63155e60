/-
Asking twice whether a node has a component left.

The first question splits the node; the next ones look at the length of the stack to tell whether it was split. If
components stand on the stack from the base of the node on, another question changes nothing. If none was pushed, the
node is split again: the pass meets the same classes, finds each of them worth the same factor (`Share`), and the node
takes all factors once more (`sweep_again`). So the second answer is the first, but the count of the node stays the same
only if all factors are 1, which the factor 2 of a variable that is alone never is. If components were pushed and the
base of the node is above them, they are pushed once more (`split_shares`), and only then the answer is that there is
one left (`findNext_twice`).
-/
import Mathlib.Data.List.Forall2
import Mathlib.Tactic
import ModelCount.Proofs.Nested
import ModelCount.Proofs.Shares

namespace ModelCount

open Formula Explorer

namespace Decomposer

open Store

variable {f : Formula} {cls : List (List Lit)} {values : Assignment} {comp : Component} {index index' : ℕ}
  {caching : Bool} {C : Var → Prop} {e₀ : Explorer} {v : Var} {father : EntryId} {store : Store} {k : ℕ}
  {factors : List ℕ}

/-! ## Pieces that are answered -/

variable {t t' : Tally} {piece : Option Part}

/-- dealing with a piece takes its factor or makes a fresh entry -/
theorem serve_cases (hstore : Recounted store t.store) (hrun : serve caching father t piece = .ok t') :
    (∃ k, worth caching store piece = some k) ∨ t.found.length < t'.found.length := by
  cases piece with
  | none => exact Or.inl ⟨2, rfl⟩
  | some p =>
    obtain ⟨⟨hit, store', node⟩, hconsult, hrun⟩ := exists_of_bind hrun
    obtain ⟨-, ⟨-, k, hworth, -⟩ | ⟨hhit, -⟩⟩ := consult_share (hstore.find_eq p.signature) hconsult
    · exact Or.inl ⟨k, hworth⟩
    · obtain rfl : hit = false := hhit
      obtain ⟨⟨id, store''⟩, -, hrun⟩ := exists_of_bind hrun
      cases hrun
      exact Or.inr (Nat.lt_succ_self _)

/-- a piece that is worth a factor gives it, and nothing is pushed -/
theorem serve_worth (father : EntryId) (hstore : Recounted store t.store)
    (hworth : worth caching store piece = some k) :
    ∃ t', serve caching father t piece = .ok t' ∧ t'.node = t.node.times k ∧ t'.found = t.found ∧
      Recounted store t'.store := by
  cases piece with
  | none =>
    cases hworth
    exact ⟨_, rfl, rfl, rfl, hstore⟩
  | some p =>
    obtain ⟨rfl, hfind⟩ := worth_some_iff.1 hworth
    refine ⟨⟨{ t.store with lookups := t.store.lookups + 1, hits := t.store.hits + 1 }, t.node.times k, t.found,
      t.hits + 1⟩, ?_, rfl, rfl, hstore.counters _ _⟩
    simp only [serve, consult, if_true, lookup]
    rw [hstore.find_eq, hfind]
    rfl

/-- pushing never takes anything back -/
theorem serve_found (hrun : serve caching father t piece = .ok t') : t.found.length ≤ t'.found.length := by
  cases piece with
  | none =>
    cases hrun
    exact le_rfl
  | some p =>
    obtain ⟨⟨hit, store', node⟩, -, hrun⟩ := exists_of_bind hrun
    cases hit with
    | true =>
      cases hrun
      exact le_rfl
    | false =>
      obtain ⟨⟨id, store''⟩, -, hrun⟩ := exists_of_bind hrun
      cases hrun
      exact Nat.le_succ _

/-! ## A pass that pushes nothing -/

variable {s s' s₁ : Sweep}

/-- a pass took some factors and pushed nothing -/
structure Taken (store : Store) (s s' : Sweep) (factors : List ℕ) : Prop where
  node : s'.node = factors.foldl Node.times s.node
  found : s'.found = s.found
  store : Recounted store s'.store

/-- a pass stands where another one stood: the marks are equal, and so is the store but for its counters -/
structure Abreast (f : Formula) (values : Assignment) (comp : Component) (C : Var → Prop) (e₀ : Explorer)
    (store : Store) (s s' : Sweep) : Prop where
  peer : Peer s.explorer s'.explorer
  between : ∃ index, Between f values comp index C s'.explorer
  room : Room f values comp e₀ s'.explorer
  store : Recounted store s'.store

/-- a score is full, as it may be from the scores that a pass begins with -/
def Full (f : Formula) (values : Assignment) (comp : Component) (e₀ : Explorer) (fault : Fault) : Prop :=
  fault = .scoreFull ∧ e₀.Overfull f values comp

/-- what a pass does at one variable, if nothing is pushed there, and what another pass does that stands abreast: the
class of the variable is settled already, or both take its factor -/
def Repeats (f : Formula) (values : Assignment) (comp : Component) (caching : Bool) (store : Store) (C C' : Var → Prop)
    (v : Var) (s s₁ : Sweep) (factors : List ℕ) : Prop :=
  ((¬ (Candidate values comp v ∧ ¬ C v) ∧ C' = C ∧ factors = []) ∨
      ∃ k, Unclaimed f values comp C v ∧ C' = withClass f values comp C v ∧ factors = [k] ∧
        Share f values comp caching store v k) ∧
    Taken store s s₁ factors ∧
    ∀ e₀ s', Abreast f values comp C e₀ store s s' →
      Ends (Full f values comp e₀) (sweepVar caching comp values s' v).result fun s₁' =>
        Taken store s' s₁' factors ∧ Abreast f values comp C' e₀ store s₁ s₁'

/-- a pass that stands abreast finds the same at a variable, and claims the class there if the other one does -/
theorem probe_abreast (hs : Setting f cls values comp) (hv : v ∈ comp.vars)
    (h : Abreast f values comp C e₀ store s s') {r : List (Option Part) × Explorer}
    (hprobe : probe comp values s.explorer v = .ok r) :
    Ends (Full f values comp e₀) (probe comp values s'.explorer v) fun r' => r'.1 = r.1 ∧ Peer r.2 r'.2 ∧
      ((¬ (Candidate values comp v ∧ ¬ C v) ∧ r'.2 = s'.explorer) ∨
        Unclaimed f values comp C v ∧ (∃ index, Between f values comp index (withClass f values comp C v) r'.2) ∧
          Room f values comp e₀ r'.2) := by
  obtain ⟨index', hb'⟩ := h.between
  refine ((probe_ends hs hb' hv).weaken fun fault hfull => h.room.overfull hfull).of_result fun r' hprobe' => ?_
  obtain ⟨hsame, hpeer⟩ := probe_agree h.peer comp v r r' hprobe hprobe'
  refine ⟨hsame, hpeer, ?_⟩
  rcases (probe_ends hs hb' hv).get hprobe' with ⟨hsettled, rfl⟩ | ⟨hun, hclass, hspends, -⟩
  · exact Or.inl ⟨hsettled, rfl⟩
  · exact Or.inr ⟨hun, ⟨index', hclass⟩, h.room.of_spends hspends⟩

/-- **One variable.** -/
theorem sweepVar_again (hs : Setting f cls values comp) (hv : v ∈ comp.vars)
    (hb : Between f values comp index C s.explorer) (hstore : Recounted store s.store)
    (hrun : (sweepVar caching comp values s v).result = .ok s₁) (hfound : s₁.found.length ≤ s.found.length) :
    ∃ C' factors, Between f values comp index C' s₁.explorer ∧
      Repeats f values comp caching store C C' v s s₁ factors := by
  obtain ⟨r, hprobe, t, hserve, rfl⟩ := sweepVar_ok hrun
  have hopen : Unclaimed f values comp C v → Candidate values comp v ∧ ¬ C v := fun hun =>
    ⟨hun.candidate, hun.disjoint v Relation.ReflTransGen.refl⟩
  rcases (probe_ends hs hb hv).get hprobe with ⟨hsettled, rfl⟩ | ⟨hun, hclass, -, hpiece⟩
  · cases hserve
    refine ⟨C, [], hb, Or.inl ⟨hsettled, rfl, rfl⟩, ⟨rfl, rfl, hstore⟩, fun e₀ s' h => ?_⟩
    rw [sweepVar_eq]
    refine (probe_abreast hs hv h hprobe).bind fun r' hr' => ?_
    obtain ⟨pieces, e'⟩ := r'
    obtain ⟨rfl, hpeer, ⟨-, rfl⟩ | ⟨hun, -⟩⟩ := hr'
    · exact ⟨⟨rfl, rfl, h.store⟩, hpeer, h.between, h.room, h.store⟩
    · exact absurd (hopen hun) hsettled
  · obtain ⟨piece, hpieces, hshare⟩ : ∃ piece, r.1 = [piece] ∧
        Portion f values comp caching store v (worth caching store piece) := by
      rcases hpiece with ⟨hnone, halone⟩ | ⟨p, hsome, hpart, -⟩
      · exact ⟨none, hnone, portion_worth halone⟩
      · exact ⟨some p, hsome, portion_worth hpart⟩
    rw [hpieces, List.foldlM_cons] at hserve
    obtain ⟨t₁, hserve, hnil⟩ := exists_of_bind hserve
    cases hnil
    obtain ⟨k, hworth⟩ := (serve_cases (t := s.tally) hstore hserve).resolve_right (Nat.not_lt.2 hfound)
    rw [hworth] at hshare
    obtain ⟨t₂, hserve₂, htaken⟩ := serve_worth (t := s.tally) comp.id hstore hworth
    rw [hserve] at hserve₂
    cases hserve₂
    obtain ⟨hnode, hfound₁, hstore₁⟩ := htaken
    refine ⟨_, [k], hclass, Or.inr ⟨k, hun, rfl, rfl, hshare⟩, ⟨hnode, hfound₁, hstore₁⟩, fun e₀ s' h => ?_⟩
    rw [sweepVar_eq]
    refine (probe_abreast hs hv h hprobe).bind fun r' hr' => ?_
    obtain ⟨pieces, e'⟩ := r'
    obtain ⟨hsame, hpeer, ⟨hsettled, -⟩ | ⟨-, hclass', hroom⟩⟩ := hr'
    · exact absurd (hopen hun) hsettled
    · obtain ⟨t', hserve', hnode', hfound', hstore'⟩ :=
        serve_worth (t := s'.tally) comp.id h.store hworth
      simp only at hsame
      rw [hsame, hpieces, List.foldlM_cons, hserve']
      exact ⟨⟨hnode', hfound', hstore'⟩, hpeer, hclass', hroom, hstore'⟩

theorem sweepVar_found (hrun : (sweepVar caching comp values s v).result = .ok s₁) :
    s.found.length ≤ s₁.found.length := by
  obtain ⟨r, -, t, hserve, rfl⟩ := sweepVar_ok hrun
  exact (Ends.foldlM_state (E := AnyFault) (fun t : Tally => s.found.length ≤ t.found.length) le_rfl
    fun _ _ _ ht => .of_ok fun _ hrun => ht.trans (serve_found hrun)).get hserve

theorem sweep_found {l : List Var} (hrun : l.foldlM (fun s v => (sweepVar caching comp values s v).result) s = .ok s₁) :
    s.found.length ≤ s₁.found.length :=
  (Ends.foldlM_state (E := AnyFault) (fun t : Sweep => s.found.length ≤ t.found.length) le_rfl
    fun _ _ _ ht => .of_ok fun _ hrun => ht.trans (sweepVar_found hrun)).get hrun

theorem Taken.base (h : Taken store s s' factors) : s'.node.base = s.node.base := by
  rw [h.node, Node.foldl_times, Node.base_setActive]

theorem Taken.trans {more : List ℕ} (h : Taken store s s₁ factors) (h' : Taken store s₁ s' more) :
    Taken store s s' (factors ++ more) :=
  ⟨by rw [h'.node, h.node, List.foldl_append], h'.found.trans h.found, h'.store⟩

/-- **A pass that pushes nothing** takes one factor for each class, and so does every other pass that begins
abreast. -/
theorem sweep_again (hs : Setting f cls values comp) {l : List Var} (hl : ∀ v ∈ l, v ∈ comp.vars)
    (hb : Between f values comp index C s.explorer) (hstore : Recounted store s.store)
    (hrun : l.foldlM (fun s v => (sweepVar caching comp values s v).result) s = .ok s₁)
    (hfound : s₁.found.length ≤ s.found.length) :
    ∃ leaders factors, Leads f values comp C l leaders ∧
      List.Forall₂ (Share f values comp caching store) leaders factors ∧ Taken store s s₁ factors ∧
      ∀ e₀ s', Abreast f values comp C e₀ store s s' →
        Ends (Full f values comp e₀) (l.foldlM (fun s v => (sweepVar caching comp values s v).result) s') fun s₁' =>
          Taken store s' s₁' factors := by
  induction l generalizing s C with
  | nil =>
    cases hrun
    exact ⟨[], [], ⟨List.Sublist.refl _, nofun, .nil, nofun⟩, .nil, ⟨rfl, rfl, hstore⟩,
      fun e₀ s' h => ⟨rfl, rfl, h.store⟩⟩
  | cons v l ih =>
    rw [List.foldlM_cons] at hrun
    obtain ⟨t, hstep, hrest⟩ := exists_of_bind hrun
    have hhere : t.found.length ≤ s.found.length := (sweep_found hrest).trans hfound
    obtain ⟨C', here, hb', hleads, htaken, hagain⟩ :=
      sweepVar_again hs (hl v List.mem_cons_self) hb hstore hstep hhere
    obtain ⟨leaders, more, hmore, hshares, htakenMore, hagainMore⟩ :=
      ih (fun w hw => hl w (List.mem_cons_of_mem _ hw)) hb' htaken.store hrest (hfound.trans (sweepVar_found hstep))
    -- the second pass: first the variable, then the rest of the list
    have hsecond : ∀ e₀ s', Abreast f values comp C e₀ store s s' →
        Ends (Full f values comp e₀) ((v :: l).foldlM (fun s v => (sweepVar caching comp values s v).result) s')
          fun s₁' => Taken store s' s₁' (here ++ more) := by
      intro e₀ s' h
      rw [List.foldlM_cons]
      exact (hagain e₀ s' h).bind fun t' ht' => (hagainMore e₀ t' ht'.2).mono fun _ h' => ht'.1.trans h'
    rcases hleads with ⟨hsettled, rfl, rfl⟩ | ⟨k, hun, rfl, rfl, hshare⟩
    · exact ⟨leaders, more, hmore.settled hsettled, hshares, htaken.trans htakenMore, hsecond⟩
    · exact ⟨v :: leaders, k :: more, hmore.cons hun, .cons hshare hshares, htaken.trans htakenMore, hsecond⟩

/-! ## Two splits -/

variable {d d' d₁ : Decomposer} {node node' node₁ : Node} {more : Bool} {top : ℕ}

/-- two passes begin abreast, whatever nodes they are for -/
theorem prepare_abreast (hs : Setting f cls values comp) {e e₁ e₂ : Explorer} {store₁ : Store} {i i₁ : ℕ}
    (hfits : e.Fits f) (hfits₁ : e₁.Fits f) (hstore : Recounted store store₁) (node node' : Node)
    (hprepare : e.prepare i comp values = .ok e₂) :
    Ends (Full f values comp e₁) (e₁.prepare i₁ comp values) fun e' =>
      Abreast f values comp (fun _ => False) e₁ store ⟨e₂, store, node, [], 0⟩ ⟨e', store₁, node', [], 0⟩ := by
  have hspec := prepare_spec (E := Full f values comp e₁) hs hfits₁ i₁
  refine hspec.of_result fun e' hprepare' => ⟨?_, ⟨_, (hspec.get hprepare').1⟩, (hspec.get hprepare').2, hstore⟩
  exact prepare_agree (hfits₁.adjacency.trans hfits.adjacency.symm) (hfits₁.slots.trans hfits.slots.symm) i i₁ comp
    e₂ e' hprepare hprepare'

/-- **A split that pushes nothing** takes one factor for each class, and another split of the super-component takes the
same factors. -/
theorem split_idle (hs : Setting f cls values comp) (hfits : d.explorer.Fits f) (hfits₁ : d₁.explorer.Fits f)
    (hsuper : d.superOf node = .ok comp) (hrun : (d.split node values).result = .ok (d₁, node₁))
    (hstack : d₁.stack = d.stack) :
    node.base ≤ d.stack.length ∧ Recounted d.store d₁.store ∧
      ∃ leaders factors, Leads f values comp (fun _ => False) comp.vars leaders ∧
        List.Forall₂ (Share f values comp d.config.caching d.store) leaders factors ∧
        node₁ = { factors.foldl Node.times node with cursor := d.stack.length } ∧
        ∀ node', node'.superIndex = node.superIndex → node'.base ≤ d.stack.length →
          Ends (Full f values comp d₁.explorer) (d₁.split node' values).result fun r => r.1.stack = d.stack ∧
            Recounted d.store r.1.store ∧ r.2 = { factors.foldl Node.times node' with cursor := d.stack.length } := by
  obtain ⟨e, s, hprepare, hsweep, hend, hd, hnode⟩ := split_steps hsuper hrun
  simp only at hend hd hnode
  have hnone : s.found = [] := by
    have hlen := congrArg List.length ((congrArg stack hd).symm.trans hstack)
    simp only [List.length_append, (sortDescending_perm _).length_eq, List.length_reverse] at hlen
    exact List.length_eq_zero_iff.1 (by omega)
  obtain ⟨hbetween, -⟩ := (prepare_spec (E := AnyFault) hs hfits node.superIndex).get hprepare
  obtain ⟨leaders, factors, hleads, hshares, htaken, hagain⟩ :=
    sweep_again (s := ⟨e, d.store, node, [], 0⟩) hs (fun _ hv => hv) hbetween (.refl d.store) hsweep (by rw [hnone])
  have hbase : s.node.base = node.base := htaken.base
  rw [hbase, hstack] at hend
  rw [htaken.node, hstack] at hnode
  have hstore₁ : Recounted d.store d₁.store := by
    rw [hd]
    exact htaken.store
  refine ⟨hend, hstore₁, leaders, factors, hleads, hshares, hnode, fun node' hindex hbelow => ?_⟩
  have hsuper' : d₁.superOf node' = .ok comp :=
    superOf_append hsuper hindex (hstack.trans (List.append_nil _).symm)
  have hconfig : d₁.config = d.config := by rw [hd]
  simp only [split, Traced.result_bind, Traced.result_lift, Traced.result_emit, Traced.result_foldlM, hconfig]
  refine Ends.bind_of_eq hsuper' ((prepare_abreast hs hfits hfits₁ hstore₁ node node' hprepare).bind
    fun e' habreast => (hagain _ _ habreast).bind fun s' hs' => ?_)
  have hbase' : s'.node.base = node'.base := hs'.base
  have hnone' : s'.found = [] := hs'.found
  rw [Except.ok_bind, hnone', List.reverse_nil, List.append_nil, hstack, Node.setEnd, if_pos (hbase'.le.trans hbelow),
    Except.ok_bind]
  have hsort := sortRange_above ⟨d.config, s'.explorer, s'.store, d.stack⟩ d.stack [] (List.append_nil _).symm
  simp only [List.append_nil, sortDescending] at hsort
  refine Ends.bind_of_eq hsort ⟨rfl, hs'.store, ?_⟩
  rw [← hs'.node]

/-! ## Two questions -/

/-- the factor 1 makes the value of an open branch its count -/
theorem times_one (hopen : node.foundUnsat = false) : node.times 1 = node.setActive ⟨node.active.value, false⟩ :=
  congrArg node.setActive (Branch.times_one hopen)

/-- a question that leaves the branch open finds what there is and then looks at the cursor -/
theorem findNext_steps (hrun : (d.findNext node values).result = .ok (more, d', node'))
    (hopen : node'.foundUnsat = false) : node.foundUnsat = false ∧ ∃ node₁,
      (d.enumerate node values).result = .ok (d', node₁) ∧ node₁.foundUnsat = false ∧ more = node₁.hasUnprocessed ∧
      node' = if node₁.hasUnprocessed then node₁ else node₁.setActive ⟨node₁.active.value, false⟩ := by
  simp only [findNext, Traced.result_bind, Traced.result_lift] at hrun
  obtain ⟨_, hasked, hrun⟩ := exists_of_bind hrun
  obtain ⟨⟨d₁, node₁⟩, henum, hrun⟩ := exists_of_bind hrun
  refine ⟨by_contra fun hasked' => ?_, ?_⟩
  · rw [require, if_neg hasked'] at hasked
    cases hasked
  simp only at hrun
  split_ifs at hrun with hunsat hmore
  · cases hrun
    rw [hunsat] at hopen
    cases hopen
  · cases hrun
    exact ⟨node', henum, hopen, hmore.symm, (if_pos hmore).symm⟩
  · cases hrun
    rw [Bool.not_eq_true] at hunsat hmore
    refine ⟨node₁, henum, hunsat, hmore.symm, ?_⟩
    rw [hmore, times_one hunsat]
    rfl

/-- a question that splits the node, as long as the branch stays open -/
theorem findNext_ends {E : Fault → Prop} {P : Bool × Decomposer × Node → Prop} (hopen : node.foundUnsat = false)
    (hbelow : d.stack.length ≤ node.base)
    (hsplit : Ends E (d.split node values).result fun r => r.2.foundUnsat = false ∧
      P (r.2.hasUnprocessed, r.1, if r.2.hasUnprocessed then r.2 else r.2.times 1)) :
    Ends E (d.findNext node values).result P := by
  simp only [findNext, Traced.result_bind, Traced.result_lift]
  rw [require_pos hopen, Except.ok_bind, enumerate, if_pos hbelow]
  refine hsplit.bind fun r hr => ?_
  obtain ⟨d₁, node₁⟩ := r
  obtain ⟨hopen₁, hP⟩ := hr
  simp only at hopen₁ hP
  simp only [hopen₁, Bool.false_eq_true, if_false]
  split_ifs with hmore
  · simpa [hmore] using hP
  · simpa [hmore] using hP

theorem foldl_times_atCursor (node : Node) (factors : List ℕ) (cursor : ℕ) :
    ({ factors.foldl Node.times node with cursor := cursor } : Node) =
      node.atCursor (factors.foldl Branch.times node.active) cursor := by
  rw [Node.foldl_times]
  rfl

/-- factors none of which is 0 leave the branch open -/
theorem unsat_foldl_times (hpos : 0 < node.active.value * factors.prod) :
    (factors.foldl Branch.times node.active).unsat = false :=
  Branch.value_pos.1 ((Branch.value_foldl_times _ _).symm ▸ hpos)

/-- the answer where a split takes factors none of which is 0 and pushes nothing -/
theorem findNext_idle {E : Fault → Prop} {P : Decomposer → Prop} (hopen : node.foundUnsat = false)
    (hbelow : d.stack.length ≤ node.base) (hpos : 0 < node.active.value * factors.prod)
    (hsplit : Ends E (d.split node values).result fun r =>
      P r.1 ∧ r.2 = { factors.foldl Node.times node with cursor := d.stack.length }) :
    Ends E (d.findNext node values).result fun r =>
      r.1 = false ∧ P r.2.1 ∧ r.2.2 = node.atCursor ⟨node.active.value * factors.prod, false⟩ d.stack.length := by
  refine findNext_ends hopen hbelow (hsplit.mono fun r hr => ?_)
  obtain ⟨hP, hnode⟩ := hr
  have hunsat := unsat_foldl_times hpos
  have hnone : decide (node.base < d.stack.length) = false := decide_eq_false (Nat.not_lt.2 hbelow)
  rw [hnode, foldl_times_atCursor, Node.foundUnsat_atCursor, Node.hasUnprocessed_atCursor, hnone]
  refine ⟨hunsat, rfl, hP, ?_⟩
  rw [if_neg Bool.false_ne_true, Node.times_atCursor, Branch.times_one hunsat, Branch.value_foldl_times]

/-- the answer where a split takes factors none of which is 0 and pushes something above the base -/
theorem findNext_pushes {E : Fault → Prop} {P : Decomposer → Prop} (hopen : node.foundUnsat = false)
    (hbelow : d.stack.length ≤ node.base) (hcount : 0 < node.active.count) (hprod : 0 < factors.prod)
    (hsplit : Ends E (d.split node values).result fun r => P r.1 ∧ node.base < r.1.stack.length ∧
      r.2 = { factors.foldl Node.times node with cursor := r.1.stack.length }) :
    Ends E (d.findNext node values).result fun r => r.1 = true ∧ P r.2.1 ∧
      r.2.2 = node.atCursor ⟨node.active.count * factors.prod, false⟩ r.2.1.stack.length := by
  refine findNext_ends hopen hbelow (hsplit.mono fun r hr => ?_)
  obtain ⟨hP, habove, hnode⟩ := hr
  have hopened : node.active = ⟨node.active.count, false⟩ := by rw [← hopen]; rfl
  rw [foldl_times_atCursor, hopened, Branch.foldl_times_open hcount hprod] at hnode
  have hmore : r.2.hasUnprocessed = true := by
    rw [hnode, Node.hasUnprocessed_atCursor]
    exact decide_eq_true habove
  rw [hmore, if_pos rfl]
  exact ⟨by rw [hnode, Node.foundUnsat_atCursor], rfl, hP, hnode⟩

/-- where components stand on the stack from the base of the node on, a question only looks at the cursor, and the
factor 1 of the first answer is not taken twice -/
theorem findNext_settled (hrun : (d.findNext node values).result = .ok (more, d', node'))
    (hopen : node'.foundUnsat = false) (habove : node.base < d'.stack.length) :
    (d'.findNext node' values).result = .ok (more, d', node') := by
  obtain ⟨-, node₁, -, hopen₁, rfl, hnode'⟩ := findNext_steps hrun hopen
  have hbase : node'.base = node.base := (findNext_above hrun).1
  rw [findNext_again hopen (hbase ▸ habove)]
  cases hmore : node₁.hasUnprocessed with
  | true =>
    obtain rfl : node' = node₁ := by rw [hnode', if_pos hmore]
    rw [hmore]
    rfl
  | false =>
    have hnode : node' = node₁.setActive ⟨node₁.active.value, false⟩ := by rw [hnode', hmore]; rfl
    have hsame : node'.times 1 = node' := by
      rw [times_one hopen, hnode, Node.active_setActive, Node.setActive_setActive,
        Branch.value_open (Branch.value_pos.2 hopen₁)]
    have hmore' : node'.hasUnprocessed = false := by
      rw [← hmore, hnode, Node.hasUnprocessed, Node.base_setActive, Node.cursor_setActive, ← Node.hasUnprocessed]
    rw [hmore', hsame]
    rfl

/-- an open branch with a count other than 0 keeps it only if all further factors are 1 -/
theorem setActive_factors_eq_iff (hactive : node.active = ⟨node.active.count, false⟩) (hcount : 0 < node.active.count) :
    node.setActive ⟨node.active.count * factors.prod, false⟩ = node ↔ ∀ k ∈ factors, k = 1 := by
  constructor
  · intro hsame k hk
    have hone : node.active.count * factors.prod = node.active.count := by
      have := congrArg (fun m : Node => m.active.count) hsame
      simpa using this
    have hprod : factors.prod = 1 := Nat.eq_of_mul_eq_mul_left hcount (hone.trans (Nat.mul_one _).symm)
    exact Nat.dvd_one.1 (hprod ▸ List.dvd_prod hk)
  · intro hones
    rw [List.prod_eq_one hones, Nat.mul_one, ← hactive, Node.setActive_active]

/-- a question split the node, which took some factors, and found that no component is left above its base -/
structure NoneLeft (node node' : Node) (factors : List ℕ) (top : ℕ) : Prop where
  pos : 0 < node.active.value * factors.prod
  node : node' = node.atCursor ⟨node.active.value * factors.prod, false⟩ top

theorem NoneLeft.active (h : NoneLeft node node' factors top) :
    node'.active = ⟨node.active.value * factors.prod, false⟩ := by
  rw [h.node, Node.active_atCursor]

theorem NoneLeft.count_pos (h : NoneLeft node node' factors top) : 0 < node'.active.count := by
  rw [h.active]
  exact h.pos

theorem NoneLeft.prod_pos (h : NoneLeft node node' factors top) : 0 < factors.prod :=
  Nat.pos_of_mul_pos_left h.pos

theorem NoneLeft.superIndex (h : NoneLeft node node' factors top) :
    node'.superIndex = node.superIndex := by
  rw [h.node, Node.superIndex_atCursor]

theorem NoneLeft.base (h : NoneLeft node node' factors top) : node'.base = node.base := by
  rw [h.node, Node.base_atCursor]

theorem NoneLeft.cursor (h : NoneLeft node node' factors top) : node'.cursor = top := by
  rw [h.node, Node.cursor_atCursor]

theorem noneLeft_of_first (hopen₁ : node₁.foundUnsat = false)
    (hnode₁ : node₁ = { factors.foldl Node.times node with cursor := top }) (hbelow : top ≤ node.base)
    (hmore : more = node₁.hasUnprocessed)
    (hnode' : node' = if node₁.hasUnprocessed then node₁ else node₁.setActive ⟨node₁.active.value, false⟩) :
    more = false ∧ NoneLeft node node' factors top := by
  have hvalue := Branch.value_foldl_times node.active factors
  have hnone : decide (node.base < top) = false := decide_eq_false (Nat.not_lt.2 hbelow)
  rw [foldl_times_atCursor] at hnode₁
  subst hnode₁
  rw [Node.foundUnsat_atCursor] at hopen₁
  rw [Node.hasUnprocessed_atCursor, hnone] at hmore hnode'
  refine ⟨hmore, hvalue ▸ Branch.value_pos.2 hopen₁, ?_⟩
  rw [hnode', if_neg Bool.false_ne_true, Node.active_atCursor, hvalue, Node.setActive_atCursor]

/-- the second question, where nothing was pushed: the factors are taken again -/
theorem NoneLeft.idle_again {E : Fault → Prop} (h : NoneLeft node node' factors d'.stack.length)
    (hbelow : d'.stack.length ≤ node.base)
    (hagain : Ends E (d'.split node' values).result fun r => r.1.stack = d'.stack ∧ Recounted store r.1.store ∧
      r.2 = { factors.foldl Node.times node' with cursor := d'.stack.length }) :
    Ends E (d'.findNext node' values).result fun r => r.1 = false ∧ r.2.1.stack = d'.stack ∧
      Recounted store r.2.1.store ∧ r.2.2 = node'.setActive ⟨node'.active.count * factors.prod, false⟩ ∧
      (r.2.2 = node' ↔ ∀ k ∈ factors, k = 1) := by
  have hopen : node'.foundUnsat = false := congrArg Branch.unsat h.active
  have hvalue : node'.active.value = node'.active.count := by rw [h.active, Branch.value_open h.pos]
  have hpos : 0 < node'.active.value * factors.prod := hvalue ▸ Nat.mul_pos h.count_pos h.prod_pos
  have hsecond := findNext_idle (P := fun d₂ => d₂.stack = d'.stack ∧ Recounted store d₂.store) hopen
    (h.base ▸ hbelow) hpos (hagain.mono fun r hr => ⟨⟨hr.1, hr.2.1⟩, hr.2.2⟩)
  refine hsecond.mono fun r hr => ?_
  obtain ⟨hmore, ⟨hstack, hstore⟩, hnode⟩ := hr
  rw [hvalue, ← h.cursor, Node.atCursor_cursor] at hnode
  refine ⟨hmore, hstack, hstore, hnode, ?_⟩
  rw [hnode]
  apply setActive_factors_eq_iff _ h.count_pos
  rw [h.active]

/-- the second question, where components were pushed: they are pushed again, and now above the base -/
theorem NoneLeft.pushed_again {E : Fault → Prop} {pushed : List Component}
    (h : NoneLeft node node' factors d'.stack.length) (hbelow : d'.stack.length ≤ node.base)
    (hnow : node.base < d'.stack.length + pushed.length)
    (hagain : Ends E (d'.split node' values).result fun r => ∃ again,
      r.1.stack = d'.stack ++ again ∧ again.map bare = pushed.map bare ∧
      r.2 = { factors.foldl Node.times node' with cursor := r.1.stack.length }) :
    Ends E (d'.findNext node' values).result fun r => r.1 = true ∧
      (∃ again, r.2.1.stack = d'.stack ++ again ∧ again.map bare = pushed.map bare) ∧
      r.2.2 = node'.atCursor ⟨node'.active.count * factors.prod, false⟩ r.2.1.stack.length := by
  have hopen : node'.foundUnsat = false := congrArg Branch.unsat h.active
  refine findNext_pushes (P := fun d₂ => ∃ again, d₂.stack = d'.stack ++ again ∧ again.map bare = pushed.map bare)
    hopen (h.base ▸ hbelow) h.count_pos h.prod_pos (hagain.mono fun r hr => ?_)
  obtain ⟨again, hstack, hsame, hnode⟩ := hr
  have hlen : again.length = pushed.length := by simpa using congrArg List.length hsame
  refine ⟨⟨again, hstack, hsame⟩, ?_, hnode⟩
  rw [hstack, List.length_append, hlen, h.base]
  exact hnow

/-- **Asking twice.** Ask in a reachable state whether a node has a component left, so that its branch stays open, and
ask again. If components stand on the stack from the base of the node on, the second answer is the first one, and
nothing changes. If nothing was pushed, the answers are that none is left, and the stack and the entries stay as they
are, but the branch takes the factors of all classes a second time: its count is the same only if they are all 1. If
components were pushed and the base of the node is above them, the first answer is that none is left; then the same
components are pushed once more, under other ids, the branch takes the factors of the classes that are answered a
second time, and the answer is that there is one left. -/
theorem findNext_twice {n : ℕ} {clauses : List (List ℤ)} (hn : n < 2147483648)
    (hf : Formula.ofClauses n clauses = .ok f) (hreach : Reachable f d) (hvalues : values.Fits n)
    (hrun : (d.findNext node values).result = .ok (more, d', node')) (hopen : node'.foundUnsat = false) :
    (node.base < d'.stack.length → (d'.findNext node' values).result = .ok (more, d', node')) ∧
    (d'.stack.length ≤ node.base → d'.stack = d.stack → ∃ comp leaders factors, d.superOf node = .ok comp ∧
      Leads f values comp (fun _ => False) comp.vars leaders ∧
      List.Forall₂ (Share f values comp d.config.caching d.store) leaders factors ∧
      more = false ∧ node'.active = ⟨node.active.value * factors.prod, false⟩ ∧
      Ends (Full f values comp d'.explorer) (d'.findNext node' values).result fun r =>
        r.1 = false ∧ r.2.1.stack = d'.stack ∧ Recounted d'.store r.2.1.store ∧
          r.2.2 = node'.setActive ⟨node'.active.count * factors.prod, false⟩ ∧
          (r.2.2 = node' ↔ ∀ k ∈ factors, k = 1)) ∧
    (d'.stack.length ≤ node.base → d'.stack ≠ d.stack → ∃ comp leaders shares pushed, d.superOf node = .ok comp ∧
      Leads f values comp (fun _ => False) comp.vars leaders ∧
      List.Forall₂ (Portion f values comp d.config.caching d.store) leaders shares ∧
      pushed ≠ [] ∧ pushed.length = shares.count none ∧ d'.stack = d.stack ++ pushed ∧
      more = false ∧ node'.active = ⟨node.active.value * shares.reduceOption.prod, false⟩ ∧
      Ends (OutOfWords f values comp d') (d'.findNext node' values).result fun r =>
        r.1 = true ∧ (∃ again, r.2.1.stack = d'.stack ++ again ∧ again.map bare = pushed.map bare) ∧
          r.2.2 = node'.atCursor ⟨node'.active.count * shares.reduceOption.prod, false⟩ r.2.1.stack.length) := by
  obtain ⟨-, node₁, henum, hopen₁, hmore, hnode'⟩ := findNext_steps hrun hopen
  obtain ⟨hnum, hstores⟩ := stores_of_ofClauses hn hf
  have hkempt := hreach.kempt hstores (hnum ▸ hn)
  have hkempt₁ := (hreach.findNext (hnum ▸ hvalues) hrun).kempt hstores (hnum ▸ hn)
  have hsetting : ∀ comp, d.superOf node = .ok comp → Setting f _ values comp := fun comp hsuper =>
    (hkempt.stack comp (List.mem_of_getElem? (held_eq hsuper))).setting hstores (hnum ▸ hn) (hnum ▸ hvalues)
  refine ⟨findNext_settled hrun hopen, fun hnone hstack => ?_, fun hnone hstack => ?_⟩
  · have hsplit : (d.split node values).result = .ok (d', node₁) := by
      rw [enumerate, if_pos (hstack ▸ hnone)] at henum
      exact henum
    obtain ⟨comp, hsuper⟩ := split_super hsplit
    obtain ⟨hbelow, hstore, leaders, factors, hleads, hshares, hnode₁, hagain⟩ :=
      split_idle (hsetting comp hsuper) hkempt.explorer hkempt₁.explorer hsuper hsplit hstack
    obtain ⟨hmore', hfirst⟩ := noneLeft_of_first hopen₁ (hstack ▸ hnode₁) hnone hmore hnode'
    refine ⟨comp, leaders, factors, hsuper, hleads, hshares, hmore', hfirst.active, ?_⟩
    apply hfirst.idle_again hnone
    refine (hagain node' hfirst.superIndex (hfirst.base.le.trans hbelow)).mono fun r hr => ?_
    obtain ⟨hstack₂, hstore₂, hnode₂⟩ := hr
    exact ⟨hstack₂.trans hstack.symm, hstore.between hstore₂, hstack ▸ hnode₂⟩
  · have hsplit : (d.split node values).result = .ok (d', node₁) := by
      rw [enumerate] at henum
      split_ifs at henum
      · exact henum
      · cases henum
        exact absurd rfl hstack
    obtain ⟨comp, hsuper⟩ := split_super hsplit
    obtain ⟨leaders, shares, pushed, hleads, hshares, hne, hlength, happend, hbelow, hnode₁, hagain⟩ :=
      split_shares (hsetting comp hsuper) hkempt.explorer hkempt₁.explorer hkempt.store hsuper hsplit hstack
    obtain ⟨hmore', hfirst⟩ := noneLeft_of_first hopen₁ hnode₁ hnone hmore hnode'
    have hnow : node.base < d'.stack.length + pushed.length :=
      Nat.lt_of_le_of_lt hbelow (Nat.lt_add_of_pos_right (List.length_pos_iff.2 hne))
    refine ⟨comp, leaders, shares, pushed, hsuper, hleads, hshares, hne, hlength, happend, hmore', hfirst.active, ?_⟩
    apply hfirst.pushed_again hnone hnow
    exact hagain node' hfirst.superIndex (hfirst.base.le.trans hbelow)

/-! ## Questions about a new decomposer -/

/-- a node of the whole formula, with its base where it may be, is asked about twice in a row -/
def askTwice (f : Formula) (base : ℕ) (values : Assignment) :
    Except Fault ((Bool × Decomposer × Node) × Bool × Decomposer × Node) := do
  let d ← loaded .standard f
  let first ← (d.findNext (Node.start 1 base) values).result
  let second ← (first.2.1.findNext first.2.2 values).result
  return (first, second)

theorem askTwice_steps {base : ℕ} {α : Type} {view : (Bool × Decomposer × Node) × Bool × Decomposer × Node → α} {a : α}
    (h : (askTwice f base values).toOption.map view = some a) :
    ∃ d first second, loaded .standard f = .ok d ∧ (d.findNext (Node.start 1 base) values).result = .ok first ∧
      (first.2.1.findNext first.2.2 values).result = .ok second ∧ view (first, second) = a := by
  obtain ⟨r, hrun, hview⟩ := Option.map_eq_some_iff.1 h
  obtain ⟨d, hload, hrun⟩ := exists_of_bind (Except.eq_ok_of_toOption hrun)
  obtain ⟨first, hfirst, hrun⟩ := exists_of_bind hrun
  obtain ⟨second, hsecond, hrun⟩ := exists_of_bind hrun
  cases hrun
  exact ⟨d, first, second, hload, hfirst, hsecond, hview⟩

/-- a second question that changes nothing, one that takes the factor of a free variable again, and one that pushes the
component of a clause again beside that -/
theorem findNext_twice_cases :
    (∃ f d first, Formula.ofClauses 3 [[1, 2]] = .ok f ∧ loaded .standard f = .ok d ∧
      (d.findNext (Node.start 1 2) (.empty 3)).result = .ok first ∧ first.1 = true ∧
      (first.2.1.findNext first.2.2 (.empty 3)).result = .ok first) ∧
    (∃ f d first second, Formula.ofClauses 1 [] = .ok f ∧ loaded .standard f = .ok d ∧
      (d.findNext (Node.start 1 2) (.empty 1)).result = .ok first ∧ first.1 = false ∧
      (first.2.1.findNext first.2.2 (.empty 1)).result = .ok second ∧ second.1 = false ∧
      second.2.1.stack = first.2.1.stack ∧ ∃ factors : List ℕ, first.2.2.active = ⟨factors.prod, false⟩ ∧
        second.2.2 = first.2.2.setActive ⟨first.2.2.active.count * factors.prod, false⟩ ∧ ¬ ∀ k ∈ factors, k = 1) ∧
    (∃ f d first second, Formula.ofClauses 3 [[1, 2]] = .ok f ∧ loaded .standard f = .ok d ∧
      (d.findNext (Node.start 1 3) (.empty 3)).result = .ok first ∧ first.1 = false ∧
      (first.2.1.findNext first.2.2 (.empty 3)).result = .ok second ∧ second.1 = true ∧
      ∃ pushed again, pushed ≠ [] ∧ first.2.1.stack = d.stack ++ pushed ∧
        second.2.1.stack = first.2.1.stack ++ again ∧ again.map bare = pushed.map bare ∧
        first.2.2.active = ⟨2, false⟩ ∧ second.2.2.active = ⟨4, false⟩) := by
  have hone : Formula.ofClauses 1 [] = .ok (Formula.empty 1) := rfl
  have hpair : Formula.ofClauses 3 [[1, 2]] = .ok ((Formula.empty 3).addBinary (Lit.ofInt 1) (Lit.ofInt 2)) := rfl
  refine ⟨?_, ?_, ?_⟩
  · have hview : (askTwice ((Formula.empty 3).addBinary (Lit.ofInt 1) (Lit.ofInt 2)) 2 (.empty 3)).toOption.map
        (fun r => (r.1.1, r.1.2.2.foundUnsat, decide (2 < r.1.2.1.stack.length))) = some (true, false, true) := by
      decide +kernel
    obtain ⟨d, ⟨more, d', node'⟩, second, hload, hfirst, -, hview⟩ := askTwice_steps hview
    simp only [Prod.mk.injEq, decide_eq_true_eq] at hview
    obtain ⟨hmore, hopen, habove⟩ := hview
    obtain ⟨hsettled, -⟩ := findNext_twice (by decide) hpair (.of_loaded hload) (Assignment.fits_empty 3) hfirst hopen
    exact ⟨_, d, _, hpair, hload, hfirst, hmore, hsettled habove⟩
  · have hview : (askTwice (Formula.empty 1) 2 (.empty 1)).toOption.map
        (fun r => (r.1.2.2.foundUnsat, r.1.2.1.stack, r.1.2.2.active, r.2.2.2.active)) =
          some (false, [.empty, (Component.whole ⟨1⟩ ⟨0⟩).withId .root], ⟨2, false⟩, ⟨4, false⟩) := by
      decide +kernel
    obtain ⟨d, ⟨more, d', node'⟩, second, hload, hfirst, hsecond, hview⟩ := askTwice_steps hview
    simp only [Prod.mk.injEq] at hview
    obtain ⟨hopen, hroot, hactive, hactive'⟩ := hview
    have hstack : d'.stack = d.stack := by
      cases hload
      exact hroot
    obtain ⟨-, hidle, -⟩ := findNext_twice (by decide) hone (.of_loaded hload) (Assignment.fits_empty 1) hfirst hopen
    obtain ⟨comp, leaders, factors, -, -, -, hmore, hcount, hagain⟩ := hidle (by rw [hroot]; rfl) hstack
    obtain ⟨hmore', hstack', -, hset, hiff⟩ := hagain.get hsecond
    refine ⟨_, d, _, _, hone, hload, hfirst, hmore, hsecond, hmore', hstack', factors, ?_, hset, fun hones => ?_⟩
    · rw [hcount]
      simp [Node.start, Node.active]
    · rw [hiff.2 hones, hactive] at hactive'
      cases hactive'
  · have hview : (askTwice ((Formula.empty 3).addBinary (Lit.ofInt 1) (Lit.ofInt 2)) 3 (.empty 3)).toOption.map
        (fun r => (r.1.2.2.foundUnsat, r.1.2.1.stack.length, r.1.2.2.active, r.2.2.2.active)) =
          some (false, 3, ⟨2, false⟩, ⟨4, false⟩) := by
      decide +kernel
    obtain ⟨d, ⟨more, d', node'⟩, second, hload, hfirst, hsecond, hview⟩ := askTwice_steps hview
    simp only [Prod.mk.injEq] at hview
    obtain ⟨hopen, hlength, hactive, hactive'⟩ := hview
    have hstack : d'.stack ≠ d.stack := by
      cases hload
      intro heq
      rw [heq] at hlength
      cases hlength
    obtain ⟨-, -, hpushed⟩ := findNext_twice (by decide) hpair (.of_loaded hload) (Assignment.fits_empty 3) hfirst hopen
    obtain ⟨comp, leaders, shares, pushed, -, -, -, hne, -, happend, hmore, -, hagain⟩ := hpushed hlength.le hstack
    obtain ⟨hmore', ⟨again, hstack', hsame⟩, -⟩ := hagain.get hsecond
    exact ⟨_, d, _, _, hpair, hload, hfirst, hmore, hsecond, hmore', pushed, again, hne, happend, hstack', hsame,
      hactive, hactive'⟩

/-- the free variable of the root is counted again by the second question -/
theorem findNext_counts_again : ∃ d first second, Formula.ofClauses 1 [] = .ok (Formula.empty 1) ∧
    loaded .standard (Formula.empty 1) = .ok d ∧ Reachable (Formula.empty 1) d ∧
    (d.findNext (Node.start 1 2) (.empty 1)).result = .ok first ∧ first.1 = false ∧
    first.2.2.active = ⟨2, false⟩ ∧
    (first.2.1.findNext first.2.2 (.empty 1)).result = .ok second ∧ second.1 = false ∧
    second.2.2.active = ⟨4, false⟩ := by
  have hview : (askTwice (Formula.empty 1) 2 (.empty 1)).toOption.map
      (fun r => ((r.1.1, r.1.2.2.active), r.2.1, r.2.2.2.active)) = some ((false, ⟨2, false⟩), false, ⟨4, false⟩) := by
    decide +kernel
  obtain ⟨d, first, second, hload, hfirst, hsecond, hview⟩ := askTwice_steps hview
  simp only [Prod.mk.injEq] at hview
  obtain ⟨⟨hmore, hactive⟩, hmore', hactive'⟩ := hview
  exact ⟨d, first, second, rfl, hload, .of_loaded hload, hfirst, hmore, hactive, hsecond, hmore', hactive'⟩

end Decomposer

end ModelCount
