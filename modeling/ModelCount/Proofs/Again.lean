/-
Splitting again.

A split answers a part whose signature has a count in the store and pushes the others. So when the super-component is
split again under the same assignment, the same parts are found, and those whose counts were attached in between are
answered, each once, whatever else went on, as long as their entries were not erased and no other count is on record for
their signatures (`split_again`).
-/
import Mathlib.Data.List.Forall2
import Mathlib.Tactic
import ModelCount.Proofs.Answers
import ModelCount.Proofs.Onward

namespace ModelCount

/-! ## Counts on record -/

/-- the component has its entry, and no live entry with the same signature has another count than the given one -/
def Store.OnRecord (s : Store) (count : ℕ) (comp : Component) : Prop :=
  ∃ e ∈ s.get? comp.id, ∀ p ∈ s.live, p.2.signature = e.signature → p.2.count = none ∨ p.2.count = some count

instance (s : Store) (count : ℕ) (comp : Component) : Decidable (s.OnRecord count comp) :=
  inferInstanceAs (Decidable (∃ e ∈ s.get? comp.id, _))

/-- what is on record is the only count -/
theorem Store.OnRecord.counts {s : Store} {count : ℕ} {comp : Component} (h : s.OnRecord count comp) :
    ∃ e, s.get? comp.id = some e ∧ ∀ c, s.Counts e.signature c → c = count := by
  obtain ⟨e, he, hlive⟩ := h
  refine ⟨e, he, fun c hex => ?_⟩
  obtain ⟨i, x, hx, hsig, hcount⟩ := hex
  rcases hlive (i, x) (mem_live.2 hx) hsig with hnone | hsome
  · rw [hnone] at hcount
    cases hcount
  · exact Option.some.inj (hcount.symm.trans hsome)

namespace Decomposer

open Store

variable {f : Formula} {d d' : Decomposer} {node : Node} {r r' : Decomposer × Node} {pushed again : List Part}
  {answered answers : List (Part × ℕ)} {p : Part} {counts : List (ℕ × ℕ)} {base count : ℕ}

/-! ## Counts that are attached -/

/-- counts are attached to components, whose places are counted from a base -/
def cacheCounts (d : Decomposer) (base : ℕ) (counts : List (ℕ × ℕ)) : Except Fault Decomposer :=
  counts.foldlM (fun d c => (d.cacheCount (base + c.1) c.2).result) d

theorem cacheCount_steps {index : ℕ} (hcaching : d.config.caching = true)
    (h : (d.cacheCount index count).result = .ok d') : ∃ q store, d.stack[index]? = some q ∧
      (d.store.attach q.id count).result = .ok store ∧ d' = { d with store := store } := by
  rw [cacheCount, if_pos hcaching] at h
  simp only [Traced.result_bind, Traced.result_lift] at h
  cases hq : d.stack[index]? with
  | none =>
    rw [component, hq] at h
    cases h
  | some q =>
    rw [component_eq hq, Except.ok_bind] at h
    obtain ⟨store, hstore, h⟩ := exists_of_bind h
    cases h
    exact ⟨q, store, rfl, hstore, rfl⟩

theorem cacheCounts_follows (hcaching : d.config.caching = true) (h : d.cacheCounts base counts = .ok d') :
    d.Follows d' ∧ d'.stack = d.stack := by
  refine (Ends.foldlM_state (E := AnyFault) (fun d' => d.Follows d' ∧ d'.stack = d.stack) ⟨.refl d, rfl⟩ ?_).get h
  intro c _ d₁ h₁
  refine Ends.of_ok fun d₂ h₂ => ⟨h₁.1.trans ((cacheCount_follows _ _ _).get h₂), ?_⟩
  obtain ⟨q, store, -, -, rfl⟩ := cacheCount_steps (h₁.1.config ▸ hcaching) h₂
  exact h₁.2

/-- a component that was given a count has it as long as its entry is live -/
theorem counted_of_cacheCounts (hs : d.store.Sound) (hcaching : d.config.caching = true)
    (h : d.cacheCounts base counts = .ok d') {c : ℕ × ℕ} (hc : c ∈ counts) :
    ∃ q, d.stack[base + c.1]? = some q ∧
      ∀ e', d'.store.get? q.id = some e' → e'.hasCount = true := by
  obtain ⟨before, after, rfl⟩ := List.append_of_mem hc
  rw [cacheCounts, List.foldlM_append] at h
  obtain ⟨d₁, hbefore, h⟩ := exists_of_bind h
  rw [List.foldlM_cons] at h
  obtain ⟨d₂, hrun, hafter⟩ := exists_of_bind h
  obtain ⟨hfollows, hstack⟩ := cacheCounts_follows hcaching hbefore
  have hcaching₁ : d₁.config.caching = true := hfollows.config ▸ hcaching
  have hs₁ := (hfollows.serves.carried hs).1
  obtain ⟨q, store, hq, hattach, rfl⟩ := cacheCount_steps hcaching₁ hrun
  refine ⟨q, hstack ▸ hq, fun e' he' => ?_⟩
  cases he : d₁.store.get? q.id with
  | none =>
    rw [attach_gone hs₁.chained (fun _ _ hx => hs₁.ne_none hx) he] at hattach
    cases hattach
  | some e =>
    obtain ⟨-, e₂, he₂, hcounted⟩ := carried_attach hs₁ he hattach
    have hs₂ := (((cacheCount_follows _ _ _).get hrun).serves.carried hs₁).1
    have hlater := ((cacheCounts_follows (by exact hcaching₁) hafter).1.serves.carried hs₂).2
    obtain ⟨x, hx, -, hkeep⟩ := hlater.entry q.id e' (hs₂.range _ e₂ he₂).2 he'
    have hsame : x = e₂ := Option.some.inj (hx.symm.trans he₂)
    exact hkeep (hsame ▸ hcounted)

/-! ## Parts that are found again -/

namespace Enumerated

/-- the parts that are pushed are those whose signature has no count -/
theorem mem_pushed_iff (h : Enumerated d node r pushed answered) :
    p ∈ pushed ↔ p ∈ pushed ++ answered.map Prod.fst ∧ ¬ ∃ count, d.store.Counts p.signature count := by
  refine ⟨fun hp => ⟨List.mem_append_left _ hp, h.missed p hp⟩, fun hboth => ?_⟩
  obtain ⟨hp, hmiss⟩ := hboth
  rcases List.mem_append.1 hp with hp | hp
  · exact hp
  · obtain ⟨a, ha, rfl⟩ := List.mem_map.1 hp
    exact absurd ⟨a.2, h.counted a ha⟩ hmiss

/-- the place of a part among those pushed is that of its component above the stack -/
theorem pushed_of_stack (h : Enumerated d node r pushed answered) {k : ℕ} {q : Component}
    (hq : r.1.stack[d.stack.length + k]? = some q) :
    ∃ p, pushed[k]? = some p ∧ ∃ e, r.1.store.get? q.id = some e ∧ e.signature = p.signature := by
  obtain ⟨K, hstack, hfiled, -⟩ := h.stack
  rw [hstack, List.getElem?_append_right (Nat.le_add_right _ _), Nat.add_sub_cancel_left] at hq
  obtain ⟨hk, hqk⟩ := List.getElem?_eq_some_iff.1 hq
  have hk' : k < pushed.length := hfiled.length_eq ▸ hk
  have hpart := (List.forall₂_iff_get.1 hfiled).2 k hk hk'
  refine ⟨pushed[k], List.getElem?_eq_getElem hk', ?_⟩
  rw [← hqk]
  exact hpart.entry

/-- a part whose signature has one count is answered with it, once -/
theorem answer_once (h : Enumerated d node r pushed answered) (hp : p ∈ pushed ++ answered.map Prod.fst)
    (hcount : d.store.Counts p.signature count) (hone : ∀ c, d.store.Counts p.signature c → c = count) :
    p ∉ pushed ∧ answered.filter (fun a => a.1 = p) = [(p, count)] := by
  have hnot : p ∉ pushed := fun hm => h.missed p hm ⟨count, hcount⟩
  refine ⟨hnot, ?_⟩
  have hnodup : (answered.map Prod.fst).Nodup :=
    (List.nodup_append.1 (List.Nodup.of_map _ h.apart)).2.1
  have hmem : p ∈ answered.map Prod.fst := (List.mem_append.1 hp).resolve_left hnot
  have hlength : (answered.filter fun a => a.1 = p).length = 1 := by
    rw [← List.countP_eq_length_filter, ← List.count_eq_one_of_mem hnodup hmem, List.count, List.countP_map]
    exact List.countP_congr fun a _ => by simp
  obtain ⟨a, ha⟩ := List.length_eq_one_iff.1 hlength
  obtain ⟨hmema, hap⟩ := List.mem_filter.1 (ha ▸ List.mem_singleton_self a)
  have hap' : a.1 = p := of_decide_eq_true hap
  have hcounta := h.counted a hmema
  rw [hap'] at hcounta
  rw [ha, ← hap', ← hone _ hcounta]

end Enumerated

/-- the parts whose components were given counts have those counts later on, and no others -/
theorem Enumerated.recorded {later : Decomposer} (h : Enumerated d node r pushed answered) (hs : r.1.store.Sound)
    (hcaching : r.1.config.caching = true) (hattach : r.1.cacheCounts d.stack.length counts = .ok d')
    (hlater : d'.Follows later)
    (hkept : ∀ c ∈ counts, ∀ q ∈ r.1.stack[d.stack.length + c.1]?, later.store.OnRecord c.2 q) :
    ∀ c ∈ counts, ∃ p, pushed[c.1]? = some p ∧ later.store.Counts p.signature c.2 ∧
      ∀ count, later.store.Counts p.signature count → count = c.2 := by
  obtain ⟨hs', hcarried⟩ := (cacheCounts_follows hcaching hattach).1.serves.carried hs
  have hcarried' := (hlater.serves.carried hs').2
  intro c hc
  obtain ⟨q, hq, hcounted⟩ := counted_of_cacheCounts hs hcaching hattach hc
  obtain ⟨p, hp, e₀, he₀, hsig₀⟩ := h.pushed_of_stack hq
  obtain ⟨e, he, hone⟩ := (hkept c hc q hq).counts
  -- the entry that is live in the end was live all the time
  have hid : q.id.id < r.1.store.nextId := (hs.range q.id e₀ he₀).2
  obtain ⟨e₁, he₁, hsig₁, hkeep⟩ := hcarried'.entry q.id e (Nat.lt_of_lt_of_le hid hcarried.nextId) he
  obtain ⟨e₂, he₂, hsig₂, -⟩ := hcarried.entry q.id e₁ hid he₁
  rw [he₀] at he₂
  cases he₂
  have hsig : e.signature = p.signature := hsig₁.trans (hsig₂.trans hsig₀)
  rw [hsig] at hone
  obtain ⟨count, hcount⟩ := Option.isSome_iff_exists.1 (hkeep (hcounted e₁ he₁))
  have hon : later.store.Counts p.signature count := ⟨q.id, e, he, hsig, hcount⟩
  exact ⟨p, hp, hone count hon ▸ hon, hone⟩

/-- a split of a super-component that is done again, in a state in which parts that were pushed at first have counts; a
part is named by its place among those pushed -/
structure Recalls (counts : List (ℕ × ℕ)) (pushed : List Part) (answered : List (Part × ℕ)) (store : Store)
    (again : List Part) (answers : List (Part × ℕ)) : Prop where
  /-- the same parts are found -/
  same : (again ++ answers.map Prod.fst).Perm (pushed ++ answered.map Prod.fst)
  /-- a part that was given a count is not pushed, and is answered with it once -/
  given : ∀ c ∈ counts, ∃ p, pushed[c.1]? = some p ∧ p ∉ again ∧ answers.filter (fun a => a.1 = p) = [(p, c.2)]
  /-- the parts that are pushed are those whose signature has no count -/
  missed : ∀ p, p ∈ again ↔ p ∈ pushed ++ answered.map Prod.fst ∧ ¬ ∃ count, store.Counts p.signature count
  /-- where every part was given a count, all are answered, and of those answered at first the ones that are not
  pushed -/
  all : (∀ k < pushed.length, ∃ c ∈ counts, c.1 = k) →
    ∃ kept, (answers.map Prod.fst).Perm (pushed ++ kept) ∧ (again ++ kept).Perm (answered.map Prod.fst)

/-- **Splitting again** in a state in which the parts given counts have those counts and no others. -/
theorem Enumerated.recalls (h : Enumerated d node r again answers)
    (hsame : (again ++ answers.map Prod.fst).Perm (pushed ++ answered.map Prod.fst))
    (hgiven : ∀ c ∈ counts, ∃ p, pushed[c.1]? = some p ∧ d.store.Counts p.signature c.2 ∧
      ∀ count, d.store.Counts p.signature count → count = c.2) :
    Recalls counts pushed answered d.store again answers := by
  have hgiven' : ∀ c ∈ counts, ∃ p, pushed[c.1]? = some p ∧ p ∉ again ∧
      answers.filter (fun a => a.1 = p) = [(p, c.2)] := by
    intro c hc
    obtain ⟨p, hp, hcount, hone⟩ := hgiven c hc
    have hm : p ∈ again ++ answers.map Prod.fst :=
      hsame.mem_iff.2 (List.mem_append_left _ (List.mem_of_getElem? hp))
    exact ⟨p, hp, h.answer_once hm hcount hone⟩
  refine ⟨hsame, hgiven', fun p => ?_, fun hall => ?_⟩
  · rw [h.mem_pushed_iff, hsame.mem_iff]
  · have hdisjoint : ∀ p ∈ again, p ∉ pushed := by
      intro p hp hm
      obtain ⟨k, hk⟩ := List.mem_iff_getElem?.1 hm
      obtain ⟨c, hc, rfl⟩ := hall k (List.getElem?_eq_some_iff.1 hk).1
      obtain ⟨q, hq, hnot, -⟩ := hgiven' c hc
      rw [hk] at hq
      cases hq
      exact hnot hp
    have hnodup : again.Nodup := (List.nodup_append.1 (List.Nodup.of_map _ h.apart)).1
    have hsub : again ⊆ answered.map Prod.fst := fun p hp =>
      (List.mem_append.1 (hsame.mem_iff.1 (List.mem_append_left _ hp))).resolve_left (hdisjoint p hp)
    have hkept : (again ++ (answered.map Prod.fst).diff again).Perm (answered.map Prod.fst) :=
      List.subperm_append_diff_self_of_count_le fun p hp => (hnodup.subperm hsub).count_le p
    refine ⟨(answered.map Prod.fst).diff again, ?_, hkept⟩
    refine (List.perm_append_left_iff again).1 (hsame.trans ((hkept.symm.append_left pushed).trans ?_))
    rw [← List.append_assoc, ← List.append_assoc]
    exact List.perm_append_comm.append_right _

/-- where every part was given a count and none was answered at first, nothing is pushed -/
theorem Enumerated.all_answered (h : Enumerated d node r again answers)
    (hrecalls : Recalls counts pushed [] d.store again answers) (hall : ∀ k < pushed.length, ∃ c ∈ counts, c.1 = k) :
    r.1.stack = d.stack ∧ r.1.store.nextId = d.store.nextId ∧ r.1.store.hits = d.store.hits + pushed.length := by
  obtain ⟨kept, hperm, hnil⟩ := hrecalls.all hall
  obtain ⟨rfl, rfl⟩ := List.append_eq_nil_iff.1 hnil.eq_nil
  obtain ⟨K, hstack, hfiled, -⟩ := h.stack
  refine ⟨?_, h.nextId, ?_⟩
  · rw [hstack, List.forall₂_nil_right_iff.1 hfiled, List.append_nil]
  · rw [h.hits, ← List.length_map Prod.fst, hperm.length_eq, List.append_nil]

end Decomposer

/-! ## Sessions -/

namespace Session

open Formula Decomposer Store

variable {f : Formula} {cls : List (List Lit)} {n index index' : ℕ} {clauses : List (List ℤ)}
  {d₀ loaded d attached cleaned later : Decomposer} {levels levels' : List Node} {super : Component}
  {values : Assignment} {r : Decomposer × Node} {counts : List (ℕ × ℕ)}

/-- attaching counts, in a session -/
theorem Onward.cacheCounts {d' : Decomposer} {base : ℕ} (h : Onward n loaded levels' d levels) (hbase : 1 ≤ base)
    (hrun : d.cacheCounts base counts = .ok d') : Onward n loaded levels' d' levels :=
  (Ends.foldlM_state (E := AnyFault) (fun d' => Onward n loaded levels' d' levels) h fun _ _ _ h₁ =>
    Ends.of_ok fun _ h₂ => h₁.cacheCount (hbase.trans (Nat.le_add_right _ _)) h₂).get hrun

/-- in a session any component on the stack can be split -/
theorem Onward.primed (hf : f.Stores cls) (hn : f.numVars < 2147483648) (hused : Used d₀)
    (hload : (d₀.load f).result = .ok loaded) (hcaching : d₀.config.caching = true)
    (h : Onward f.numVars loaded [] d levels) (hindex : 1 ≤ index) (hsuper : d.stack[index]? = some super) :
    Primed f super d (Node.start index d.stack.length) ∧ Listed f super := by
  have hlodged := h.lodged (sheltered_start hload).lodged
  have hkempt := (h.works.reachable (.load hload)).kempt hf hn
  have hconfig : loaded.config = d₀.config := by
    cases hload
    rfl
  obtain ⟨bits, ops, l, hops, hstore⟩ := (h.works.used (hused.load hload)).ofOps
  refine ⟨⟨hkempt.explorer, held_of_getElem? hsuper, le_rfl, by rw [h.works.config, hconfig, hcaching], hlodged.sound,
    ⟨_, hstore ▸ (Ledger.ofOps_kept hops).2⟩, (hlodged.held index super hindex hsuper).has⟩,
    hkempt.stack super (List.mem_of_getElem? hsuper)⟩

/-! ## Splitting the root twice -/

/-- the root is split twice by nodes of its own: the session before, what the split gave, the decomposer with counts
attached to components that were pushed, and after these were popped, the session in the end, and what the other split
gave -/
structure Rehearsal where
  first : Session
  split : Decomposer × Node
  attached : Decomposer
  cleaned : Decomposer
  last : Session
  again : Decomposer × Node

namespace Rehearsal

/-- the root is on the stack both times, and the counts that were attached are on record in the end -/
def Kept (x : Rehearsal) (counts : List (ℕ × ℕ)) : Prop :=
  ∃ root ∈ x.first.decomposer.stack[1]?, x.last.decomposer.stack[1]? = some root ∧
    ∀ c ∈ counts, ∀ q ∈ x.split.1.stack[x.first.decomposer.stack.length + c.1]?, x.last.decomposer.store.OnRecord c.2 q

instance (x : Rehearsal) (counts : List (ℕ × ℕ)) : Decidable (x.Kept counts) :=
  inferInstanceAs (Decidable (∃ root ∈ x.first.decomposer.stack[1]?, _))

def pushed (x : Rehearsal) : ℕ × ℕ :=
  (x.split.1.stack.length - x.first.decomposer.stack.length, x.again.1.stack.length - x.last.decomposer.stack.length)

def hits (x : Rehearsal) : ℕ := x.again.1.store.hits - x.last.decomposer.store.hits

end Rehearsal

/-- some steps, the root split, counts attached, more steps, and the root split again -/
def rehearse (s : Session) (before : List Op) (values : Assignment) (counts : List (ℕ × ℕ)) (after : List Op) :
    Except Fault Rehearsal := do
  let first ← s.run before
  let split ← (first.decomposer.split (Node.start 1 first.decomposer.stack.length) values).result
  let attached ← split.1.cacheCounts first.decomposer.stack.length counts
  let cleaned ← attached.clean split.2
  let last ← (⟨cleaned, split.2 :: first.levels, []⟩ : Session).run after
  let again ← (last.decomposer.split (Node.start 1 last.decomposer.stack.length) values).result
  return ⟨first, split, attached, cleaned, last, again⟩

theorem rehearse_steps {s : Session} {x : Rehearsal} {before after : List Op}
    (h : s.rehearse before values counts after = .ok x) : s.run before = .ok x.first ∧
      (x.first.decomposer.split (Node.start 1 x.first.decomposer.stack.length) values).result = .ok x.split ∧
      x.split.1.cacheCounts x.first.decomposer.stack.length counts = .ok x.attached ∧
      x.attached.clean x.split.2 = .ok x.cleaned ∧
      (⟨x.cleaned, x.split.2 :: x.first.levels, []⟩ : Session).run after = .ok x.last ∧
      (x.last.decomposer.split (Node.start 1 x.last.decomposer.stack.length) values).result = .ok x.again := by
  obtain ⟨first, hfirst, h⟩ := exists_of_bind h
  obtain ⟨split, hsplit, h⟩ := exists_of_bind h
  obtain ⟨attached, hattach, h⟩ := exists_of_bind h
  obtain ⟨cleaned, hclean, h⟩ := exists_of_bind h
  obtain ⟨last, hlast, h⟩ := exists_of_bind h
  obtain ⟨again, hagain, h⟩ := exists_of_bind h
  cases h
  exact ⟨hfirst, hsplit, hattach, hclean, hlast, hagain⟩

/-- a rehearsal of a new decomposer that was carried out -/
theorem exists_rehearsal {config : Config} {before after : List Op} {P : Rehearsal → Prop} [DecidablePred P]
    (h : (do (start (← ((← Decomposer.new config).load f).result)).rehearse before values counts after :
      Except Fault Rehearsal).toOption.map (fun x => decide (P x)) = some true) :
    ∃ d₀ loaded x, Decomposer.new config = .ok d₀ ∧ (d₀.load f).result = .ok loaded ∧
      (start loaded).rehearse before values counts after = .ok x ∧ P x := by
  obtain ⟨x, hx, hP⟩ := Option.map_eq_some_iff.1 h
  obtain ⟨d₀, hnew, hrun⟩ := exists_of_bind (Except.eq_ok_of_toOption hx)
  obtain ⟨loaded, hload, hrun⟩ := exists_of_bind hrun
  exact ⟨d₀, loaded, x, hnew, hload, hrun, of_decide_eq_true hP⟩

/-! ## The second split -/

/-- **Splitting again.** In a session with look-ups a component on the stack is split by a node of its own, counts are
attached to any of the components that are pushed, and these are popped. More work follows, after which the component
is still on the stack, the components that were given counts have their entries, and no other count is on record for
their signatures. Then to split it again under the same assignment ends, unless a machine word is too short, and finds
the same parts: those that were given counts are answered, each once, and of the others those are pushed, under fresh
ids, for whose signature no live entry has a count. Where all were given counts and none was answered at first, nothing
is pushed, no id is given out, and there is a hit for each. -/
theorem split_again (hn : n < 2147483648) (hf : Formula.ofClauses n clauses = .ok f) (hused : Used d₀)
    (hload : (d₀.load f).result = .ok loaded) (hcaching : d₀.config.caching = true)
    (hd : Onward n loaded [] d levels) (hindex : 1 ≤ index) (hsuper : d.stack[index]? = some super)
    (hvalues : values.Fits n) (hsplit : (d.split (Node.start index d.stack.length) values).result = .ok r)
    (hattach : r.1.cacheCounts d.stack.length counts = .ok attached) (hclean : attached.clean r.2 = .ok cleaned)
    (hlater : Onward n cleaned (r.2 :: levels) later levels') (hindex' : 1 ≤ index')
    (hsuper' : later.stack[index']? = some super)
    (hkept : ∀ c ∈ counts, ∀ q ∈ r.1.stack[d.stack.length + c.1]?, later.store.OnRecord c.2 q) :
    ∃ pushed answered, Enumerated d (Node.start index d.stack.length) r pushed answered ∧
      (∀ p ∈ pushed ++ answered.map Prod.fst, ∃ v, IsPart f values super v p.comp p.signature) ∧
      Ends (OutOfWords f values super later) (later.split (Node.start index' later.stack.length) values).result
        fun r' => ∃ again answers, Enumerated later (Node.start index' later.stack.length) r' again answers ∧
          Recalls counts pushed answered later.store again answers ∧
          ((∀ k < pushed.length, ∃ c ∈ counts, c.1 = k) → answered = [] →
            r'.1.stack = later.stack ∧ r'.1.store.nextId = later.store.nextId ∧
            r'.1.store.hits = later.store.hits + pushed.length) := by
  obtain ⟨rfl, hstores⟩ := stores_of_ofClauses hn hf
  have hlt : index < d.stack.length := (List.getElem?_eq_some_iff.1 hsuper).1
  -- the session up to the first split, up to the attached counts, and from there on
  have hfirst := (hd.enter hindex hlt).split hvalues hsplit
  have hcounts : Onward f.numVars r.1 (r.2 :: levels) attached (r.2 :: levels) :=
    Onward.refl.cacheCounts (Nat.one_le_of_lt hlt) hattach
  have hrest : Onward f.numVars attached (r.2 :: levels) later levels' := (Onward.refl.clean hclean).trans hlater
  obtain ⟨hprimed, hlisted⟩ := hd.primed hstores hn hused hload hcaching hindex hsuper
  obtain ⟨hprimed', -⟩ :=
    (hfirst.trans (hcounts.trans hrest)).primed hstores hn hused hload hcaching hindex' hsuper'
  obtain ⟨pushed, answered, henum, hparts, hagain⟩ :=
    splits_enumerated (hlisted.setting hstores hn hvalues) hprimed hprimed' hsplit
  have hgiven := henum.recorded (hfirst.lodged (sheltered_start hload).lodged).sound
    (((split_follows _ _ _).get hsplit).config ▸ hprimed.caching) hattach hrest.works.toFollows hkept
  refine ⟨pushed, answered, henum, hparts, hagain.mono fun r' hex => ?_⟩
  obtain ⟨again, answers, henum', hsame⟩ := hex
  have hrecalls := henum'.recalls hsame hgiven
  refine ⟨again, answers, henum', hrecalls, fun hall hnone => ?_⟩
  rw [hnone] at hrecalls
  exact henum'.all_answered hrecalls hall

/-- the root of three independent clauses; one part has a count before the first of the two splits, another is given
one -/
theorem split_again_third : ∃ f d₀ loaded x, Formula.ofClauses 6 [[1, 2], [3, 4], [5, 6]] = .ok f ∧
    Decomposer.new ⟨true, 0, 0⟩ = .ok d₀ ∧ (d₀.load f).result = .ok loaded ∧
    (start loaded).rehearse [.enter 1, .split (.empty 6), .cacheCount 2 3, .clean] (.empty 6) [(0, 3)]
      [.leave, .leave, .enter 1, .findNext (.empty 6), .clean, .leave, .refresh] = .ok x ∧
    x.Kept [(0, 3)] ∧ x.pushed = (2, 1) ∧ x.hits = 2 ∧
    ∃ pushed answered again answers,
      Enumerated x.first.decomposer (Node.start 1 x.first.decomposer.stack.length) x.split pushed answered ∧
      Enumerated x.last.decomposer (Node.start 1 x.last.decomposer.stack.length) x.again again answers ∧
      Recalls [(0, 3)] pushed answered x.last.decomposer.store again answers := by
  obtain ⟨f, hf, hview⟩ : ∃ f, Formula.ofClauses 6 [[1, 2], [3, 4], [5, 6]] = .ok f ∧
      (do (start (← ((← Decomposer.new ⟨true, 0, 0⟩).load f).result)).rehearse
            [.enter 1, .split (.empty 6), .cacheCount 2 3, .clean] (.empty 6) [(0, 3)]
            [.leave, .leave, .enter 1, .findNext (.empty 6), .clean, .leave, .refresh] :
          Except Fault Rehearsal).toOption.map (fun x => decide (x.Kept [(0, 3)] ∧ x.pushed = (2, 1) ∧ x.hits = 2)) =
        some true := ⟨_, rfl, by cbv⟩
  obtain ⟨d₀, loaded, x, hnew, hload, hrun, hkept, hpushed, hhits⟩ := exists_rehearsal hview
  obtain ⟨hfirst, hsplit, hattach, hclean, hlast, hagain⟩ := rehearse_steps hrun
  obtain ⟨root, hroot, hroot', honrecord⟩ := hkept
  have hv := Assignment.fits_empty 6
  have hbefore : Onward 6 loaded [] x.first.decomposer x.first.levels :=
    Onward.run (s := start loaded) .refl (by simp [Op.Fits, hv]) hfirst
  have hafter : Onward 6 x.cleaned (x.split.2 :: x.first.levels) x.last.decomposer x.last.levels :=
    Onward.run (s := ⟨x.cleaned, x.split.2 :: x.first.levels, []⟩) .refl (by simp [Op.Fits, hv]) hlast
  have hcaching : d₀.config.caching = true := by
    cases hnew
    rfl
  obtain ⟨pushed, answered, henum, -, hends⟩ := split_again (by decide) hf (.new hnew) hload hcaching hbefore le_rfl
    hroot hv hsplit hattach hclean hafter le_rfl hroot' honrecord
  obtain ⟨again, answers, henum', hrecalls, -⟩ := hends.get hagain
  exact ⟨f, d₀, loaded, x, hf, hnew, hload, hrun, ⟨root, hroot, hroot', honrecord⟩, hpushed, hhits, pushed, answered,
    again, answers, henum, henum', hrecalls⟩

/-- A part that was answered the first time is answered again: where the only part that was pushed was given a count,
and another was answered, there are two hits, not one. -/
theorem split_again_hits : ∃ f d₀ loaded x, Formula.ofClauses 4 [[1, 2], [3, 4]] = .ok f ∧
    Decomposer.new ⟨true, 0, 0⟩ = .ok d₀ ∧ (d₀.load f).result = .ok loaded ∧
    (start loaded).rehearse [.enter 1, .split (.empty 4), .cacheCount 2 3, .clean] (.empty 4) [(0, 3)] [] = .ok x ∧
    x.Kept [(0, 3)] ∧ x.pushed = (1, 0) ∧ x.hits = 2 := by
  obtain ⟨f, hf, hview⟩ : ∃ f, Formula.ofClauses 4 [[1, 2], [3, 4]] = .ok f ∧
      (do (start (← ((← Decomposer.new ⟨true, 0, 0⟩).load f).result)).rehearse
            [.enter 1, .split (.empty 4), .cacheCount 2 3, .clean] (.empty 4) [(0, 3)] [] :
          Except Fault Rehearsal).toOption.map (fun x => decide (x.Kept [(0, 3)] ∧ x.pushed = (1, 0) ∧ x.hits = 2)) =
        some true := ⟨_, rfl, by cbv⟩
  obtain ⟨d₀, loaded, x, hnew, hload, hrun, hfacts⟩ := exists_rehearsal hview
  exact ⟨f, d₀, loaded, x, hf, hnew, hload, hrun, hfacts⟩

end Session

end ModelCount
