/-
Splitting with look-ups.

A part whose signature has a count in the store is answered: the node takes the count as a factor, and the part needs
no entry. Any other part gets a fresh entry and is pushed. Neither changes what has a count, so that what a split
answers can be read off the store it begins with (`Enumerated`, `Dealt.enumerated`). No two parts share a signature. A
split with look-ups ends, unless a machine word is too short (`split_issued`).
-/
import Mathlib.Data.List.Forall2
import Mathlib.Tactic
import ModelCount.Proofs.Lookups
import ModelCount.Proofs.Pieces

namespace ModelCount

open Formula Explorer

/-! ## The store under a split -/

namespace Store

variable {s : Store} {father i : EntryId} {f : Entry} {signature : Signature} {count : ℕ}

/-- a sound store, its table at rest, in which an entry is live -/
structure Tended (father : EntryId) (s : Store) : Prop where
  sound : s.Sound
  tabled : ∃ bits, s.Tabled bits .none
  live : s.has father = true

namespace Tended

theorem of_counters (h : s.Tended father) (lookups hits : ℕ) :
    ({ s with lookups := lookups, hits := hits } : Store).Tended father := by
  obtain ⟨bits, ht⟩ := h.tabled
  have hkeeps : KeepsTable s { s with lookups := lookups, hits := hits } := keepsTable_of_same rfl rfl rfl rfl rfl
  exact ⟨h.sound.of_same rfl rfl rfl rfl rfl, ⟨bits, hkeeps bits ht⟩, h.live⟩

theorem lookup (h : s.Tended father) (node : Node) (signature : Signature) :
    (∃ count, s.Counts signature count ∧ s.lookup node signature =
      .ok (true, { s with lookups := s.lookups + 1, hits := s.hits + 1 }, node.times count)) ∨
    (¬ ∃ count, s.Counts signature count) ∧
      s.lookup node signature = .ok (false, { s with lookups := s.lookups + 1 }, node) := by
  obtain ⟨bits, ht⟩ := h.tabled
  exact ht.lookup h.sound.chained (fun _ _ he => h.sound.ne_none he) node signature

theorem minted (h : s.Tended father) (hf : s.get? father = some f) (signature : Signature) :
    (s.minted signature father f).Tended father := by
  obtain ⟨bits, ht⟩ := h.tabled
  obtain ⟨l, hl⟩ := live_minted hf h.sound.unused hf
  exact ⟨h.sound.minted hf signature, ⟨bits, keepsTable_minted hf h.sound.unused signature bits ht⟩, has_of_get? hl⟩

/-- a fresh entry has no count -/
theorem counts_minted (h : s.Tended father) (hf : s.get? father = some f) (fresh : Signature) :
    (s.minted fresh father f).Counts signature count ↔ s.Counts signature count := by
  constructor
  · intro hex
    obtain ⟨i, e, he, hsig, hcount⟩ := hex
    rcases of_minted hf he with ⟨-, rfl⟩ | ⟨old, l, hold, rfl⟩
    · cases hcount
    · exact ⟨i, old, hold, hsig, hcount⟩
  · intro hex
    obtain ⟨i, e, he, hsig, hcount⟩ := hex
    obtain ⟨l, hl⟩ := live_minted hf h.sound.unused he
    exact ⟨i, _, hl, hsig, hcount⟩

end Tended

end Store

/-! ## What a split answers -/

/-- parts have different signatures -/
theorem Explorer.Found.signatures {f : Formula} {cls : List (List Lit)} {values : Assignment} {comp : Component}
    {C : Var → Prop} {pieces : List (Option Part)} (hs : Setting f cls values comp) (h : Found f values comp C pieces) :
    (pieces.reduceOption.map Part.signature).Nodup := by
  refine List.pairwise_map.2 ((List.nodup_flatMap.1 h.once).2.imp_of_mem fun {p q} hp hq hdisjoint heq => ?_)
  obtain ⟨v, hpart⟩ := h.isPart p hp
  obtain ⟨v', hpart'⟩ := h.isPart q hq
  obtain ⟨listed, hsig, -⟩ := hpart.signature
  obtain ⟨listed', hsig', -⟩ := hpart'.signature
  rw [hsig, hsig', Signature.ofParts_inj (hpart.id_ne_zero hs) (hpart'.id_ne_zero hs)] at heq
  have hv : v ∈ p.comp.vars := (hpart.mem_vars v).2 Relation.ReflTransGen.refl
  have hv' : v ∈ q.comp.vars := heq.1 ▸ hv
  exact hdisjoint hv hv'

namespace Decomposer

open Store

variable {f : Formula} {cls : List (List Lit)} {values : Assignment} {comp : Component} {d : Decomposer}
  {node node₀ : Node} {father : EntryId} {s₀ : Store} {t t' : Tally} {pieces : List (Option Part)}
  {pushed : List Part} {answered : List (Part × ℕ)} {r : Decomposer × Node} {p : Part} {q : Component} {bound : ℕ}

/-- the component on the stack is the part, under an entry of its own that is no older than the bound -/
structure Filed (s : Store) (bound : ℕ) (q : Component) (p : Part) : Prop where
  same : q.withId .none = p.comp
  fresh : bound ≤ q.id.id
  entry : ∃ e, s.get? q.id = some e ∧ e.signature = p.signature

/-- a split that pushed some parts and answered the others -/
structure Enumerated (d : Decomposer) (node : Node) (r : Decomposer × Node) (pushed : List Part)
    (answered : List (Part × ℕ)) : Prop where
  /-- the parts pushed stand above the stack, each under a fresh entry -/
  stack : ∃ K, r.1.stack = d.stack ++ K ∧ List.Forall₂ (Filed r.1.store d.store.nextId) K pushed ∧
    (K.map Component.id).Nodup
  nextId : r.1.store.nextId = d.store.nextId + pushed.length
  hits : r.1.store.hits = d.store.hits + answered.length
  /-- no live entry with the signature of a part pushed has a count -/
  missed : ∀ p ∈ pushed, ¬ ∃ count, d.store.Counts p.signature count
  /-- a part is answered with the count of a live entry -/
  counted : ∀ a ∈ answered, d.store.Counts a.1.signature a.2
  apart : ((pushed ++ answered.map Prod.fst).map Part.signature).Nodup
  /-- the node takes the factor 2 for each variable that is alone, and each answer once -/
  node : ∃ (lone : ℕ) (factors : List ℕ), factors.Perm (List.replicate lone 2 ++ answered.map Prod.snd) ∧
    r.2 = { factors.foldl Node.times node with cursor := r.1.stack.length }

/-- the pieces are dealt with: some parts are found, last first, the others answered -/
structure Reckoned (father : EntryId) (s₀ : Store) (node₀ : Node) (pieces : List (Option Part)) (t : Tally)
    (pushed : List Part) (answered : List (Part × ℕ)) : Prop where
  tended : t.store.Tended father
  counts : ∀ signature count, t.store.Counts signature count ↔ s₀.Counts signature count
  nextId : t.store.nextId = s₀.nextId + pushed.length
  hits : t.store.hits = s₀.hits + answered.length
  found : List.Forall₂ (Filed t.store s₀.nextId) t.found pushed
  given : ∀ q ∈ t.found, q.id.id < t.store.nextId
  distinct : (t.found.map Component.id).Nodup
  all : (pushed ++ answered.map Prod.fst).Perm pieces.reduceOption
  missed : ∀ p ∈ pushed, ¬ ∃ count, s₀.Counts p.signature count
  counted : ∀ a ∈ answered, s₀.Counts a.1.signature a.2
  node : ∃ (lone : ℕ) (factors : List ℕ), factors.Perm (List.replicate lone 2 ++ answered.map Prod.snd) ∧
    t.node = factors.foldl Node.times node₀

namespace Reckoned

theorem start (h : s₀.Tended father) : Reckoned father s₀ node₀ [] ⟨s₀, node₀, [], 0⟩ [] [] :=
  ⟨h, fun _ _ => Iff.rfl, rfl, rfl, .nil, by simp, List.nodup_nil, List.Perm.refl _, by simp, by simp, 0, [], by simp,
    rfl⟩

/-- a variable that is alone -/
theorem alone (h : Reckoned father s₀ node₀ pieces t pushed answered) :
    Reckoned father s₀ node₀ (pieces ++ [none]) { t with node := t.node.times 2 } pushed answered := by
  obtain ⟨lone, factors, hperm, hnode⟩ := h.node
  refine ⟨h.tended, h.counts, h.nextId, h.hits, h.found, h.given, h.distinct, ?_, h.missed, h.counted, lone + 1,
    factors ++ [2], ?_, ?_⟩
  · rw [List.reduceOption_append]
    simpa using h.all
  · rw [List.replicate_succ, List.cons_append]
    exact (List.perm_append_singleton 2 factors).trans (hperm.cons 2)
  · rw [List.foldl_append, ← hnode]
    rfl

/-- a part that has a count -/
theorem answer (h : Reckoned father s₀ node₀ pieces t pushed answered) {count : ℕ}
    (hcount : t.store.Counts p.signature count) :
    Reckoned father s₀ node₀ (pieces ++ [some p])
      ⟨{ t.store with lookups := t.store.lookups + 1, hits := t.store.hits + 1 }, t.node.times count, t.found,
        t.hits + 1⟩ pushed ((p, count) :: answered) := by
  obtain ⟨lone, factors, hperm, hnode⟩ := h.node
  refine ⟨h.tended.of_counters _ _, h.counts, h.nextId, ?_, ?_, h.given, h.distinct, ?_, h.missed, fun a ha => ?_, lone,
    factors ++ [count], ?_, ?_⟩
  · show t.store.hits + 1 = _
    rw [h.hits, List.length_cons, Nat.add_assoc]
  · exact h.found.imp fun q p hq => ⟨hq.same, hq.fresh, hq.entry⟩
  · rw [List.reduceOption_append, List.map_cons]
    exact List.perm_middle.trans ((h.all.cons p).trans (List.perm_append_singleton p _).symm)
  · rcases List.mem_cons.1 ha with rfl | ha
    · exact (h.counts _ _).1 hcount
    · exact h.counted a ha
  · rw [List.map_cons]
    exact (List.perm_append_singleton count factors).trans ((hperm.cons count).trans List.perm_middle.symm)
  · rw [List.foldl_append, ← hnode]
    rfl

/-- a part that has no count -/
theorem push (h : Reckoned father s₀ node₀ pieces t pushed answered) (hbare : p.comp.id = .none)
    (hmiss : ¬ ∃ count, t.store.Counts p.signature count) {e : Entry} (he : t.store.get? father = some e) :
    Reckoned father s₀ node₀ (pieces ++ [some p])
      ⟨({ t.store with lookups := t.store.lookups + 1 } : Store).minted p.signature father e, t.node,
        p.comp.withId ⟨t.store.nextId⟩ :: t.found, t.hits⟩ (p :: pushed) answered := by
  have htended := h.tended.of_counters (t.store.lookups + 1) t.store.hits
  have hnew : (({ t.store with lookups := t.store.lookups + 1 } : Store).minted p.signature father e).get?
      ⟨t.store.nextId⟩ = some (.fresh p.signature father (t.store.time + 1)) := by
    rw [Store.get?_minted, if_neg, if_pos rfl]
    intro heq
    rw [← heq, h.tended.sound.unused] at he
    cases he
  refine ⟨htended.minted he p.signature, fun signature count => (htended.counts_minted he p.signature).trans
    (h.counts signature count), ?_, h.hits, ?_, fun q hq => ?_, ?_, ?_, fun x hx => ?_, h.counted, h.node⟩
  · show t.store.nextId + 1 = _
    rw [h.nextId, List.length_cons, Nat.add_assoc]
  · refine .cons ⟨?_, ?_, _, hnew, rfl⟩ (h.found.imp fun q x hq => ⟨hq.same, hq.fresh, ?_⟩)
    · show p.comp.withId .none = p.comp
      rw [← hbare]
      rfl
    · show s₀.nextId ≤ t.store.nextId
      rw [h.nextId]
      exact Nat.le_add_right _ _
    · obtain ⟨x₀, hx, hsig⟩ := hq.entry
      obtain ⟨l, hl⟩ := Store.live_minted he htended.sound.unused hx
      exact ⟨_, hl, hsig⟩
  · show q.id.id < t.store.nextId + 1
    rcases List.mem_cons.1 hq with rfl | hq
    · exact Nat.lt_succ_self _
    · exact (h.given q hq).trans (Nat.lt_succ_self _)
  · refine List.nodup_cons.2 ⟨fun hm => ?_, h.distinct⟩
    obtain ⟨q, hq, hid⟩ := List.mem_map.1 hm
    have hlt := h.given q hq
    rw [hid] at hlt
    exact Nat.lt_irrefl _ hlt
  · rw [List.reduceOption_append]
    exact (h.all.cons p).trans (List.perm_append_singleton p _).symm
  · rcases List.mem_cons.1 hx with rfl | hx
    · exact fun hex => hmiss (hex.imp fun count hc => (h.counts _ count).2 hc)
    · exact h.missed x hx

end Reckoned

/-- **One piece.** -/
theorem serve_reckoned {piece : Option Part} (h : Reckoned father s₀ node₀ pieces t pushed answered)
    (hbare : ∀ p, piece = some p → p.comp.id = .none) (hrun : serve true father t piece = .ok t') :
    ∃ pushed' answered', Reckoned father s₀ node₀ (pieces ++ [piece]) t' pushed' answered' := by
  cases piece with
  | none =>
    cases hrun
    exact ⟨_, _, h.alone⟩
  | some p =>
    simp only [serve, consult, if_true] at hrun
    rcases h.tended.lookup t.node p.signature with ⟨count, hcount, hlookup⟩ | ⟨hmiss, hlookup⟩
    · rw [hlookup, Except.ok_bind] at hrun
      cases hrun
      exact ⟨_, _, h.answer hcount⟩
    · rw [hlookup, Except.ok_bind] at hrun
      obtain ⟨e, he⟩ := has_iff.1 h.tended.live
      simp only [Bool.false_eq_true, if_false] at hrun
      rw [mint_eq (s := { t.store with lookups := t.store.lookups + 1 }) he
        (Nat.ne_of_lt (h.tended.sound.range father e he).2)] at hrun
      split_ifs at hrun
      · cases hrun
        exact ⟨_, _, h.push (hbare p rfl) hmiss he⟩
      · cases hrun

/-- **All pieces.** -/
theorem serves_reckoned (htended : s₀.Tended father) (hbare : ∀ p ∈ pieces.reduceOption, p.comp.id = .none)
    (hrun : pieces.foldlM (serve true father) ⟨s₀, node₀, [], 0⟩ = .ok t) :
    ∃ pushed answered, Reckoned father s₀ node₀ pieces t pushed answered := by
  refine (Ends.foldlM (E := AnyFault) (fun done t => ∃ pushed answered, Reckoned father s₀ node₀ done t pushed answered)
    ⟨[], [], .start htended⟩ ?_).get hrun
  intro done piece rest t hl hex
  obtain ⟨pushed, answered, h⟩ := hex
  refine Ends.of_ok fun t' ht' => serve_reckoned h (fun p hp => hbare p ?_) ht'
  rw [hl, hp, List.reduceOption_mem_iff]
  simp

/-- **A split with look-ups** pushes some of the parts and answers the others. -/
theorem Dealt.enumerated (hs : Setting f cls values comp) (hfound : Found f values comp (fun _ => False) pieces)
    (hcaching : d.config.caching = true) (htended : d.store.Tended comp.id) (h : Dealt d node comp pieces r t) :
    ∃ pushed answered, Enumerated d node r pushed answered ∧
      (pushed ++ answered.map Prod.fst).Perm pieces.reduceOption := by
  have hserve := h.serve
  rw [hcaching] at hserve
  obtain ⟨pushed, answered, hr⟩ := serves_reckoned htended hfound.bare hserve
  have hperm := (sortDescending_perm t.found.reverse).trans t.found.reverse_perm
  -- the slice is sorted, and the parts with it
  obtain ⟨pushed', hfiled, hperm'⟩ := List.perm_comp_forall₂ hperm hr.found
  have hall : (pushed' ++ answered.map Prod.fst).Perm pieces.reduceOption := (hperm'.append_right _).trans hr.all
  refine ⟨pushed', answered, ⟨⟨_, h.stack, ?_, (hperm.map _).nodup_iff.2 hr.distinct⟩, ?_, ?_, fun p hp => ?_,
    hr.counted, (hall.map _).nodup_iff.2 (hfound.signatures hs), ?_⟩, hall⟩
  · rw [h.store]
    exact hfiled
  · rw [h.store, hr.nextId, hperm'.length_eq]
  · rw [h.store, hr.hits]
  · exact hr.missed p (hperm'.mem_iff.1 hp)
  · obtain ⟨lone, factors, hfactors, hnode⟩ := hr.node
    exact ⟨lone, factors, hfactors, by rw [h.node, hnode]⟩

/-! ## No fault but that of a machine word -/

/-- an id was given out for each part found, and no part shares a variable with another -/
structure Issued (f : Formula) (values : Assignment) (comp : Component) (s₀ : Store) (base : ℕ) (C : Var → Prop)
    (s : Store) (node : Node) (found : List Component) : Prop where
  sound : s.Sound
  live : s.has comp.id = true
  nextId : s.nextId = s₀.nextId + found.length
  parts : ∀ p ∈ found, ∃ v signature, IsPart f values comp v p signature
  claimed : ∀ p ∈ found, ∀ w ∈ p.vars, C w
  once : (found.flatMap Component.vars).Nodup
  base : node.base = base

namespace Issued

variable {C : Var → Prop} {s s' : Store} {node' : Node} {found : List Component} {v : Var} {part : Component}
  {signature : Signature} {base : ℕ}

/-- a class is claimed, and no entry changes -/
theorem claim (h : Issued f values comp s₀ base C s node found) (v : Var) (hsound : s'.Sound)
    (hentries : s'.entries = s.entries) (hnext : s'.nextId = s.nextId) (hbase : node'.base = node.base) :
    Issued f values comp s₀ base (withClass f values comp C v) s' node' found := by
  have hlive : s'.has comp.id = s.has comp.id := by unfold has get?; rw [hentries]
  exact ⟨hsound, hlive.trans h.live, hnext.trans h.nextId, h.parts, fun p hp w hw => Or.inl (h.claimed p hp w hw),
    h.once, hbase.trans h.base⟩

/-- an id is given out for the part that is claimed -/
theorem mint (hvars : comp.vars.Nodup) (hun : Unclaimed f values comp C v)
    (hpart : IsPart f values comp v part signature) (hclaimed : ∀ p ∈ found, ∀ w ∈ p.vars, C w)
    (h : Issued f values comp d.store base (withClass f values comp C v) s node found) :
    Ends (OutOfWords f values comp d) (s.mint signature comp.id) fun t =>
      Issued f values comp d.store base (withClass f values comp C v) t.2 node (part.withId t.1 :: found) := by
  refine ((h.sound.mint_spec h.live signature).weaken fun fault hboth => ?_).mono ?_
  · have hlen := length_le_of_parts h.parts h.once (K := comp.vars.toFinset) fun w hw => List.mem_toFinset.2 hw.1
    have hcard := List.toFinset_card_le comp.vars
    have hnext := h.nextId
    obtain ⟨rfl, hspent⟩ := hboth
    exact Or.inr ⟨_, rfl, hspent, by omega⟩
  · intro r hboth
    obtain ⟨id, s''⟩ := r
    obtain ⟨-, hsound, hkeeps, -⟩ := hboth
    obtain ⟨e, he⟩ := has_iff.1 h.live
    obtain ⟨e', he', -⟩ := get?_of_key (hkeeps.key _ _ True.intro (key_eq he))
    refine ⟨hsound, has_of_get? he', ?_, fun p hp => ?_, fun p hp w hw => ?_, ?_, h.base⟩
    · rw [hkeeps.nextId, h.nextId, List.length_cons, Nat.add_assoc]
    · rcases List.mem_cons.1 hp with rfl | hp
      · exact ⟨v, signature, hpart.withId id⟩
      · exact h.parts p hp
    · rcases List.mem_cons.1 hp with rfl | hp
      · exact Or.inr ((hpart.mem_vars w).1 hw)
      · exact h.claimed p hp w hw
    · rw [List.flatMap_cons, Component.vars_withId]
      refine List.nodup_append.2 ⟨hpart.varsSublist.nodup hvars, h.once, fun w hw u hu hwu => ?_⟩
      obtain ⟨p, hp, hup⟩ := List.mem_flatMap.1 hu
      exact hun.disjoint w ((hpart.mem_vars w).1 hw) (hwu ▸ hclaimed p hp u hup)

end Issued

theorem issued_rule (hvars : comp.vars.Nodup) (d : Decomposer) (caching : Bool) (base : ℕ) :
    SweepRule (OutOfWords f values comp d) f values comp caching (Issued f values comp d.store base) := by
  refine ⟨fun C s node found v _ _ h => h.claim v h.sound rfl rfl Node.base_setActive, ?_⟩
  intro C s node found v part signature hun hpart h
  cases caching with
  | false => exact (h.claim v h.sound rfl rfl rfl).mint hvars hun hpart h.claimed
  | true =>
    show Ends _ (s.lookup node signature) _
    rcases lookup_spec h.sound.chained node signature with ⟨count, i, e, -, -, -, hrun⟩ | hrun
    · rw [hrun]
      exact h.claim v (h.sound.of_same rfl rfl rfl rfl rfl) rfl rfl Node.base_setActive
    · have hmissed : Issued f values comp d.store base (withClass f values comp C v)
          { s with lookups := s.lookups + 1 } node found :=
        h.claim v (h.sound.of_same rfl rfl rfl rfl rfl) rfl rfl rfl
      rw [hrun]
      exact hmissed.mint hvars hun hpart h.claimed

/-- **A split ends**, with look-ups and without, unless a score or the ids run full. -/
theorem split_issued (hs : Setting f cls values comp) (hfits : d.explorer.Fits f) (hsound : d.store.Sound)
    (hsuper : d.superOf node = .ok comp) (hlive : d.store.has comp.id = true) (hbase : node.base ≤ d.stack.length) :
    Ends (OutOfWords f values comp d) (d.split node values).result fun _ => True := by
  refine (split_spec hs (issued_rule hs.varsNodup d d.config.caching node.base) hfits (fun hover => Or.inl ⟨rfl, hover⟩)
    hsuper (Or.inr fun C s m found h => ?_)
    ⟨hsound, hlive, rfl, by simp, by simp, by simp, rfl⟩).mono fun _ _ => True.intro
  rw [h.base]
  exact hbase

/-! ## Two splits -/

/-- a node can be split with look-ups: its super-component is on the stack, under a live entry -/
structure Primed (f : Formula) (comp : Component) (d : Decomposer) (node : Node) : Prop where
  fits : d.explorer.Fits f
  super : d.superOf node = .ok comp
  base : node.base ≤ d.stack.length
  caching : d.config.caching = true
  tended : d.store.Tended comp.id

/-- **Two splits** of one super-component under one assignment find the same parts of it, and each pushes some of them
and answers the others. -/
theorem splits_enumerated (hs : Setting f cls values comp) {d' : Decomposer} {node' : Node}
    (h : Primed f comp d node) (h' : Primed f comp d' node') (hrun : (d.split node values).result = .ok r) :
    ∃ pushed answered, Enumerated d node r pushed answered ∧
      (∀ p ∈ pushed ++ answered.map Prod.fst, ∃ v, IsPart f values comp v p.comp p.signature) ∧
      Ends (OutOfWords f values comp d') (d'.split node' values).result fun r' =>
        ∃ again answers, Enumerated d' node' r' again answers ∧
          (again ++ answers.map Prod.fst).Perm (pushed ++ answered.map Prod.fst) := by
  obtain ⟨-, pieces, t, -, -, hfound, hdealt, hpeers⟩ := split_pieces hs h.fits h.super hrun
  obtain ⟨pushed, answered, henum, hall⟩ := hdealt.enumerated hs hfound h.caching h.tended
  refine ⟨pushed, answered, henum, fun p hp => hfound.isPart p (hall.mem_iff.1 hp), ?_⟩
  refine (split_issued hs h'.fits h'.tended.sound h'.super h'.tended.live h'.base).of_result fun r' hrun' => ?_
  obtain ⟨t', hdealt'⟩ := hpeers d' node' r' h'.fits h'.super hrun'
  obtain ⟨again, answers, henum', hall'⟩ := hdealt'.enumerated hs hfound h'.caching h'.tended
  exact ⟨again, answers, henum', hall'.trans hall.symm⟩

end Decomposer

end ModelCount
