/-
What the classes of a split are worth.

A class is answered, a variable that is alone by the factor 2 and a part by the count that the store has for it, or its
part is pushed (`Portion`). Neither a look-up nor a fresh entry changes what look-ups find (`Echoes`). So a split that
is done again on the store that the first one left answers the same classes and pushes the others once more: the node
takes the same factors, and the same components stand on the stack in the same order, under other ids (`split_shares`).
-/
import Mathlib.Data.List.Forall2
import Mathlib.Tactic
import ModelCount.Proofs.Answers
import ModelCount.Proofs.Reach
import ModelCount.Proofs.Slices

namespace ModelCount

open Formula Explorer

/-! ## Stores in which look-ups find the same -/

namespace Store

variable {store s s' : Store} {father id : EntryId} {f : Entry}

/-- the same store, but for the numbers of look-ups and hits -/
def Recounted (s s' : Store) : Prop := s' = { s with lookups := s'.lookups, hits := s'.hits }

theorem Recounted.refl (s : Store) : Recounted s s := rfl

theorem Recounted.counters (h : Recounted s s') (lookups hits : ℕ) :
    Recounted s { s' with lookups := lookups, hits := hits } := by
  unfold Recounted at h ⊢
  rw [h]

theorem Recounted.findFrom_eq (h : Recounted s s') (signature : Signature) (steps : ℕ) (place : EntryId) :
    s'.findFrom signature steps place = s.findFrom signature steps place := by
  have hentry : ∀ id, s'.entry id = s.entry id := fun id => by rw [h]; rfl
  induction steps generalizing place with
  | zero => rfl
  | succ steps ih => simp only [findFrom, hentry, ih]

theorem Recounted.find_eq (h : Recounted s s') (signature : Signature) : s'.find signature = s.find signature := by
  unfold find
  rw [h.findFrom_eq, h]
  rfl

theorem Recounted.has_eq (h : Recounted s s') (i : EntryId) : s'.has i = s.has i := by
  rw [h]
  rfl

theorem Recounted.between {s'' : Store} (h : Recounted s s') (h' : Recounted s s'') : Recounted s' s'' := by
  unfold Recounted at h h' ⊢
  rw [h', h]

/-- a fresh entry has no count, and it is in no chain -/
theorem find_minted (h : s.Sound) (hf : s.get? father = some f) (fresh signature : Signature) :
    (s.minted fresh father f).find signature = s.find signature := by
  obtain ⟨ids, hd, hchain, hfind⟩ := find_spec h.chained signature
  have hlive : ∀ i e, s.get? i = some e → ∃ l, (s.minted fresh father f).get? i = some { e with descendants := l } :=
    fun i e he => live_minted hf h.unused he
  have hchain' : Chain (s.minted fresh father f) (s.bucketOf signature.hash) (s.head (s.bucketOf signature.hash)) ids :=
    hchain.congr rfl fun i _ e he => by
      obtain ⟨l, hl⟩ := hlive i e he
      exact ⟨_, hl, rfl, rfl, rfl⟩
  have hcount : ∀ i ∈ ids, (s.minted fresh father f).countOf signature i = s.countOf signature i := by
    intro i hi
    obtain ⟨-, e, he, -⟩ := hchain.mem hi
    obtain ⟨l, hl⟩ := hlive i e he
    rw [countOf, countOf, he, hl]
    rfl
  have hfind' : (s.minted fresh father f).find signature =
      .ok (ids.findSome? ((s.minted fresh father f).countOf signature)) :=
    findFrom_eq hchain' (Nat.lt_succ_of_le (hchain'.length_le hd))
  rw [hfind', hfind, ← List.head?_filterMap, List.filterMap_congr hcount, List.head?_filterMap]

/-- the store is sound, and a look-up finds in it what it finds in the given one -/
structure Echoes (store s : Store) : Prop where
  sound : s.Sound
  find : ∀ signature, s.find signature = store.find signature

theorem Echoes.refl (h : s.Sound) : Echoes s s := ⟨h, fun _ => rfl⟩

theorem Echoes.recounted (h : Echoes store s) (h' : Recounted s s') : Echoes store s' := by
  refine ⟨?_, fun signature => (h'.find_eq signature).trans (h.find signature)⟩
  rw [h']
  exact h.sound.of_same rfl rfl rfl rfl rfl

theorem Echoes.mint {fresh : Signature} (h : Echoes store s) (hrun : s.mint fresh father = .ok (id, s')) :
    Echoes store s' ∧ s'.has father = true := by
  by_cases hlive : s.has father = true
  · obtain ⟨f, hf⟩ := has_iff.1 hlive
    rw [mint_eq hf (Nat.ne_of_lt (h.sound.range father f hf).2)] at hrun
    split_ifs at hrun
    cases hrun
    obtain ⟨l, hl⟩ := live_minted hf h.sound.unused hf
    have hfind : ∀ signature, (s.minted fresh father f).find signature = store.find signature := fun signature =>
      (find_minted h.sound hf fresh signature).trans (h.find signature)
    exact ⟨⟨h.sound.minted hf fresh, hfind⟩, has_of_get? hl⟩
  · rw [Store.mint, require, if_neg hlive] at hrun
    cases hrun

end Store

/-! ## What pieces are worth -/

namespace Decomposer

open Store

variable {f : Formula} {cls : List (List Lit)} {values : Assignment} {comp : Component} {caching : Bool} {v : Var}
  {father : EntryId} {store : Store} {k : ℕ} {t t' : Tally} {piece : Option Part} {pieces : List (Option Part)}

/-- the factor that a piece is worth without a fresh entry: 2 for a variable that is alone, the count that the store has
for a part -/
def worth (caching : Bool) (store : Store) : Option Part → Option ℕ
  | none => some 2
  | some p => if caching then (store.find p.signature).toOption.join else none

theorem worth_some_iff {p : Part} :
    worth caching store (some p) = some k ↔ caching = true ∧ store.find p.signature = .ok (some k) := by
  cases caching with
  | false => simp [worth]
  | true =>
    rw [worth, if_pos rfl, Option.join_eq_some_iff]
    cases store.find p.signature <;> simp [Except.toOption]

def bare (p : Component) : Component := p.withId .none

/-- a part is looked up, if there is caching at all -/
theorem consult_share {p : Part} {s : Store} {node : Node} {r : Bool × Store × Node}
    (h : s.find p.signature = store.find p.signature) (hrun : consult caching s node p.signature = .ok r) :
    Recounted s r.2.1 ∧ ((r.1 = true ∧ ∃ k, worth caching store (some p) = some k ∧ r.2.2 = node.times k) ∨
      r.1 = false ∧ worth caching store (some p) = none ∧ r.2.2 = node) := by
  cases caching with
  | false =>
    cases hrun
    exact ⟨.refl s, Or.inr ⟨rfl, rfl, rfl⟩⟩
  | true =>
    obtain ⟨answer, hfind, hrun⟩ := exists_of_bind hrun
    have hworth : worth true store (some p) = answer := by
      rw [worth, if_pos rfl, ← h, hfind]
      rfl
    cases answer with
    | none =>
      cases hrun
      exact ⟨.counters (.refl s) _ _, Or.inr ⟨rfl, hworth, rfl⟩⟩
    | some k =>
      cases hrun
      exact ⟨.counters (.refl s) _ _, Or.inl ⟨rfl, k, hworth, rfl⟩⟩

/-- **One piece** is answered with its factor, or a component is found for it under a fresh entry. Either way look-ups
find what they found. -/
theorem serve_share (h : Echoes store t.store) (hrun : serve caching father t piece = .ok t') :
    Echoes store t'.store ∧
      ((∃ k, worth caching store piece = some k ∧ t'.node = t.node.times k ∧ t'.found = t.found ∧
          t'.store.has father = t.store.has father) ∨
        ∃ p id, piece = some p ∧ worth caching store piece = none ∧ t'.node = t.node ∧
          t'.found = p.comp.withId id :: t.found ∧ t'.store.has father = true) := by
  cases piece with
  | none =>
    cases hrun
    exact ⟨h, Or.inl ⟨2, rfl, rfl, rfl, rfl⟩⟩
  | some p =>
    obtain ⟨⟨hit, s, node⟩, hconsult, hrun⟩ := exists_of_bind hrun
    obtain ⟨hs, ⟨hhit, k, hworth, hnode⟩ | ⟨hhit, hworth, hnode⟩⟩ := consult_share (h.find p.signature) hconsult
    · obtain rfl : hit = true := hhit
      cases hrun
      exact ⟨h.recounted hs, Or.inl ⟨k, hworth, hnode, rfl, hs.has_eq father⟩⟩
    · obtain rfl : hit = false := hhit
      obtain ⟨⟨id, s'⟩, hmint, hrun⟩ := exists_of_bind hrun
      cases hrun
      obtain ⟨hs', hlive⟩ := (h.recounted hs).mint hmint
      exact ⟨hs', Or.inr ⟨p, id, rfl, hworth, hnode, rfl, hlive⟩⟩

def unanswered (caching : Bool) (store : Store) (pieces : List (Option Part)) : List Component :=
  (pieces.filter fun piece => (worth caching store piece).isNone).reduceOption.map Part.comp

/-- the pieces are dealt with: the node has the factors of those that are answered, and components are found for the
others, the last first -/
structure Shared (caching : Bool) (store : Store) (father : EntryId) (pieces : List (Option Part)) (t t' : Tally) :
    Prop where
  echoes : Echoes store t'.store
  node : t'.node = (pieces.map (worth caching store)).reduceOption.foldl Node.times t.node
  found : t'.found.map bare = (unanswered caching store pieces).reverse ++ t.found.map bare
  length : t'.found.length = t.found.length + (pieces.map (worth caching store)).count none
  live : t.store.has father = true ∨ none ∈ pieces.map (worth caching store) → t'.store.has father = true

/-- **All pieces.** -/
theorem serves_shared (hbare : ∀ p ∈ pieces.reduceOption, p.comp.id = .none) (h : Echoes store t.store)
    (hrun : pieces.foldlM (serve caching father) t = .ok t') : Shared caching store father pieces t t' := by
  induction pieces generalizing t with
  | nil =>
    cases hrun
    exact ⟨h, rfl, rfl, rfl, fun hor => hor.resolve_right List.not_mem_nil⟩
  | cons piece pieces ih =>
    rw [List.foldlM_cons] at hrun
    obtain ⟨t₁, hserve, hrest⟩ := exists_of_bind hrun
    have hbare' : ∀ p ∈ pieces.reduceOption, p.comp.id = .none := fun p hp =>
      hbare p (List.reduceOption_mem_iff.2 (List.mem_cons_of_mem _ (List.reduceOption_mem_iff.1 hp)))
    obtain ⟨h₁, ⟨k, hworth, hnode, hfound, hhas⟩ | ⟨p, id, rfl, hworth, hnode, hfound, hlive⟩⟩ := serve_share h hserve
    · have hrec := ih hbare' h₁ hrest
      refine ⟨hrec.echoes, ?_, ?_, ?_, fun hor => hrec.live ?_⟩
      · simp [hrec.node, hnode, hworth]
      · simp [hrec.found, hfound, unanswered, hworth]
      · simp [hrec.length, hfound, hworth]
      · rw [hhas]
        simpa [hworth] using hor
    · have hrec := ih hbare' h₁ hrest
      have hsame : bare (p.comp.withId id) = p.comp := by
        have hid := hbare p (by simp)
        show p.comp.withId .none = p.comp
        rw [← hid]
        rfl
      refine ⟨hrec.echoes, ?_, ?_, ?_, fun _ => hrec.live (Or.inl hlive)⟩
      · simp [hrec.node, hnode, hworth]
      · simp [hrec.found, hfound, unanswered, hworth, hsame]
      · simp only [hrec.length, hfound, hworth, List.map_cons, List.length_cons, List.count_cons_self]
        omega

/-! ## A split that is done again -/

variable {d d₁ : Decomposer} {node node₁ : Node}

/-- the class of a variable is worth a factor: 2 if the variable is alone, else the count that the store has under the
signature of the part -/
def Share (f : Formula) (values : Assignment) (comp : Component) (caching : Bool) (store : Store) (v : Var) (k : ℕ) :
    Prop :=
  ((∀ w, f.Connected values comp v w → w = v) ∧ k = 2) ∨
    caching = true ∧ ∃ part signature, IsPart f values comp v part signature ∧ store.find signature = .ok (some k)

/-- the class of a variable is worth a factor, or it makes a part for which no count is found -/
def Portion (f : Formula) (values : Assignment) (comp : Component) (caching : Bool) (store : Store) (v : Var) :
    Option ℕ → Prop
  | some k => Share f values comp caching store v k
  | none => ∃ part signature, IsPart f values comp v part signature ∧
      ¬ (caching = true ∧ ∃ k, store.find signature = .ok (some k))

theorem portion_worth (h : IsPiece f values comp v piece) :
    Portion f values comp caching store v (worth caching store piece) := by
  cases piece with
  | none => exact Or.inl ⟨h, rfl⟩
  | some p =>
    cases hworth : worth caching store (some p) with
    | none =>
      refine ⟨p.comp, p.signature, h, fun hfound => ?_⟩
      obtain ⟨hcaching, k, hk⟩ := hfound
      rw [worth_some_iff.2 ⟨hcaching, hk⟩] at hworth
      cases hworth
    | some k =>
      obtain ⟨hcaching, hk⟩ := worth_some_iff.1 hworth
      exact Or.inr ⟨hcaching, p.comp, p.signature, h, hk⟩

theorem Dealt.shared {r : Decomposer × Node} (h : Dealt d node comp pieces r t)
    (hbare : ∀ p ∈ pieces.reduceOption, p.comp.id = .none) (hstore : Echoes store d.store) :
    Shared d.config.caching store comp.id pieces ⟨d.store, node, [], 0⟩ t :=
  serves_shared hbare hstore h.serve

/-- what stands above the stack is sorted by numbers of variables, which entries have no part in -/
theorem map_bare_sorted (h : t.found.map bare = (unanswered caching store pieces).reverse) :
    (sortDescending t.found.reverse).map bare = sortDescending (unanswered caching store pieces) := by
  rw [← sortDescending_map (g := bare) (fun _ => rfl), List.map_reverse, h, List.reverse_reverse]

theorem superOf_append {node' : Node} {pushed : List Component} (hsuper : d.superOf node = .ok comp)
    (hindex : node'.superIndex = node.superIndex) (hstack : d₁.stack = d.stack ++ pushed) :
    d₁.superOf node' = .ok comp := by
  have hplace : d.stack[node.superIndex]? = some comp := held_eq hsuper
  apply held_of_getElem?
  rw [hstack, hindex, List.getElem?_append_left (List.getElem?_eq_some_iff.1 hplace).1]
  exact hplace

/-- **A split that is done again** takes the same factors, and pushes the same components once more. -/
theorem split_shares (hs : Setting f cls values comp) (hfits : d.explorer.Fits f) (hfits₁ : d₁.explorer.Fits f)
    (hsound : d.store.Sound) (hsuper : d.superOf node = .ok comp)
    (hrun : (d.split node values).result = .ok (d₁, node₁)) (hpushed : d₁.stack ≠ d.stack) :
    ∃ leaders shares pushed, Leads f values comp (fun _ => False) comp.vars leaders ∧
      List.Forall₂ (Portion f values comp d.config.caching d.store) leaders shares ∧
      pushed ≠ [] ∧ pushed.length = shares.count none ∧ d₁.stack = d.stack ++ pushed ∧
      node.base ≤ d₁.stack.length ∧
      node₁ = { shares.reduceOption.foldl Node.times node with cursor := d₁.stack.length } ∧
      ∀ node', node'.superIndex = node.superIndex → node'.base ≤ d₁.stack.length →
        Ends (OutOfWords f values comp d₁) (d₁.split node' values).result fun r => ∃ again,
          r.1.stack = d₁.stack ++ again ∧ again.map bare = pushed.map bare ∧
          r.2 = { shares.reduceOption.foldl Node.times node' with cursor := r.1.stack.length } := by
  obtain ⟨leaders, pieces, t, hleads, hpieces, hfound, hdealt, hpeers⟩ := split_pieces hs hfits hsuper hrun
  have hshared := hdealt.shared hfound.bare (.refl hsound)
  have hstack : d₁.stack = d.stack ++ sortDescending t.found.reverse := hdealt.stack
  have hne : sortDescending t.found.reverse ≠ [] := fun hnil => hpushed (by rw [hstack, hnil, List.append_nil])
  have hlength : (sortDescending t.found.reverse).length =
      (pieces.map (worth d.config.caching d.store)).count none := by
    rw [(sortDescending_perm _).length_eq, List.length_reverse, hshared.length]
    exact Nat.zero_add _
  have hbase : t.node.base = node.base := by
    rw [hshared.node, Node.foldl_times, Node.base_setActive]
  have hnode₁ : node₁ = { t.node with cursor := d₁.stack.length } := hdealt.node
  refine ⟨leaders, pieces.map (worth d.config.caching d.store), sortDescending t.found.reverse, hleads,
    List.forall₂_map_right_iff.2 (hpieces.imp fun _ _ h => portion_worth h), hne, hlength, hstack,
    hbase ▸ hdealt.base, by rw [hnode₁, hshared.node], fun node' hindex hbase' => ?_⟩
  -- the second split begins with the store of the first one
  have hecho : Echoes d.store d₁.store := by
    rw [show d₁.store = t.store from hdealt.store]
    exact hshared.echoes
  have hlive : d₁.store.has comp.id = true := by
    rw [show d₁.store = t.store from hdealt.store]
    refine hshared.live (Or.inr (List.count_pos_iff.1 ?_))
    rw [← hlength]
    exact List.length_pos_iff.2 hne
  have hconfig : d₁.config = d.config := hdealt.config
  have hsuper' : d₁.superOf node' = .ok comp := superOf_append hsuper hindex hstack
  refine (split_issued hs hfits₁ hecho.sound hsuper' hlive hbase').of_result fun r hrun' => ?_
  obtain ⟨t', hdealt'⟩ := hpeers d₁ node' r hfits₁ hsuper' hrun'
  have hshared' := hdealt'.shared hfound.bare hecho
  rw [hconfig] at hshared'
  refine ⟨sortDescending t'.found.reverse, hdealt'.stack, ?_, ?_⟩
  · rw [map_bare_sorted (hshared'.found.trans (List.append_nil _)),
      map_bare_sorted (hshared.found.trans (List.append_nil _))]
  · rw [hdealt'.node, hshared'.node]

end Decomposer

end ModelCount
