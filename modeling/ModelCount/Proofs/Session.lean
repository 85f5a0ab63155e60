/-
Components on the stack keep their entries.

A session is a search loop at work: nodes are entered at the root or at a component of the innermost open node and left
in the reverse order, and only the innermost node is asked for components, stepped, cleaned or abandoned; counts are
attached and entries evicted at any time (`Session.step`). Beside the decomposer a session remembers of every component
on the stack which super-component it was split from. Whatever the session does, every component on the stack has a live
entry of its own that is not deletable and whose father is the entry of that super-component (`Housed`), so that no
operation misses an entry (`run_housed`).
-/
import Mathlib.Tactic
import ModelCount.Proofs.Scratch
import ModelCount.Proofs.Slices

namespace ModelCount

/-! ## Sessions -/

/-- a decomposer and the open nodes, the innermost first; and for every component on the stack the entry of the
super-component it was split from -/
structure Session where
  decomposer : Decomposer
  levels : List Node
  origins : List EntryId

namespace Session

/-- what a search loop does with a node of its own accord -/
inductive Move where
  | setEnd (stop : ℕ)
  | next
  | resetCursor
  | changeBranch
  | markUnsat
  | times (factor : ℕ)

/-- what a search loop does with a decomposer -/
inductive Op where
  | enter (index : ℕ)
  | leave
  | findNext (values : Assignment)
  | split (values : Assignment)
  | move (move : Move)
  | clean
  | abandon
  | cacheCount (index count : ℕ)
  | refresh
  | evict

def Move.apply (node : Node) : Move → Except Fault Node
  | .setEnd stop => node.setEnd stop
  | .next => node.next
  | .resetCursor => .ok node.resetCursor
  | .changeBranch => node.changeBranch
  | .markUnsat => .ok node.markUnsat
  | .times factor => .ok (node.times factor)

def innermost (s : Session) : Except Fault (Node × List Node) :=
  match s.levels with
  | [] => .error .contract
  | node :: rest => .ok (node, rest)

def pushed (s : Session) (d : Decomposer) (node : Node) (rest : List Node) : Session :=
  let super := (s.decomposer.stack[node.superIndex]?.map Component.id).getD .none
  ⟨d, node :: rest, s.origins ++ List.replicate (d.stack.length - s.decomposer.stack.length) super⟩

def popped (s : Session) (d : Decomposer) (node : Node) : Session :=
  { s with decomposer := d, origins := s.origins.take node.base }

def step (s : Session) : Op → Except Fault Session
  | .enter index => do
    require (index < s.decomposer.stack.length) .contract
    require (index = 1 ∨ ∃ node ∈ s.levels.head?, node.base ≤ index) .contract
    return { s with levels := Node.start index s.decomposer.stack.length :: s.levels }
  | .leave => do return { s with levels := (← s.innermost).2 }
  | .findNext values => do
    let (node, rest) ← s.innermost
    let (_, d, node) ← (s.decomposer.findNext node values).result
    return s.pushed d node rest
  | .split values => do
    let (node, rest) ← s.innermost
    let (d, node) ← (s.decomposer.split node values).result
    return s.pushed d node rest
  | .move move => do
    let (node, rest) ← s.innermost
    return { s with levels := (← move.apply node) :: rest }
  | .clean => do
    let (node, _) ← s.innermost
    return s.popped (← s.decomposer.clean node) node
  | .abandon => do
    let (node, _) ← s.innermost
    let d ← s.decomposer.removePollutions node
    return s.popped (← d.clean node) node
  | .cacheCount index count => do
    require (1 ≤ index) .contract
    return { s with decomposer := ← (s.decomposer.cacheCount index count).result }
  | .refresh => .ok { s with decomposer := s.decomposer.refresh }
  | .evict => do return { s with decomposer := (← s.decomposer.evict.result).2 }

def run (s : Session) (ops : List Op) : Except Fault Session := ops.foldlM step s

/-- a decomposer that just took a formula, without open nodes -/
def start (d : Decomposer) : Session := ⟨d, [], [.none, .none]⟩

end Session

/-! ## The stack and the store -/

/-- every component above the bottom of the stack has an entry of its own that is not deletable; the first is the root,
and the father of any other is the entry of the component it was split from, which stands below it -/
structure Housed (store : Store) (stack : List Component) (origins : List EntryId) : Prop where
  bottom : ∃ p, stack[0]? = some p ∧ p.id = .none
  root : ∃ p, stack[1]? = some p ∧ p.id = .root
  held : ∀ (k : ℕ) (p : Component), 1 ≤ k → stack[k]? = some p → store.Held p.id
  distinct : (stack.map Component.id).Nodup
  length : origins.length = stack.length
  father : ∀ (k : ℕ) (p : Component), 2 ≤ k → stack[k]? = some p → ∃ j super, 1 ≤ j ∧ j < k ∧
    stack[j]? = some super ∧ origins[k]? = some super.id ∧ store.fatherOf p.id = some super.id

/-- a node is open: its super-component stands below its slice, and ids in the slice are larger than ids below it -/
structure OpenAt (ids : ℕ) (stack : List Component) (node : Node) : Prop where
  super : 1 ≤ node.superIndex
  below : node.superIndex < node.base
  base : node.base ≤ stack.length
  apart : ∃ bound ≤ ids, (∀ (k : ℕ) (p : Component), 1 ≤ k → k < node.base → stack[k]? = some p → p.id.id < bound) ∧
    ∀ (k : ℕ) (p : Component), node.base ≤ k → stack[k]? = some p → bound ≤ p.id.id

/-- components were minted for a super-component and found by a node that keeps its place -/
structure Minted (store₀ : Store) (super : Component) (node₀ : Node) (store : Store) (node : Node)
    (found : List Component) : Prop where
  sound : store.Sound
  keeps : Store.Keeps (fun _ => True) found.length store₀ store
  place : node.superIndex = node₀.superIndex ∧ node.base = node₀.base
  fresh : ∀ p ∈ found, store₀.nextId ≤ p.id.id ∧ store.Held p.id ∧ store.fatherOf p.id = some super.id
  distinct : (found.map Component.id).Nodup

def NotMissing (fault : Fault) : Prop := ∀ id, fault ≠ .noEntry id

theorem Scratch.notMissing {fault : Fault} (h : Scratch fault) : NotMissing fault := by
  intro id heq
  subst heq
  unfold Scratch at h
  simp at h

theorem OnScratch.notMissing {α : Type} {r : Except Fault α} (h : OnScratch r) : Ends NotMissing r fun _ => True :=
  h.weaken fun _ => Scratch.notMissing

variable {super part : Component} {signature : Signature} {store store' store₀ : Store} {stack found : List Component}
  {origins : List EntryId} {node node' node₀ : Node} {ids ids' bound j : ℕ} {values : Assignment} {v : Var}

/-- components minted for one on the stack have entries that are not deletable, as those below them -/
theorem held_push (h : ∀ (k : ℕ) (p : Component), 1 ≤ k → stack[k]? = some p → store.Held p.id)
    (hm : Minted store super node store' node' found) (k : ℕ) (p : Component) (hk : 1 ≤ k)
    (hp : (stack ++ found)[k]? = some p) : store'.Held p.id := by
  by_cases hkl : k < stack.length
  · rw [List.getElem?_append_left hkl] at hp
    exact hm.keeps.isHeld (h k p hk hp) True.intro
  · rw [List.getElem?_append_right (Nat.le_of_not_lt hkl)] at hp
    exact (hm.fresh p (List.mem_of_getElem? hp)).2.1

/-- what stays below a base keeps its entries, if nothing is lost that concerns them -/
theorem held_cut (h : ∀ (k : ℕ) (p : Component), 1 ≤ k → stack[k]? = some p → store.Held p.id) {base n : ℕ}
    (hold : ∀ k p, 1 ≤ k → k < base → stack[k]? = some p → p.id.id < bound)
    (hkeeps : Store.Keeps (fun i => i.id < bound) n store store') (k : ℕ) (p : Component) (hk : 1 ≤ k)
    (hp : (stack.take base)[k]? = some p) : store'.Held p.id := by
  rw [List.getElem?_take] at hp
  split_ifs at hp with hkb
  exact hkeeps.isHeld (h k p hk hp) (hold k p hk hkb hp)

namespace Housed

/-- what lasts in the store keeps the components housed -/
theorem lasts (h : Housed store stack origins) (hl : Store.Lasts store store') : Housed store' stack origins := by
  refine ⟨h.bottom, h.root, fun k p hk hp => hl.isHeld (h.held k p hk hp), h.distinct, h.length, fun k p hk hp => ?_⟩
  obtain ⟨j, super, h1, h2, h3, h4, h5⟩ := h.father k p hk hp
  exact ⟨j, super, h1, h2, h3, h4, hl.father _ _ (h.held k p (by omega) hp) (h.held j super h1 h3) h5⟩

/-- all ids on the stack were given out -/
theorem lt_nextId (h : Housed store stack origins) (hs : store.Sound) {p : Component} (hp : p ∈ stack) :
    p.id.id < store.nextId := by
  obtain ⟨k, hk⟩ := List.mem_iff_getElem?.1 hp
  cases k with
  | zero =>
    obtain ⟨q, hq, hid⟩ := h.bottom
    obtain ⟨r, hr, -⟩ := h.root
    have hone := hs.held_lt (h.held 1 r le_rfl hr)
    rw [Option.some.inj (hk.symm.trans hq), hid]
    exact Nat.zero_lt_of_lt hone
  | succ k => exact hs.held_lt (h.held (k + 1) p (Nat.le_add_left 1 k) hk)

/-- components minted for one that stands on the stack are pushed -/
theorem push (h : Housed store stack origins) (hs : store.Sound) (hj : 1 ≤ j) (hsuper : stack[j]? = some super)
    (hm : Minted store super node store' node' found) :
    Housed store' (stack ++ found) (origins ++ List.replicate found.length super.id) := by
  have hjlt : j < stack.length := (List.getElem?_eq_some_iff.1 hsuper).1
  have hlt : 1 < stack.length := by
    obtain ⟨p, hp, -⟩ := h.root
    exact (List.getElem?_eq_some_iff.1 hp).1
  have hold : ∀ k, k < stack.length → (stack ++ found)[k]? = stack[k]? := fun k hk => List.getElem?_append_left hk
  have hnew : ∀ k p, stack.length ≤ k → (stack ++ found)[k]? = some p → p ∈ found := by
    intro k p hk hp
    rw [List.getElem?_append_right hk] at hp
    exact List.mem_of_getElem? hp
  refine ⟨?_, ?_, fun k p hk hp => ?_, ?_, by simp [h.length], fun k p hk hp => ?_⟩
  · rw [hold 0 (by omega)]
    exact h.bottom
  · rw [hold 1 hlt]
    exact h.root
  · exact held_push h.held hm k p hk hp
  · rw [List.map_append]
    refine List.nodup_append.2 ⟨h.distinct, hm.distinct, fun i hi i' hi' heq => ?_⟩
    obtain ⟨p, hp, rfl⟩ := List.mem_map.1 hi
    obtain ⟨q, hq, rfl⟩ := List.mem_map.1 hi'
    have hplt := h.lt_nextId hs hp
    have hqle := (hm.fresh q hq).1
    rw [heq] at hplt
    omega
  · by_cases hkl : k < stack.length
    · rw [hold k hkl] at hp
      obtain ⟨i, a, h1, h2, h3, h4, h5⟩ := h.father k p hk hp
      refine ⟨i, a, h1, h2, by rw [hold i (by omega), h3], ?_, hm.keeps.father _ _ True.intro True.intro h5⟩
      rw [List.getElem?_append_left (by rw [h.length]; omega), h4]
    · have hkl' := Nat.le_of_not_lt hkl
      refine ⟨j, super, hj, by omega, by rw [hold j hjlt, hsuper], ?_, (hm.fresh p (hnew k p hkl' hp)).2.2⟩
      have hkf : k - stack.length < found.length := by
        have := (List.getElem?_eq_some_iff.1 hp).1
        rw [List.length_append] at this
        omega
      rw [List.getElem?_append_right (by rw [h.length]; omega), h.length, List.getElem?_replicate, if_pos hkf]

/-- the components from a base on are popped, and nothing is lost that concerns those below -/
theorem cut (h : Housed store stack origins) {base n : ℕ} (hbase : 1 < base)
    (hold : ∀ k p, 1 ≤ k → k < base → stack[k]? = some p → p.id.id < bound)
    (hk : Store.Keeps (fun i => i.id < bound) n store store') :
    Housed store' (stack.take base) (origins.take base) := by
  have htake : ∀ k p, (stack.take base)[k]? = some p → k < base ∧ stack[k]? = some p := by
    intro k p hp
    rw [List.getElem?_take] at hp
    split_ifs at hp with hkb
    exact ⟨hkb, hp⟩
  refine ⟨?_, ?_, fun k p hk1 hp => ?_, ?_, by simp [h.length], fun k p hk2 hp => ?_⟩
  · obtain ⟨p, hp, hid⟩ := h.bottom
    exact ⟨p, by rw [List.getElem?_take, if_pos (by omega), hp], hid⟩
  · obtain ⟨p, hp, hid⟩ := h.root
    exact ⟨p, by rw [List.getElem?_take, if_pos hbase, hp], hid⟩
  · exact held_cut h.held hold hk k p hk1 hp
  · exact h.distinct.sublist ((List.take_sublist _ _).map _)
  · obtain ⟨hkb, hp'⟩ := htake k p hp
    obtain ⟨i, a, h1, h2, h3, h4, h5⟩ := h.father k p hk2 hp'
    have hib : i < base := by omega
    refine ⟨i, a, h1, h2, by rw [List.getElem?_take, if_pos hib, h3], by rw [List.getElem?_take, if_pos hkb, h4], ?_⟩
    exact hk.father _ _ (hold k p (by omega) hkb hp') (hold i a h1 hib h3) h5

end Housed

namespace OpenAt

theorem at_place (h : OpenAt ids stack node) (hplace : node'.superIndex = node.superIndex ∧ node'.base = node.base) :
    OpenAt ids stack node' := by
  obtain ⟨hsuper, hbase⟩ := hplace
  refine ⟨hsuper ▸ h.super, ?_, hbase ▸ h.base, ?_⟩
  · rw [hsuper, hbase]
    exact h.below
  · rw [hbase]
    exact h.apart

/-- a node that is entered has nothing in its slice yet -/
theorem start (h : ∀ (k : ℕ) (p : Component), 1 ≤ k → stack[k]? = some p → store.Held p.id) (hs : store.Sound)
    (hj : 1 ≤ j) (hlt : j < stack.length) : OpenAt store.nextId stack (.start j stack.length) := by
  refine ⟨hj, hlt, le_rfl, store.nextId, le_rfl, fun k p hk _ hp => hs.held_lt (h k p hk hp), fun k p hk hp => ?_⟩
  exact absurd (List.getElem?_eq_some_iff.1 hp).1 (Nat.not_lt.2 hk)

theorem push (h : OpenAt ids stack node) (hids : ids ≤ ids') (hfound : ∀ p ∈ found, ids ≤ p.id.id) :
    OpenAt ids' (stack ++ found) node := by
  obtain ⟨bound, hb, hbelow, habove⟩ := h.apart
  have hbase := h.base
  refine ⟨h.super, h.below, by rw [List.length_append]; omega, bound, hb.trans hids, fun k p hk hkb hp => ?_,
    fun k p hkb hp => ?_⟩
  · rw [List.getElem?_append_left (by omega)] at hp
    exact hbelow k p hk hkb hp
  · by_cases hkl : k < stack.length
    · rw [List.getElem?_append_left hkl] at hp
      exact habove k p hkb hp
    · rw [List.getElem?_append_right (Nat.le_of_not_lt hkl)] at hp
      exact hb.trans (hfound p (List.mem_of_getElem? hp))

theorem cut (h : OpenAt ids stack node) {base : ℕ} (hbase : node.base ≤ base) : OpenAt ids (stack.take base) node := by
  have hle := h.base
  have htake : ∀ (k : ℕ) (p : Component), (stack.take base)[k]? = some p → stack[k]? = some p := by
    intro k p hp
    rw [List.getElem?_take] at hp
    split_ifs at hp
    exact hp
  obtain ⟨bound, hb, hbelow, habove⟩ := h.apart
  exact ⟨h.super, h.below, by rw [List.length_take]; omega, bound, hb,
    fun k p hk hkb hp => hbelow k p hk hkb (htake k p hp), fun k p hkb hp => habove k p hkb (htake k p hp)⟩

/-- the super-component of an open node -/
theorem superAt (h : OpenAt ids stack node) : ∃ super, stack[node.superIndex]? = some super :=
  ⟨_, List.getElem?_eq_getElem (Nat.lt_of_lt_of_le h.below h.base)⟩

end OpenAt

/-! ## Splitting -/

namespace Minted

theorem nil (hs : store.Sound) (super : Component) (node : Node) : Minted store super node store node [] :=
  ⟨hs, Store.Keeps.refl _ _, ⟨rfl, rfl⟩, by simp, List.nodup_nil⟩

theorem at_place (h : Minted store₀ super node₀ store node found)
    (hplace : node'.superIndex = node.superIndex ∧ node'.base = node.base) :
    Minted store₀ super node₀ store node' found :=
  ⟨h.sound, h.keeps, ⟨hplace.1.trans h.place.1, hplace.2.trans h.place.2⟩, h.fresh, h.distinct⟩

theorem perm (h : Minted store₀ super node₀ store node found) {found' : List Component} (hp : found'.Perm found) :
    Minted store₀ super node₀ store node found' :=
  ⟨h.sound, hp.length_eq ▸ h.keeps, h.place, fun p hm => h.fresh p (hp.mem_iff.1 hm),
    (hp.map Component.id).nodup_iff.2 h.distinct⟩

/-- a look-up touches neither entries nor the place of the node -/
theorem consult (h : Minted store₀ super node₀ store node found) (caching : Bool) (signature : Signature) :
    Ends NotMissing (Decomposer.consult caching store node signature) fun r =>
      Minted store₀ super node₀ r.2.1 r.2.2 found := by
  cases caching with
  | false => exact h
  | true =>
    have hcounted : ∀ store', store'.entries = store.entries → store'.nextId = store.nextId →
        store'.entryBytes = store.entryBytes → store'.heads = store.heads → store'.mask = store.mask →
        Minted store₀ super node₀ store' node found := by
      intro store' he hn hb hh hm
      have hkeeps := (Store.relinked_of_same he hn hb).keeps fun _ => True
      refine ⟨h.sound.of_same he hn hb hh hm, h.keeps.trans hkeeps, h.place, fun p hp => ?_, h.distinct⟩
      obtain ⟨h1, h2, h3⟩ := h.fresh p hp
      exact ⟨h1, hkeeps.isHeld h2 True.intro, hkeeps.father _ _ True.intro True.intro h3⟩
    show Ends _ (store.lookup node signature) _
    rcases Store.lookup_spec h.sound.chained node signature with ⟨count, i, e, -, -, -, hrun⟩ | hrun
    · rw [hrun]
      exact (hcounted { store with lookups := store.lookups + 1, hits := store.hits + 1 } rfl rfl rfl rfl rfl).at_place
        ⟨Node.superIndex_setActive, Node.base_setActive⟩
    · rw [hrun]
      exact hcounted _ rfl rfl rfl rfl rfl

/-- a component that is minted for the super-component is one more -/
theorem mint (h : Minted store₀ super node₀ store node found) (hsuper : store₀.Held super.id) (signature : Signature)
    (part : Component) :
    Ends NotMissing (store.mint signature super.id) fun t =>
      Minted store₀ super node₀ t.2 node (part.withId t.1 :: found) := by
  have hlive := (h.keeps.isHeld hsuper True.intro).has
  refine ((h.sound.mint_spec hlive signature).weaken ?_).mono ?_
  · intro fault hboth id heq
    rw [hboth.1] at heq
    cases heq
  · intro r hr
    rcases r with ⟨id, store'⟩
    obtain ⟨hid, hsound, hkeeps, hkey, hfather⟩ := hr
    simp only at hid hsound hkeeps hkey hfather ⊢
    refine ⟨hsound, h.keeps.trans hkeeps, h.place, fun p hp => ?_, ?_⟩
    · rcases List.mem_cons.1 hp with rfl | hp
      · refine ⟨?_, ⟨signature, hkey⟩, hfather⟩
        show store₀.nextId ≤ id.id
        rw [hid, h.keeps.nextId]
        exact Nat.le_add_right _ _
      · obtain ⟨h1, h2, h3⟩ := h.fresh p hp
        exact ⟨h1, hkeeps.isHeld h2 True.intro, hkeeps.father _ _ True.intro True.intro h3⟩
    · refine List.nodup_cons.2 ⟨fun hmem => ?_, h.distinct⟩
      obtain ⟨p, hp, heq⟩ := List.mem_map.1 hmem
      have hplt := h.sound.held_lt (h.fresh p hp).2.1
      have hpid : p.id = ⟨store.nextId⟩ := heq.trans hid
      rw [hpid] at hplt
      exact Nat.lt_irrefl _ hplt

end Minted

namespace Decomposer

variable {d : Decomposer} {s : Sweep}

theorem settlePart_minted (h : Minted store₀ super node₀ s.store s.node s.found) (hsuper : store₀.Held super.id)
    (caching : Bool) :
    Ends NotMissing (settlePart caching super s).result fun s' =>
      Minted store₀ super node₀ s'.store s'.node s'.found := by
  simp only [settlePart, Traced.result_bind, Traced.result_quiet]
  refine (Marks.claim_onScratch super).notMissing.bind fun r _ => ?_
  rcases r with ⟨part, signature, marks⟩
  refine (h.consult caching signature).bind fun r hr => ?_
  rcases r with ⟨hit, store, node⟩
  cases hit with
  | true => exact hr
  | false =>
    simp only [Bool.false_eq_true, if_false, Traced.result_bind, Traced.result_quiet, Traced.result_emit]
    exact (hr.mint hsuper signature part).bind fun t ht => ht

theorem sweepVar_minted (h : Minted store₀ super node₀ s.store s.node s.found) (hsuper : store₀.Held super.id)
    (caching : Bool) (v : Var) :
    Ends NotMissing (sweepVar caching super values s v).result fun s' =>
      Minted store₀ super node₀ s'.store s'.node s'.found := by
  obtain ⟨explorer, store, node, found, hits⟩ := s
  simp only [sweepVar, Traced.result_bind, Traced.result_lift]
  refine (Explorer.isCandidate_onScratch v).notMissing.bind fun candidate _ => ?_
  split_ifs
  · simp only [Traced.result_bind]
    refine ((Explorer.explore_place node v).weaken fun _ => Scratch.notMissing).bind fun r hplace => ?_
    rcases r with ⟨several, explorer', node'⟩
    have hnode : Minted store₀ super node₀ store node' found := h.at_place hplace
    simp only
    split_ifs
    · exact settlePart_minted (s := ⟨explorer', store, node', found, hits⟩) hnode hsuper caching
    · exact hnode
  · exact h

theorem setEnd_place (stop : ℕ) (node : Node) :
    Ends NotMissing (node.setEnd stop) fun node' => node'.superIndex = node.superIndex ∧ node'.base = node.base := by
  unfold Node.setEnd
  split_ifs
  · exact ⟨rfl, rfl⟩
  · exact Scratch.notMissing (by decide)

/-- **A split** pushes components minted for the super-component, whatever the formula and the values are. -/
theorem split_minted (hs : d.store.Sound) (hplace : d.stack[node.superIndex]? = some super)
    (hsuper : d.store.Held super.id) :
    Ends NotMissing (d.split node values).result fun r => ∃ found, r.1.stack = d.stack ++ found ∧
      Minted d.store super node r.1.store r.2 found := by
  simp only [split, Traced.result_bind, Traced.result_lift, Traced.result_emit]
  apply Ends.bind_of_eq (held_of_getElem? hplace)
  refine (Explorer.prepare_onScratch node.superIndex super).notMissing.bind fun explorer _ => ?_
  have hsweep : Ends NotMissing
      (super.vars.foldlM (sweepVar d.config.caching super values) ⟨explorer, d.store, node, [], 0⟩).result
      fun s => Minted d.store super node s.store s.node s.found := by
    rw [Traced.result_foldlM]
    exact Ends.foldlM_state _ (Minted.nil hs super node) fun v _ s h => sweepVar_minted h hsuper _ v
  refine hsweep.bind fun s h => ?_
  rw [Except.ok_bind]
  refine (setEnd_place _ s.node).bind fun node' hplace' => ?_
  apply Ends.bind_of_eq (sortRange_above _ d.stack s.found.reverse rfl)
  exact ⟨_, rfl, (h.at_place hplace').perm ((sortDescending_perm _).trans s.found.reverse_perm)⟩

theorem findNext_minted (hs : d.store.Sound) (hplace : d.stack[node.superIndex]? = some super)
    (hsuper : d.store.Held super.id) :
    Ends NotMissing (d.findNext node values).result fun r => ∃ found, r.2.1.stack = d.stack ++ found ∧
      Minted d.store super node r.2.1.store r.2.2 found := by
  have henum : Ends NotMissing (d.enumerate node values).result fun r => ∃ found, r.1.stack = d.stack ++ found ∧
      Minted d.store super node r.1.store r.2 found := by
    unfold enumerate
    split_ifs
    · exact split_minted hs hplace hsuper
    · exact ⟨[], (List.append_nil _).symm, Minted.nil hs super node⟩
  simp only [findNext, Traced.result_bind, Traced.result_lift]
  refine (require_onScratch _).notMissing.bind fun _ _ => henum.bind fun r hr => ?_
  rcases r with ⟨d', node'⟩
  obtain ⟨found, hstack, hm⟩ := hr
  simp only
  split_ifs
  · exact ⟨found, hstack, hm⟩
  · exact ⟨found, hstack, hm⟩
  · exact ⟨found, hstack, hm.at_place ⟨Node.superIndex_setActive, Node.base_setActive⟩⟩

end Decomposer

/-! ## Steps and runs -/

namespace Session

variable {s s' : Session} {rest : List Node} {ops : List Op}

/-- the store is sound, the components are housed, and the nodes are open, one inside the other -/
structure Sheltered (s : Session) : Prop where
  sound : s.decomposer.store.Sound
  housed : Housed s.decomposer.store s.decomposer.stack s.origins
  levels : ∀ node ∈ s.levels, OpenAt s.decomposer.store.nextId s.decomposer.stack node
  nested : s.levels.Pairwise fun inner outer => outer.base ≤ inner.base

/-- the innermost node with its super-component, and a bound between the ids below its slice and those in it -/
structure Sliced (d : Decomposer) (node : Node) (super : Component) (bound : ℕ) : Prop where
  superAt : d.stack[node.superIndex]? = some super
  held : d.store.Held super.id
  index : 1 ≤ node.superIndex
  two : 2 ≤ bound
  base : node.base = (d.stack.take node.base).length
  below : ∀ (k : ℕ) (p : Component), 1 ≤ k → k < node.base → d.stack[k]? = some p → p.id.id < bound
  above : ∀ p ∈ d.stack.drop node.base, bound ≤ p.id.id

theorem move_place (move : Move) (node : Node) :
    Ends NotMissing (move.apply node) fun node' => node'.superIndex = node.superIndex ∧ node'.base = node.base := by
  cases move with
  | setEnd stop => exact Decomposer.setEnd_place stop node
  | next =>
    show Ends NotMissing node.next _
    unfold Node.next
    split_ifs
    · exact ⟨rfl, rfl⟩
    · exact Scratch.notMissing (by decide)
  | resetCursor => exact ⟨rfl, rfl⟩
  | changeBranch =>
    show Ends NotMissing node.changeBranch _
    unfold Node.changeBranch
    split_ifs
    · exact fun id heq => by cases heq
    · exact ⟨rfl, rfl⟩
  | markUnsat => exact ⟨Node.superIndex_setActive, Node.base_setActive⟩
  | times factor => exact ⟨Node.superIndex_setActive, Node.base_setActive⟩

theorem innermost_spec (s : Session) :
    Ends NotMissing s.innermost fun r => s.levels = r.1 :: r.2 := by
  unfold innermost
  split
  · exact Scratch.notMissing (by decide)
  · next heq => exact heq

/-- the store is sound, every component above the bottom of the stack has an entry that is not deletable, and the nodes
are open, one inside the other -/
structure Lodged (d : Decomposer) (levels : List Node) : Prop where
  sound : d.store.Sound
  held : ∀ (k : ℕ) (p : Component), 1 ≤ k → d.stack[k]? = some p → d.store.Held p.id
  opened : ∀ node ∈ levels, OpenAt d.store.nextId d.stack node
  nested : levels.Pairwise fun inner outer => outer.base ≤ inner.base

theorem Sheltered.lodged (h : Sheltered s) : Lodged s.decomposer s.levels :=
  ⟨h.sound, h.housed.held, h.levels, h.nested⟩

/-- what a step can do: the store changes and nothing is lost that concerns the components on the stack, the innermost
node moves, a node is entered or left, components of the innermost node are pushed, or they are popped -/
inductive Moves (s : Session) : Session → Prop
  | lasts {d : Decomposer} : d.store.Sound → Store.Lasts s.decomposer.store d.store →
      d.store.nextId = s.decomposer.store.nextId → d.stack = s.decomposer.stack → Moves s { s with decomposer := d }
  | move {node node' : Node} {rest : List Node} : s.levels = node :: rest →
      node'.superIndex = node.superIndex ∧ node'.base = node.base → Moves s { s with levels := node' :: rest }
  | enter {index : ℕ} : 1 ≤ index → index < s.decomposer.stack.length →
      Moves s { s with levels := Node.start index s.decomposer.stack.length :: s.levels }
  | leave {node : Node} {rest : List Node} : s.levels = node :: rest → Moves s { s with levels := rest }
  | push {node node' : Node} {rest : List Node} {super : Component} {d : Decomposer} {found : List Component} :
      s.levels = node :: rest → s.decomposer.stack[node.superIndex]? = some super →
      d.stack = s.decomposer.stack ++ found → Minted s.decomposer.store super node d.store node' found →
      Moves s (s.pushed d node' rest)
  | pop {node : Node} {rest : List Node} {super : Component} {bound : ℕ} {d : Decomposer} : s.levels = node :: rest →
      Sliced s.decomposer node super bound → d.store.Sound → d.stack = s.decomposer.stack.take node.base →
      Store.Keeps (fun i => i.id < bound) 0 s.decomposer.store d.store → Moves s (s.popped d node)

namespace Lodged

variable {d : Decomposer} {levels : List Node}

theorem enter (h : Lodged d levels) {index : ℕ} (hindex : 1 ≤ index) (hlt : index < d.stack.length) :
    Lodged d (Node.start index d.stack.length :: levels) := by
  refine ⟨h.sound, h.held, fun a ha => ?_, List.pairwise_cons.2 ⟨fun a ha => (h.opened a ha).base, h.nested⟩⟩
  rcases List.mem_cons.1 ha with rfl | ha
  · exact OpenAt.start h.held h.sound hindex hlt
  · exact h.opened a ha

/-- the innermost node moves in its place -/
theorem move (h : Lodged d (node :: rest)) (hplace : node'.superIndex = node.superIndex ∧ node'.base = node.base) :
    Lodged d (node' :: rest) := by
  have hnested := List.pairwise_cons.1 h.nested
  refine ⟨h.sound, h.held, fun a ha => ?_, List.pairwise_cons.2 ⟨fun a ha => ?_, hnested.2⟩⟩
  · rcases List.mem_cons.1 ha with rfl | ha
    · exact (h.opened node (by simp)).at_place hplace
    · exact h.opened a (List.mem_cons_of_mem _ ha)
  · rw [hplace.2]
    exact hnested.1 a ha

theorem sliced (h : Lodged d (node :: rest)) : ∃ super bound, Sliced d node super bound := by
  have hopen := h.opened node (by simp)
  obtain ⟨super, hsuper⟩ := hopen.superAt
  obtain ⟨bound, -, hbelow, habove⟩ := hopen.apart
  refine ⟨super, bound, hsuper, h.held _ _ hopen.super hsuper, hopen.super, ?_, ?_, hbelow, ?_⟩
  · -- the component at index 1 has an entry, whose id is at least 1
    have hone : 1 < node.base := Nat.lt_of_le_of_lt hopen.super hopen.below
    obtain ⟨p, hp⟩ : ∃ p, d.stack[1]? = some p := ⟨_, List.getElem?_eq_getElem (Nat.lt_of_lt_of_le hone hopen.base)⟩
    obtain ⟨signature, hkey⟩ := h.held 1 p le_rfl hp
    obtain ⟨e, he, -⟩ := Store.get?_of_key hkey
    have hid := (h.sound.range _ e he).1
    have := hbelow 1 p le_rfl hone hp
    omega
  · rw [List.length_take, Nat.min_eq_left hopen.base]
  · intro p hp
    obtain ⟨k, hk⟩ := List.mem_iff_getElem?.1 hp
    rw [List.getElem?_drop] at hk
    exact habove _ p (Nat.le_add_right _ _) hk

/-- attaching a count to a component on the stack -/
theorem cacheCount_lasts (h : Lodged d levels) {index : ℕ} (hindex : 1 ≤ index) (count : ℕ) :
    Ends NotMissing (d.cacheCount index count).result fun d' =>
      d'.store.Sound ∧ Store.Lasts d.store d'.store ∧ d'.store.nextId = d.store.nextId ∧ d'.stack = d.stack := by
  unfold Decomposer.cacheCount
  split_ifs
  · simp only [Traced.result_bind, Traced.result_lift]
    cases hplace : d.stack[index]? with
    | none =>
      rw [Decomposer.component, hplace]
      exact fun id heq => by cases heq
    | some comp =>
      obtain ⟨signature, hkey⟩ := h.held index comp hindex hplace
      obtain ⟨store, hrun, hsound, hnext, hlasts, -⟩ := Store.attach_exact h.sound hkey count
      rw [Decomposer.component_eq hplace, Except.ok_bind, hrun]
      exact ⟨hsound, hlasts, hnext, rfl⟩
  · exact ⟨h.sound, Store.Lasts.refl _, rfl, rfl⟩

end Lodged

/-- **Step.** No operation misses an entry, and each does one of a few things. -/
theorem step_cases (h : Lodged s.decomposer s.levels) (op : Op) : Ends NotMissing (s.step op) (Moves s) := by
  cases op with
  | enter index =>
    refine ((require_holds _).weaken fun _ => Scratch.notMissing).bind fun _ hlt => ?_
    refine ((require_holds _).weaken fun _ => Scratch.notMissing).bind fun _ hslice => .enter ?_ hlt
    rcases hslice with rfl | ⟨node, hnode, hbase⟩
    · exact le_rfl
    · have hopen := h.opened node (List.mem_of_mem_head? hnode)
      have := hopen.super
      have := hopen.below
      omega
  | leave => exact (innermost_spec s).bind fun r hr => .leave hr
  | findNext values =>
    refine (innermost_spec s).bind fun r hlevels => ?_
    rcases r with ⟨node, rest⟩
    obtain ⟨super, bound, hsliced⟩ := (hlevels ▸ h).sliced
    refine (Decomposer.findNext_minted h.sound hsliced.superAt hsliced.held).bind fun r hr => ?_
    rcases r with ⟨more, d, node'⟩
    obtain ⟨found, hstack, hm⟩ := hr
    exact .push hlevels hsliced.superAt hstack hm
  | split values =>
    refine (innermost_spec s).bind fun r hlevels => ?_
    rcases r with ⟨node, rest⟩
    obtain ⟨super, bound, hsliced⟩ := (hlevels ▸ h).sliced
    refine (Decomposer.split_minted h.sound hsliced.superAt hsliced.held).bind fun r hr => ?_
    rcases r with ⟨d, node'⟩
    obtain ⟨found, hstack, hm⟩ := hr
    exact .push hlevels hsliced.superAt hstack hm
  | move move =>
    refine (innermost_spec s).bind fun r hlevels => ?_
    rcases r with ⟨node, rest⟩
    exact (move_place move node).bind fun node' hplace => .move hlevels hplace
  | clean =>
    refine (innermost_spec s).bind fun r hlevels => ?_
    rcases r with ⟨node, rest⟩
    obtain ⟨super, bound, hsliced⟩ := (hlevels ▸ h).sliced
    obtain ⟨store, hrun, hsound, hkeeps⟩ :=
      Decomposer.clean_keeps h.sound (List.take_append_drop _ _).symm hsliced.base hsliced.above
    exact Ends.bind_of_eq hrun (.pop hlevels hsliced hsound rfl hkeeps)
  | abandon =>
    refine (innermost_spec s).bind fun r hlevels => ?_
    rcases r with ⟨node, rest⟩
    obtain ⟨super, bound, hsliced⟩ := (hlevels ▸ h).sliced
    obtain ⟨store, hrun, hsound, hkeeps⟩ := Decomposer.removePollutions_keeps h.sound (List.take_append_drop _ _).symm
      hsliced.base hsliced.above hsliced.two (Nat.ne_of_gt hsliced.index) (Decomposer.held_of_getElem? hsliced.superAt)
      hsliced.held.has
    obtain ⟨store', hrun', hsound', hkeeps'⟩ :=
      Decomposer.clean_keeps (d := { s.decomposer with store := store }) hsound
      (List.take_append_drop _ _).symm hsliced.base hsliced.above
    exact Ends.bind_of_eq hrun (Ends.bind_of_eq hrun' (.pop hlevels hsliced hsound' rfl (hkeeps.trans hkeeps')))
  | cacheCount index count =>
    refine ((require_holds _).weaken fun _ => Scratch.notMissing).bind fun _ hindex => ?_
    exact (h.cacheCount_lasts hindex count).bind fun d hd => .lasts hd.1 hd.2.1 hd.2.2.1 hd.2.2.2
  | refresh => exact .lasts h.sound.refresh ⟨fun _ _ hx => hx, fun _ _ _ _ hx => hx⟩ rfl rfl
  | evict =>
    obtain ⟨r, hrun, hsound, hkeeps⟩ := Store.evict_spec h.sound s.decomposer.config.budget
    exact Ends.bind_of_eq (Decomposer.evict_eq hrun) (.lasts hsound hkeeps.lasts hkeeps.nextId rfl)

/-- whatever a step does, the components keep their entries and the nodes stay open -/
theorem Moves.lodged (h : Lodged s.decomposer s.levels) (hm : Moves s s') : Lodged s'.decomposer s'.levels := by
  cases hm with
  | @lasts d hs hl hn hstack =>
    refine ⟨hs, fun k p hk hp => hl.isHeld (h.held k p hk (hstack ▸ hp)), fun node hnode => ?_, h.nested⟩
    rw [hn, hstack]
    exact h.opened node hnode
  | move hlevels hplace => exact (hlevels ▸ h).move hplace
  | enter hindex hlt => exact h.enter hindex hlt
  | @leave node rest hlevels =>
    rw [hlevels] at h
    exact ⟨h.sound, h.held, fun a ha => h.opened a (List.mem_cons_of_mem _ ha), (List.pairwise_cons.1 h.nested).2⟩
  | @push node node' rest super d found hlevels hsuper hstack hm =>
    have hmoved := (hlevels ▸ h).move hm.place
    have hids : s.decomposer.store.nextId ≤ d.store.nextId := by
      rw [hm.keeps.nextId]
      exact Nat.le_add_right _ _
    refine ⟨hm.sound, fun k p hk hp => ?_, fun a ha => ?_, hmoved.nested⟩
    · exact held_push h.held hm k p hk (hstack ▸ hp)
    · show OpenAt d.store.nextId d.stack a
      rw [hstack]
      exact (hmoved.opened a ha).push hids fun p hp => (hm.fresh p hp).1
  | @pop node rest super bound d hlevels hsliced hs hstack hk =>
    have hnested := h.nested
    rw [hlevels, List.pairwise_cons] at hnested
    refine ⟨hs, fun k p hk1 hp => held_cut h.held hsliced.below hk k p hk1 (hstack ▸ hp), fun a ha => ?_, h.nested⟩
    show OpenAt d.store.nextId d.stack a
    rw [hstack, hk.nextId]
    refine (h.opened a ha).cut ?_
    have ha' : a ∈ node :: rest := hlevels ▸ ha
    rcases List.mem_cons.1 ha' with rfl | ha'
    · exact le_rfl
    · exact hnested.1 a ha'

/-- whatever a step does, the components stay housed -/
theorem Moves.sheltered (h : Sheltered s) (hm : Moves s s') : Sheltered s' := by
  have hlodged := hm.lodged h.lodged
  refine ⟨hlodged.sound, ?_, hlodged.opened, hlodged.nested⟩
  cases hm with
  | @lasts d hs hl hn hstack =>
    show Housed d.store d.stack s.origins
    rw [hstack]
    exact h.housed.lasts hl
  | move | enter | leave => exact h.housed
  | @push node node' rest super d found hlevels hsuper hstack hm =>
    have hopen := h.levels node (by rw [hlevels]; simp)
    have horigins : (s.pushed d node' rest).origins = s.origins ++ List.replicate found.length super.id := by
      unfold Session.pushed
      simp only [hm.place.1, hsuper, Option.map_some, Option.getD_some, hstack, List.length_append,
        Nat.add_sub_cancel_left]
    show Housed d.store d.stack _
    rw [horigins, hstack]
    exact h.housed.push h.sound hopen.super hsuper hm
  | @pop node rest super bound d hlevels hsliced hs hstack hk =>
    have hopen := h.levels node (by rw [hlevels]; simp)
    show Housed d.store d.stack _
    rw [hstack]
    exact h.housed.cut (Nat.lt_of_le_of_lt hopen.super hopen.below) hsliced.below hk

/-- after a formula was taken only the root is on the stack -/
theorem sheltered_start {f : Formula} {d₀ d : Decomposer} (hload : (d₀.load f).result = .ok d) :
    Sheltered (start d) := by
  have hone : ∃ root : Component, root.id = .root ∧ d.stack = [.empty, root] ∧
      ∃ signature, d.store = d₀.store.plant signature := by
    cases hload
    exact ⟨(Component.whole f.maxVar f.maxClause).withId .root, rfl, rfl, _, rfl⟩
  obtain ⟨root, hid, hstack, signature, hstore⟩ := hone
  have hindex : ∀ (k : ℕ) (p : Component), 1 ≤ k → d.stack[k]? = some p → k = 1 ∧ p = root := by
    intro k p hk hp
    rw [hstack] at hp
    have hlt := (List.getElem?_eq_some_iff.1 hp).1
    have hone : k = 1 := by
      simp only [List.length_cons, List.length_nil] at hlt
      omega
    subst hone
    exact ⟨rfl, (Option.some.inj hp).symm⟩
  refine ⟨?_, ⟨⟨.empty, ?_, rfl⟩, ⟨root, ?_, hid⟩, fun k p hk hp => ?_, ?_, ?_, fun k p hk hp => ?_⟩, by simp [start],
    List.Pairwise.nil⟩
  · show d.store.Sound
    rw [hstore]
    exact Store.sound_plant _ _
  · show d.stack[0]? = some .empty
    rw [hstack]
    rfl
  · show d.stack[1]? = some root
    rw [hstack]
    rfl
  · obtain ⟨-, rfl⟩ := hindex k p hk hp
    rw [hid, start, hstore]
    exact ⟨_, Store.key_eq (Store.get?_plant.trans (if_pos rfl))⟩
  · show (d.stack.map Component.id).Nodup
    rw [hstack, List.map_cons, List.map_cons, hid]
    decide
  · show ([.none, .none] : List EntryId).length = d.stack.length
    rw [hstack]
    rfl
  · obtain ⟨hone, -⟩ := hindex k p (by omega) hp
    omega

/-- **Step.** No operation misses an entry, and the components stay housed. -/
theorem step_sheltered (h : Sheltered s) (op : Op) : Ends NotMissing (s.step op) Sheltered :=
  (step_cases h.lodged op).mono fun _ hm => hm.sheltered h

/-- **Run.** -/
theorem run_sheltered (h : Sheltered s) (ops : List Op) : Ends NotMissing (s.run ops) Sheltered :=
  Ends.foldlM_state Sheltered h fun op _ _ h => step_sheltered h op

/-- **Components keep their entries.** After any operations that meet no fault, from the taking of a formula on, every
component above the bottom of the stack has a live entry that is not deletable, no two components share an id, and the
father of the entry is that of the super-component it was split from, unless it is the root. No operation that follows
misses an entry. -/
theorem run_housed {f : Formula} {d₀ d : Decomposer} (hload : (d₀.load f).result = .ok d)
    (hrun : (start d).run ops = .ok s) :
    (∀ (k : ℕ) (p : Component), 1 ≤ k → s.decomposer.stack[k]? = some p →
      ∃ e, s.decomposer.store.get? p.id = some e ∧ e.deletable = false ∧ (2 ≤ k → s.origins[k]? = some e.father)) ∧
    (s.decomposer.stack.map Component.id).Nodup ∧ ∀ op id, s.step op ≠ .error (.noEntry id) := by
  have h := (run_sheltered (sheltered_start hload) ops).get hrun
  refine ⟨fun k p hk hp => ?_, h.housed.distinct, fun op id heq => ?_⟩
  · obtain ⟨signature, hkey⟩ := h.housed.held k p hk hp
    obtain ⟨e, he, -, hflag⟩ := Store.get?_of_key hkey
    refine ⟨e, he, hflag, fun hk2 => ?_⟩
    obtain ⟨j, super, -, -, -, horigin, hfather⟩ := h.housed.father k p hk2 hp
    rw [Store.fatherOf_eq he] at hfather
    rw [horigin, Option.some.inj hfather]
  · have hstep := step_sheltered h op
    rw [heq] at hstep
    exact hstep id rfl

/-- the root splits into the classes of 3 to 7 and of 1 and 2; the first is split where 5 is true, left, and split again
after the entries of its parts were evicted -/
def resplit : List Op :=
  let values := ((Assignment.empty 7).assign (Lit.ofInt 5)).toOption.getD default
  [.enter 1, .findNext (.empty 7), .enter 2, .findNext values, .cacheCount 4 3, .clean, .evict, .findNext values, .evict]

theorem run_housed_resplit : ∃ f d₀ d s, Formula.ofClauses 7 [[1, 2], [3, 4], [4, 5], [5, 6], [6, 7]] = .ok f ∧
    Decomposer.new ⟨true, 0, 0⟩ = .ok d₀ ∧ (d₀.load f).result = .ok d ∧ (start d).run resplit = .ok s ∧
    s.decomposer.stack.map Component.id = [⟨0⟩, ⟨1⟩, ⟨3⟩, ⟨2⟩, ⟨6⟩, ⟨7⟩] ∧
    s.origins = [⟨0⟩, ⟨0⟩, ⟨1⟩, ⟨1⟩, ⟨3⟩, ⟨3⟩] ∧
    (∀ (k : ℕ) (p : Component), 1 ≤ k → s.decomposer.stack[k]? = some p →
      ∃ e, s.decomposer.store.get? p.id = some e ∧ e.deletable = false ∧ (2 ≤ k → s.origins[k]? = some e.father)) ∧
    (s.decomposer.stack.map Component.id).Nodup ∧ ∀ op id, s.step op ≠ .error (.noEntry id) := by
  obtain ⟨f, hf, hview⟩ : ∃ f, Formula.ofClauses 7 [[1, 2], [3, 4], [4, 5], [5, 6], [6, 7]] = .ok f ∧
      (do (start (← ((← Decomposer.new ⟨true, 0, 0⟩).load f).result)).run resplit : Except Fault Session).toOption.map
        (fun s : Session => (s.decomposer.stack.map Component.id, s.origins)) =
        some ([⟨0⟩, ⟨1⟩, ⟨3⟩, ⟨2⟩, ⟨6⟩, ⟨7⟩], [⟨0⟩, ⟨0⟩, ⟨1⟩, ⟨1⟩, ⟨3⟩, ⟨3⟩]) := ⟨_, rfl, by cbv⟩
  obtain ⟨d₀, hnew⟩ : ∃ d₀, Decomposer.new ⟨true, 0, 0⟩ = .ok d₀ := ⟨_, rfl⟩
  obtain ⟨d, hload⟩ : ∃ d, (d₀.load f).result = .ok d := ⟨_, rfl⟩
  rw [hnew, Except.ok_bind, hload, Except.ok_bind] at hview
  cases hrun : (start d).run resplit with
  | error fault =>
    rw [hrun] at hview
    cases hview
  | ok s =>
    rw [hrun] at hview
    have hpair := Option.some.inj hview
    exact ⟨f, d₀, d, s, hf, hnew, hload, hrun, congrArg Prod.fst hpair, congrArg Prod.snd hpair, run_housed hload hrun⟩

end Session

end ModelCount
