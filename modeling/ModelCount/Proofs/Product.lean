/-
The product law of a split.

At a valid node, what is left of the formula on the claimed candidates has as many models as the branch has counted
times those of the parts found (`Factored`). A free variable that is alone contributes the factor 2, a part that is
looked up its exact count, and any other part is left to whoever solves it; the classes are independent, so the
numbers multiply. In the end all candidates are claimed (`split_factored`).
-/
import Mathlib.Tactic
import ModelCount.Proofs.Branch
import ModelCount.Proofs.Exact
import ModelCount.Proofs.Key
import ModelCount.Proofs.Split

namespace ModelCount

open Formula Explorer

/-- the set is closed, and what is left of the formula on it has `m` models -/
def Accounts (f : Formula) (values : Assignment) (C : Var → Prop) (m : ℕ) : Prop :=
  ∀ K : Finset Var, (∀ w, w ∈ K ↔ C w) → Closed values f.clauses K ∧ f.modelsOn values K = m

variable {f : Formula} {cls : List (List Lit)} {values : Assignment} {comp part : Component} {v : Var}
  {C : Var → Prop} {signature : Signature}

theorem Accounts.empty : Accounts f values (fun _ => False) 1 := by
  intro K hK
  obtain rfl : K = ∅ := Finset.eq_empty_of_forall_notMem fun w => (hK w).1
  refine ⟨Closed.empty, ?_⟩
  calc f.modelsOn values ∅
      = numModels ∅ [] := by rw [modelsOn, residual_empty]
    _ = 2 ^ (∅ : Finset Var).card := numModels_nil
    _ = 1 := by rw [Finset.card_empty, pow_zero]

/-- **One class more.** Classes are independent, so the numbers of models multiply. -/
theorem Accounts.add (hs : Setting f cls values comp) (hnode : ValidNode f values comp)
    (hun : Unclaimed f values comp C v) {m : ℕ} (h : Accounts f values C m) {L : Finset Var}
    (hL : ∀ w, w ∈ L ↔ f.Connected values comp v w) :
    Accounts f values (withClass f values comp C v) (m * f.modelsOn values L) := by
  classical
  intro K hK
  have hmem : ∀ w, w ∈ K.filter C ↔ C w := by
    intro w
    rw [Finset.mem_filter, hK]
    exact ⟨And.right, fun hw => ⟨Or.inl hw, hw⟩⟩
  obtain ⟨hclosed, hcount⟩ := h (K.filter C) hmem
  have hclosedL := hnode.closed_class hs hun.candidate hL
  have hdisjoint : Disjoint (K.filter C) L := by
    rw [Finset.disjoint_left]
    intro w hw hwL
    exact hun.disjoint w ((hL w).1 hwL) ((hmem w).1 hw)
  have hunion : K = K.filter C ∪ L := by
    ext w
    rw [Finset.mem_union, hK, hmem, hL]
    rfl
  refine ⟨hunion ▸ hclosed.union hclosedL, ?_⟩
  calc f.modelsOn values K
      = f.modelsOn values (K.filter C ∪ L) := by rw [← hunion]
    _ = f.modelsOn values (K.filter C) * f.modelsOn values L :=
        numModels_residual_union hs.reads hclosed hclosedL hdisjoint
    _ = m * f.modelsOn values L := by rw [hcount]

/-- nothing is left on a free variable that is alone -/
theorem modelsOn_singleton (hs : Setting f cls values comp) (hnode : ValidNode f values comp)
    (hv : Candidate values comp v) (hone : ∀ w, f.Connected values comp v w → w = v) : f.modelsOn values {v} = 2 := by
  refine numModels_residual_singleton hs.reads (hnode.closed_class hs hv fun w => ?_) hnode.propagated
  rw [Finset.mem_singleton]
  exact ⟨fun e => e ▸ Relation.ReflTransGen.refl, hone w⟩

/-- at a valid node only candidates get points, and they begin with none -/
theorem ValidNode.le_of_overfull (hs : Setting f cls values comp) (hnode : ValidNode f values comp) {e : Explorer}
    (h : e.Overfull f values comp) : 4294967296 ≤ f.numVars + f.numLong := by
  obtain ⟨w, hw, hle⟩ := h
  rwa [if_pos (hnode.candidate_of_pointed hs hw), Nat.zero_add] at hle

/-- a part has as many models as what its signature stands for -/
theorem IsPart.models_eq (hs : Setting f cls values comp) (hnode : ValidNode f values comp)
    (hpart : IsPart f values comp v part signature) : signature.models f = f.modelsOn values part.vars.toFinset := by
  obtain ⟨listed, rfl, -, hbroken, hres⟩ := hnode.signature_eq hs hpart
  have hvars := hpart.id_ne_zero hs
  have hclauses : ∀ c ∈ listed, c.id ≠ 0 := fun c hc =>
    Nat.ne_of_gt (hs.clauses c (hpart.clausesSublist.subset ((hbroken c).1 hc).1)).1
  unfold Signature.models modelsOn
  rw [Signature.vars_ofParts hvars, Signature.clauses_ofParts hvars hclauses, hres]

namespace Decomposer

/-- a part with an entry that was minted since `store₀` and is not deletable -/
structure Recorded (f : Formula) (values : Assignment) (comp : Component) (store₀ store : Store)
    (part : Component) (signature : Signature) : Prop where
  isPart : ∃ v, IsPart f values comp v part signature
  key : store.key part.id = some (signature, false)
  young : store₀.nextId ≤ part.id.id

/-- the branch has counted the claimed candidates, but for the parts found -/
structure Factored (f : Formula) (values : Assignment) (comp : Component) (store₀ : Store) (node₀ : Node)
    (C : Var → Prop) (store : Store) (node : Node) (found : List Component) : Prop where
  sound : store.Sound
  keeps : Store.Keeps (fun _ => True) found.length store₀ store
  parts : ∀ p ∈ found, ∃ signature, Recorded f values comp store₀ store p signature
  claimed : ∀ p ∈ found, ∀ w ∈ p.vars, C w
  once : (found.flatMap Component.vars).Nodup
  branch : ∃ b : Branch, b.Coherent ∧ node = node₀.setActive b ∧
    Accounts f values C (b.value * (found.map fun p => f.modelsOn values p.vars.toFinset).prod)

variable {store₀ store store' : Store} {node₀ node : Node} {found : List Component}

theorem Factored.isParts {C : Var → Prop} (h : Factored f values comp store₀ node₀ C store node found) :
    ∀ p ∈ found, ∃ v signature, IsPart f values comp v p signature := by
  intro p hp
  obtain ⟨signature, hrec⟩ := h.parts p hp
  obtain ⟨v, hpart⟩ := hrec.isPart
  exact ⟨v, signature, hpart⟩

theorem Factored.start (hstore : store₀.Sound) (hnode : node₀.active = .start) :
    Factored f values comp store₀ node₀ (fun _ => False) store₀ node₀ [] := by
  refine ⟨hstore, Store.Keeps.refl _ store₀, by simp, by simp, by simp, .start, Branch.coherent_start, ?_, ?_⟩
  · rw [← hnode, Node.setActive_active]
  · rw [Branch.value_start, List.map_nil, List.prod_nil]
    exact Accounts.empty

/-- the branch takes the number of models of the class as a factor -/
theorem Factored.times (hs : Setting f cls values comp) (hnode : ValidNode f values comp)
    (hun : Unclaimed f values comp C v) (h : Factored f values comp store₀ node₀ C store node found)
    (hstore : store'.Sound) (hkeeps : Store.Keeps (fun _ => True) 0 store store') {L : Finset Var}
    (hL : ∀ w, w ∈ L ↔ f.Connected values comp v w) {factor : ℕ} (hfactor : f.modelsOn values L = factor) :
    Factored f values comp store₀ node₀ (withClass f values comp C v) store' (node.times factor) found := by
  obtain ⟨b, hb, hn, hacc⟩ := h.branch
  refine ⟨hstore, h.keeps.trans hkeeps, fun p hp => ?_, fun p hp w hw => Or.inl (h.claimed p hp w hw), h.once,
    b.times factor, hb.times factor, ?_, ?_⟩
  · obtain ⟨sig, hrec⟩ := h.parts p hp
    exact ⟨sig, hrec.isPart, hkeeps.key _ _ True.intro hrec.key, hrec.young⟩
  · rw [hn, Node.times_setActive]
  · rw [Branch.value_times, Nat.mul_right_comm, ← hfactor]
    exact hacc.add hs hnode hun hL

/-- a part is pushed under a fresh entry -/
theorem Factored.push (hs : Setting f cls values comp) (hnode : ValidNode f values comp)
    (hun : Unclaimed f values comp C v) (hpart : IsPart f values comp v part signature)
    (h : Factored f values comp store₀ node₀ C store node found) (hstore : store'.Sound)
    (hkeeps : Store.Keeps (fun _ => True) 1 store store') {id : EntryId} (hid : store₀.nextId ≤ id.id)
    (hkey : store'.key id = some (signature, false)) :
    Factored f values comp store₀ node₀ (withClass f values comp C v) store' node (part.withId id :: found) := by
  obtain ⟨b, hb, hn, hacc⟩ := h.branch
  refine ⟨hstore, h.keeps.trans hkeeps, fun p hp => ?_, fun p hp w hw => ?_, ?_, b, hb, hn, ?_⟩
  · rcases List.mem_cons.1 hp with rfl | hp
    · exact ⟨signature, ⟨v, hpart.withId id⟩, hkey, hid⟩
    · obtain ⟨sig, hrec⟩ := h.parts p hp
      exact ⟨sig, hrec.isPart, hkeeps.key _ _ True.intro hrec.key, hrec.young⟩
  · rcases List.mem_cons.1 hp with rfl | hp
    · exact Or.inr ((hpart.mem_vars w).1 hw)
    · exact Or.inl (h.claimed p hp w hw)
  · rw [List.flatMap_cons, Component.vars_withId]
    refine List.nodup_append.2 ⟨hpart.varsSublist.nodup hs.varsNodup, h.once, fun w hw u hu hwu => ?_⟩
    obtain ⟨p, hp, hup⟩ := List.mem_flatMap.1 hu
    exact hun.disjoint w ((hpart.mem_vars w).1 hw) (hwu ▸ h.claimed p hp u hup)
  · rw [List.map_cons, List.prod_cons, Component.vars_withId, Nat.mul_left_comm, Nat.mul_comm]
    refine hacc.add hs hnode hun fun w => ?_
    rw [List.mem_toFinset]
    exact hpart.mem_vars w

/-- an entry is minted for a part, in a store that may differ from the one before by the numbers of look-ups and hits -/
theorem Factored.mint (hs : Setting f cls values comp) (hnode : ValidNode f values comp)
    (hlive : store₀.has comp.id = true) {K : Finset Var} (hK : ∀ w, Candidate values comp w → w ∈ K)
    {points ids : ℕ} (hids : store₀.nextId + K.card < ids) (hun : Unclaimed f values comp C v)
    (hpart : IsPart f values comp v part signature)
    (h : Factored f values comp store₀ node₀ C store node found) (hsound : store'.Sound)
    (hkeeps : Store.Keeps (fun _ => True) 0 store store') :
    Ends (Spent points ids) (store'.mint signature comp.id) fun t =>
      Factored f values comp store₀ node₀ (withClass f values comp C v) t.2 node (part.withId t.1 :: found) := by
  obtain ⟨e, he⟩ := Store.has_iff.1 hlive
  have hkey := hkeeps.key _ _ True.intro (h.keeps.key _ _ True.intro (Store.key_eq he))
  obtain ⟨e', he', -⟩ := Store.get?_of_key hkey
  have hnext : store'.nextId = store₀.nextId + found.length := hkeeps.nextId.trans h.keeps.nextId
  refine ((hsound.mint_spec (Store.has_of_get? he') signature).weaken fun fault hboth => ?_).mono ?_
  · have hlen := length_le_of_parts h.isParts h.once hK
    obtain ⟨rfl, hspent⟩ := hboth
    exact Or.inr ⟨_, rfl, hspent, by omega⟩
  intro r hboth
  rcases r with ⟨id, store''⟩
  rcases hboth with ⟨hid, hsound', hkeeps', hkey', -⟩
  refine h.push hs hnode hun hpart hsound' (hkeeps.trans hkeeps') ?_ hkey'
  simp only at hid
  rw [hid, hnext]
  exact Nat.le_add_right _ _

/-- **The rule of the product.** It holds with look-ups and without, if all counts in the store are exact. An id is
given out for each part, of which there are no more than candidates. -/
theorem factored_rule (hs : Setting f cls values comp) (hnode : ValidNode f values comp) (caching : Bool)
    (hexact : store₀.Exact f) (hlive : store₀.has comp.id = true) (node₀ : Node) {K : Finset Var}
    (hK : ∀ w, Candidate values comp w → w ∈ K) {points ids : ℕ} (hids : store₀.nextId + K.card < ids) :
    SweepRule (Spent points ids) f values comp caching (Factored f values comp store₀ node₀) := by
  refine ⟨?_, ?_⟩
  · intro C store node found v hun hone h
    refine h.times hs hnode hun h.sound (Store.Keeps.refl _ store) (L := {v}) (fun w => ?_)
      (modelsOn_singleton hs hnode hun.candidate hone)
    rw [Finset.mem_singleton]
    exact ⟨fun e => e ▸ Relation.ReflTransGen.refl, hone w⟩
  · intro C store node found v part signature hun hpart h
    cases caching with
    | false =>
      show Ends _ (Except.ok (false, store, node)) _
      simp only [Ends.ok_iff, Bool.false_eq_true, if_false]
      exact h.mint hs hnode hlive hK hids hun hpart h.sound (Store.Keeps.refl _ store)
    | true =>
      show Ends _ (store.lookup node signature) _
      rcases Store.lookup_spec h.sound.chained node signature with ⟨count, i, e, he, hsig, hcount, hrun⟩ | hrun
      · -- a count that is found is exact
        rw [hrun]
        simp only [Ends.ok_iff, if_true]
        have hmodels := (h.keeps.exact hexact).count_eq he hcount
        rw [hsig, hpart.models_eq hs hnode] at hmodels
        have hr : Store.Relinked store { store with lookups := store.lookups + 1, hits := store.hits + 1 } :=
          Store.relinked_of_same rfl rfl rfl
        have hsound : ({ store with lookups := store.lookups + 1, hits := store.hits + 1 } : Store).Sound :=
          h.sound.of_same rfl rfl rfl rfl rfl
        refine h.times hs hnode hun hsound (hr.keeps _) (fun w => ?_) hmodels
        rw [List.mem_toFinset]
        exact hpart.mem_vars w
      · rw [hrun]
        simp only [Ends.ok_iff, Bool.false_eq_true, if_false]
        have hr : Store.Relinked store { store with lookups := store.lookups + 1 } :=
          Store.relinked_of_same rfl rfl rfl
        exact h.mint hs hnode hlive hK hids hun hpart (h.sound.of_same rfl rfl rfl rfl rfl) (hr.keeps _)

/-- what a split leaves: the parts pushed above the stack and a branch that has counted the rest -/
structure SplitOf (f : Formula) (values : Assignment) (comp : Component) (d : Decomposer) (node : Node)
    (r : Decomposer × Node) (pushed : List Component) (b : Branch) : Prop where
  stack : r.1.stack = d.stack ++ pushed
  config : r.1.config = d.config
  explorer : r.1.explorer.Fits f
  sound : r.1.store.Sound
  keeps : Store.Keeps (fun _ => True) pushed.length d.store r.1.store
  parts : ∀ p ∈ pushed, ∃ signature, Recorded f values comp d.store r.1.store p signature
  once : (pushed.flatMap Component.vars).Nodup
  node : r.2 = node.atCursor b r.1.stack.length
  coherent : b.Coherent
  product : ∀ K : Finset Var, (∀ w, w ∈ K ↔ Candidate values comp w) →
    f.modelsOn values K = b.value * (pushed.map fun p => f.modelsOn values p.vars.toFinset).prod

theorem SplitOf.isParts {d : Decomposer} {r : Decomposer × Node} {pushed : List Component} {b : Branch}
    (h : SplitOf f values comp d node r pushed b) :
    ∀ p ∈ pushed, ∃ v signature, IsPart f values comp v p signature := by
  intro p hp
  obtain ⟨signature, hrec⟩ := h.parts p hp
  obtain ⟨v, hpart⟩ := hrec.isPart
  exact ⟨v, signature, hpart⟩

theorem SplitOf.several {d : Decomposer} {r : Decomposer × Node} {pushed : List Component} {b : Branch}
    (h : SplitOf f values comp d node r pushed b) {p : Component} (hp : p ∈ pushed) : 2 ≤ p.vars.length := by
  obtain ⟨v, signature, hpart⟩ := h.isParts p hp
  exact hpart.several

/-- **Split.** At a valid node, with exact counts in the store, what is left of the formula on the candidates has as
many models as the branch has counted times those of the parts pushed. -/
theorem split_factored {d : Decomposer} (hs : Setting f cls values comp) (hnode : ValidNode f values comp)
    (hexplorer : d.explorer.Fits f) (hsound : d.store.Sound) (hexact : d.store.Exact f)
    (hsuper : d.superOf node = .ok comp) (hlive : d.store.has comp.id = true) (hbase : node.base ≤ d.stack.length)
    (hactive : node.active = .start) {K : Finset Var} (hK : ∀ w, Candidate values comp w → w ∈ K) {ids : ℕ}
    (hids : d.store.nextId + K.card < ids) :
    Ends (Spent (f.numVars + f.numLong) ids) (d.split node values).result fun r =>
      ∃ pushed b, SplitOf f values comp d node r pushed b := by
  refine (split_spec hs (factored_rule hs hnode d.config.caching hexact hlive node hK hids) hexplorer
    (fun hover => Or.inl ⟨rfl, hnode.le_of_overfull hs hover⟩) hsuper (Or.inr ?_)
    (Factored.start hsound hactive)).mono ?_
  · intro C store m found h
    obtain ⟨b, -, hm, -⟩ := h.branch
    rw [hm, Node.base_setActive]
    exact hbase
  · intro r hex'
    rcases r with ⟨d', node'⟩
    rcases hex' with ⟨C, m, found, h⟩
    have hperm : (sortDescending found.reverse).Perm found :=
      (sortDescending_perm _).trans found.reverse_perm
    obtain ⟨b, hb, hm, hacc⟩ := h.kept.branch
    refine ⟨_, b, h.stack, h.config, h.explorer, h.kept.sound, ?_, fun p hp => ?_, ?_, ?_, hb, fun K hK => ?_⟩
    · rw [hperm.length_eq]
      exact h.kept.keeps
    · exact h.kept.parts p (hperm.mem_iff.1 hp)
    · exact (hperm.flatMap_right _).nodup_iff.2 h.kept.once
    · rw [h.node, hm]
      rfl
    · calc f.modelsOn values K
          = b.value * (found.map fun p => f.modelsOn values p.vars.toFinset).prod :=
            (hacc K fun w => (hK w).trans (h.all w).symm).2
        _ = b.value * ((sortDescending found.reverse).map fun p => f.modelsOn values p.vars.toFinset).prod := by
            rw [(hperm.map _).prod_eq]

end Decomposer

end ModelCount
