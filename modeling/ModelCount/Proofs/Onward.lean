/-
Work that goes on, last in, first out.

`Onward` is a search loop at work as a session is one, with two things more: a node may be entered at any component of
the stack, and a part of the innermost slice may be sorted. The components on the stack keep their entries all the same
(`Onward.lodged`), the state stays a reachable one (`Onward.works`), and an entry that is still live is the one it was:
its signature is the same, and it has a count if it had one (`Serves.carried`).
-/
import Mathlib.Tactic
import ModelCount.Proofs.Rounds
import ModelCount.Proofs.Served
import ModelCount.Proofs.Session

namespace ModelCount

/-! ## Entries that stay -/

namespace Store

variable {s s' : Store} {i : EntryId} {e e' : Entry}

/-- an entry that was minted before and is live now was live before, with its signature, and has a count if it had
one -/
structure Carried (s s' : Store) : Prop where
  nextId : s.nextId ≤ s'.nextId
  entry : ∀ i e', i.id < s.nextId → s'.get? i = some e' →
    ∃ e, s.get? i = some e ∧ e'.signature = e.signature ∧ (e.hasCount = true → e'.hasCount = true)

namespace Carried

theorem refl (s : Store) : Carried s s := ⟨le_rfl, fun _ e _ he => ⟨e, he, rfl, fun h => h⟩⟩

theorem trans {s'' : Store} (h : Carried s s') (h' : Carried s' s'') : Carried s s'' := by
  refine ⟨h.nextId.trans h'.nextId, fun i e'' hi he'' => ?_⟩
  obtain ⟨e', he', hsig', hcount'⟩ := h'.entry i e'' (Nat.lt_of_lt_of_le hi h.nextId) he''
  obtain ⟨e, he, hsig, hcount⟩ := h.entry i e' hi he'
  exact ⟨e, he, hsig'.trans hsig, fun hc => hcount' (hcount hc)⟩

/-- the entries are the same -/
theorem of_entries (he : s'.entries = s.entries) (hn : s'.nextId = s.nextId) : Carried s s' := by
  refine ⟨hn.ge, fun i e' _ he' => ⟨e', ?_, rfl, fun h => h⟩⟩
  unfold get? at he' ⊢
  rw [← he]
  exact he'

/-- every live entry has its signature and its count from before -/
theorem of_core (hn : s'.nextId = s.nextId) (h : ∀ i c', s'.core i = some c' →
    ∃ c, s.core i = some c ∧ c'.signature = c.signature ∧ c'.count = c.count) : Carried s s' := by
  refine ⟨hn.ge, fun i e' _ he' => ?_⟩
  obtain ⟨c, hc, hsig, hcount⟩ := h i e'.core (core_eq he')
  obtain ⟨e, he, rfl⟩ := get?_of_core hc
  refine ⟨e, he, hsig, fun hcounted => ?_⟩
  have hcount' : e'.count = e.count := hcount
  rw [Entry.hasCount, hcount']
  exact hcounted

end Carried

theorem carried_attach (h : s.Sound) (he : s.get? i = some e) {count : ℕ} (hrun : (s.attach i count).result = .ok s') :
    Carried s s' ∧ ∃ e', s'.get? i = some e' ∧ e'.hasCount = true := by
  obtain ⟨s₁, hrun', -, -, hnext, hother, e₁, he₁, hsig, -, -, hcount⟩ := attach_spec h he count
  rw [hrun] at hrun'
  cases hrun'
  have hcounted : e₁.hasCount = true := by rw [Entry.hasCount, hcount]; rfl
  refine ⟨⟨hnext.ge, fun k x _ hx => ?_⟩, e₁, he₁, hcounted⟩
  by_cases hk : k = i
  · rw [hk, he₁] at hx
    cases hx
    exact ⟨e, hk ▸ he, hsig, fun _ => hcounted⟩
  · obtain ⟨x₀, hx₀, hcore⟩ := get?_of_core ((hother k hk).symm.trans (core_eq hx))
    obtain ⟨hsame, hcount', -⟩ := Entry.fields_of_core hcore
    refine ⟨x₀, hx₀, hsame.symm, fun hc => ?_⟩
    rw [Entry.hasCount, hcount'] at hc
    exact hc

theorem carried_eraseBelow (h : s.Sound) (he : s.get? i = some e) (hroot : i ≠ .root) (hrun : s.eraseBelow i = .ok s') :
    Carried s s' := by
  obtain ⟨s₁, hrun', -, -, hnext, hcore⟩ := eraseBelow_spec h he hroot
  rw [hrun] at hrun'
  cases hrun'
  refine .of_core hnext fun k c' hc' => ?_
  by_cases hb : Below s.core i k
  · rw [(hcore k).1 hb] at hc'
    cases hc'
  · rw [(hcore k).2 hb] at hc'
    split_ifs at hc'
    · obtain ⟨c, hc, rfl⟩ := Option.map_eq_some_iff.1 hc'
      exact ⟨c, hc, rfl, rfl⟩
    · exact ⟨c', hc', rfl, rfl⟩

theorem Spared.carried {gone : EntryId → Prop} (h : Spared gone s s') (hn : s'.nextId = s.nextId) : Carried s s' := by
  refine ⟨hn.ge, fun i e' _ he' => ?_⟩
  obtain ⟨-, e, he, hsig, hcount⟩ := h.survivor he'
  refine ⟨e, he, hsig, fun hc => ?_⟩
  rw [Entry.hasCount, hcount]
  exact hc

theorem carried_evictRound (h : s.Sound) {r : ℕ × Store} (hrun : s.evictRound.result = .ok r) : Carried s r.2 := by
  by_cases hne : s.candidates = []
  · rw [evictRound_idle hne] at hrun
    cases hrun
    exact .refl s
  · obtain ⟨s₁, s₂, hbatch, -, -, -, hk, -, hr, -, -, hrun'⟩ := evictRound_steps h hne
    rw [hrun] at hrun'
    cases hrun'
    have hspared := spared_of_foldlM h nodup_victims (fun i hi => by
      obtain ⟨e, he, -, hroot⟩ := mem_victims hi
      exact ⟨has_of_get? he, hroot⟩) hbatch
    exact ((hspared.relinked hr).relinked (relinked_refresh s₂)).carried (hr.nextId.trans hk.nextId)

theorem carried_minted {father : EntryId} {f : Entry} (hf : s.get? father = some f)
    (signature : Signature) : Carried s (s.minted signature father f) := by
  refine ⟨Nat.le_succ _, fun i e' hi he' => ?_⟩
  rcases of_minted hf he' with ⟨rfl, -⟩ | ⟨e, l, he, rfl⟩
  · exact absurd hi (Nat.lt_irrefl _)
  · exact ⟨e, he, rfl, fun hc => hc⟩

theorem carried_setDeletable (he : s.get? i = some e) : Carried s (s.put i e.setDeletable) := by
  refine .of_core rfl fun k c' hc' => ?_
  rw [core_put] at hc'
  split_ifs at hc' with hk
  · cases hc'
    exact ⟨e.core, by rw [hk, core_eq he], rfl, rfl⟩
  · exact ⟨c', hc', rfl, rfl⟩

/-- **One operation** of a store. -/
theorem carried_of_step (h : s.Sound) {given : List EntryId} {op : Op} {l : Ledger}
    (hop : ∀ signature, op ≠ .plant signature) (hstep : (⟨s, given⟩ : Ledger).step op = .ok l) :
    l.store.Sound ∧ Carried s l.store := by
  obtain ⟨ids, hstep'⟩ := Ledger.step_store hstep []
  have hkept : Ledger.Kept ⟨s, []⟩ := .of_sound h List.Pairwise.nil nofun
  refine ⟨(hkept.of_step hstep').sound h, ?_⟩
  have hfree : s.refusal op = none := by
    cases hr : s.refusal op with
    | none => rfl
    | some fault =>
      rw [Ledger.step_refused hkept hr] at hstep'
      cases hstep'
  cases op with
  | plant signature => exact absurd rfl (hop signature)
  | mint signature father =>
    obtain ⟨⟨f, hf⟩, hn⟩ := refusal_mint hfree
    rw [Ledger.step, mint_eq hf (Nat.ne_of_lt (h.range father f hf).2), if_pos hn] at hstep
    cases hstep
    exact carried_minted hf signature
  | attach id count =>
    obtain ⟨e, he⟩ := refusal_attach hfree
    obtain ⟨s', hrun, hstep⟩ := exists_of_bind hstep
    cases hstep
    exact (carried_attach h he hrun).1
  | lookup node signature =>
    obtain ⟨hits, hrun⟩ := Ledger.step_lookup hkept node signature
    rw [hrun] at hstep'
    have hstore : l.store = { s with lookups := s.lookups + 1, hits := hits } :=
      (congrArg Ledger.store (Except.ok.inj hstep')).symm
    rw [hstore]
    exact .of_entries rfl rfl
  | setDeletable id =>
    obtain ⟨e, he⟩ := refusal_setDeletable hfree
    rw [Ledger.step, (setDeletable_spec h he).1] at hstep
    cases hstep
    exact carried_setDeletable he
  | eraseBelow id =>
    obtain ⟨⟨e, he⟩, hroot⟩ := refusal_eraseBelow hfree
    obtain ⟨s', hrun, hstep⟩ := exists_of_bind hstep
    cases hstep
    exact carried_eraseBelow h he hroot hrun
  | evictRound =>
    obtain ⟨r, hrun, hstep⟩ := exists_of_bind hstep
    cases hstep
    exact carried_evictRound h hrun
  | refresh =>
    cases hstep
    exact .of_entries rfl rfl

/-- **Any operations** of a store. -/
theorem Serves.carried (h : s.Sound) (hs : s.Serves s') : s'.Sound ∧ Carried s s' := by
  induction hs with
  | refl => exact ⟨h, .refl s⟩
  | step _ hop hstep ih =>
    obtain ⟨hsound, hcarried⟩ := carried_of_step ih.1 hop hstep
    exact ⟨hsound, ih.2.trans hcarried⟩

end Store

/-! ## States of a decomposer -/

namespace Decomposer

variable {f : Formula} {d d' : Decomposer} {node : Node} {values : Assignment}

/-- whatever the decomposer was before, the other one was used the same way and comes of it -/
structure Works (f : Formula) (d d' : Decomposer) : Prop extends d.Follows d' where
  used : Used d → Used d'
  reachable : Reachable f d → Reachable f d'

namespace Works

theorem refl (d : Decomposer) : Works f d d := ⟨.refl d, id, id⟩

theorem trans {d'' : Decomposer} (h : Works f d d') (h' : Works f d' d'') : Works f d d'' :=
  ⟨h.toFollows.trans h'.toFollows, h'.used ∘ h.used, h'.reachable ∘ h.reachable⟩

theorem split (hv : values.Fits f.numVars) {r : Decomposer × Node} (h : (d.split node values).result = .ok r) :
    Works f d r.1 := ⟨(split_follows d node values).get h, fun hu => hu.split h, fun hr => hr.split hv h⟩

theorem findNext (hv : values.Fits f.numVars) {r : Bool × Decomposer × Node}
    (h : (d.findNext node values).result = .ok r) : Works f d r.2.1 :=
  ⟨(findNext_follows d node values).get h, fun hu => hu.findNext h, fun hr => hr.findNext hv h⟩

theorem cacheCount {index count : ℕ} (h : (d.cacheCount index count).result = .ok d') : Works f d d' :=
  ⟨(cacheCount_follows d index count).get h, fun hu => hu.cacheCount h, fun hr => hr.cacheCount h⟩

theorem sortRange {start stop : ℕ} (h : d.sortRange start stop = .ok d') : Works f d d' :=
  ⟨(sortRange_follows d start stop).get h, fun hu => hu.sortRange h, fun hr => hr.sortRange h⟩

theorem clean (h : d.clean node = .ok d') : Works f d d' :=
  ⟨(clean_follows d node).get h, fun hu => hu.clean h, fun hr => hr.clean h⟩

theorem removePollutions (h : d.removePollutions node = .ok d') : Works f d d' :=
  ⟨(removePollutions_follows d node).get h, fun hu => hu.removePollutions h, fun hr => hr.removePollutions h⟩

theorem refresh (d : Decomposer) : Works f d d.refresh :=
  ⟨refresh_follows d, fun hu => hu.refresh, fun hr => hr.refresh⟩

theorem evict {r : ℕ × Decomposer} (h : d.evict.result = .ok r) : Works f d r.2 :=
  ⟨(evict_follows d).get h, fun hu => hu.evict h, fun hr => hr.evict h⟩

end Works

end Decomposer

namespace Session

open Decomposer

variable {s s' : Session} {d d' : Decomposer} {levels levels' : List Node} {node : Node} {op : Op} {f : Formula} {n : ℕ}

def Op.Fits (n : ℕ) : Op → Prop
  | .findNext values | .split values => values.Fits n
  | _ => True

/-- what a step does to the decomposer -/
theorem works_of_step (hop : op.Fits f.numVars) (hstep : s.step op = .ok s') : Works f s.decomposer s'.decomposer := by
  cases op with
  | enter index =>
    obtain ⟨_, -, hstep⟩ := exists_of_bind hstep
    obtain ⟨_, -, hstep⟩ := exists_of_bind hstep
    cases hstep
    exact .refl _
  | leave =>
    obtain ⟨r, -, hstep⟩ := exists_of_bind hstep
    cases hstep
    exact .refl _
  | findNext values =>
    obtain ⟨⟨node, rest⟩, -, hstep⟩ := exists_of_bind hstep
    obtain ⟨r, hrun, hstep⟩ := exists_of_bind hstep
    cases hstep
    exact .findNext hop hrun
  | split values =>
    obtain ⟨⟨node, rest⟩, -, hstep⟩ := exists_of_bind hstep
    obtain ⟨r, hrun, hstep⟩ := exists_of_bind hstep
    cases hstep
    exact .split hop hrun
  | move move =>
    obtain ⟨⟨node, rest⟩, -, hstep⟩ := exists_of_bind hstep
    obtain ⟨r, -, hstep⟩ := exists_of_bind hstep
    cases hstep
    exact .refl _
  | clean =>
    obtain ⟨⟨node, rest⟩, -, hstep⟩ := exists_of_bind hstep
    obtain ⟨d, hrun, hstep⟩ := exists_of_bind hstep
    cases hstep
    exact .clean hrun
  | abandon =>
    obtain ⟨⟨node, rest⟩, -, hstep⟩ := exists_of_bind hstep
    obtain ⟨d, hrun, hstep⟩ := exists_of_bind hstep
    obtain ⟨d', hrun', hstep⟩ := exists_of_bind hstep
    cases hstep
    exact (Works.removePollutions hrun).trans (.clean hrun')
  | cacheCount index count =>
    obtain ⟨_, -, hstep⟩ := exists_of_bind hstep
    obtain ⟨d, hrun, hstep⟩ := exists_of_bind hstep
    cases hstep
    exact .cacheCount hrun
  | refresh =>
    cases hstep
    exact .refresh _
  | evict =>
    obtain ⟨r, hrun, hstep⟩ := exists_of_bind hstep
    cases hstep
    exact .evict hrun

/-- from a decomposer and its open nodes, the innermost first, to another, last in, first out: steps of a session, a
node entered at any component of the stack, and a part of the innermost slice sorted. Where a component was split from
(the origins of a session) is not kept track of. -/
inductive Onward (n : ℕ) (d : Decomposer) (levels : List Node) : Decomposer → List Node → Prop
  | refl : Onward n d levels d levels
  | step {d' : Decomposer} {levels' : List Node} {origins : List EntryId} {op : Op} {s : Session} :
      Onward n d levels d' levels' → op.Fits n → (⟨d', levels', origins⟩ : Session).step op = .ok s →
      Onward n d levels s.decomposer s.levels
  | enter {d' : Decomposer} {levels' : List Node} {index : ℕ} : Onward n d levels d' levels' → 1 ≤ index →
      index < d'.stack.length → Onward n d levels d' (Node.start index d'.stack.length :: levels')
  | sort {d' d'' : Decomposer} {levels' : List Node} {start stop : ℕ} : Onward n d levels d' levels' → 1 ≤ start →
      (∀ node ∈ levels'.head?, node.base ≤ start) → d'.sortRange start stop = .ok d'' → Onward n d levels d'' levels'

namespace Onward

theorem trans {d'' : Decomposer} {levels'' : List Node} (h : Onward n d levels d' levels')
    (h' : Onward n d' levels' d'' levels'') : Onward n d levels d'' levels'' := by
  induction h' with
  | refl => exact h
  | step _ hop hstep ih => exact .step ih hop hstep
  | enter _ hindex hlt ih => exact .enter ih hindex hlt
  | sort _ hstart hslice hsort ih => exact .sort ih hstart hslice hsort

/-- a session goes on -/
theorem run {s s' : Session} {ops : List Op} (h : Onward n d levels s.decomposer s.levels)
    (hops : ∀ op ∈ ops, op.Fits n) (hrun : s.run ops = .ok s') : Onward n d levels s'.decomposer s'.levels := by
  have hends : Ends AnyFault (s.run ops) fun s' => Onward n d levels s'.decomposer s'.levels := by
    refine Ends.foldlM_state (fun s' : Session => Onward n d levels s'.decomposer s'.levels) h fun op hop s₁ h₁ => ?_
    refine Ends.of_ok fun s₂ h₂ => ?_
    have hstep : (⟨s₁.decomposer, s₁.levels, s₁.origins⟩ : Session).step op = .ok s₂ := h₂
    exact .step h₁ (hops op hop) hstep
  exact hends.get hrun

/-- the innermost node is asked for components -/
theorem split {rest : List Node} {values : Assignment} {r : Decomposer × Node}
    (h : Onward n d levels d' (node :: rest)) (hv : values.Fits n) (hrun : (d'.split node values).result = .ok r) :
    Onward n d levels r.1 (r.2 :: rest) := by
  have hstep : (⟨d', node :: rest, []⟩ : Session).step (.split values) =
      .ok ((⟨d', node :: rest, []⟩ : Session).pushed r.1 r.2 rest) := by
    simp only [Session.step, innermost, Except.ok_bind, hrun]
    rfl
  have hop : (Op.split values).Fits n := hv
  exact .step h hop hstep

/-- a count is attached to a component -/
theorem cacheCount {d'' : Decomposer} {index count : ℕ} (h : Onward n d levels d' levels') (hindex : 1 ≤ index)
    (hrun : (d'.cacheCount index count).result = .ok d'') : Onward n d levels d'' levels' := by
  have hstep : (⟨d', levels', []⟩ : Session).step (.cacheCount index count) = .ok ⟨d'', levels', []⟩ := by
    rw [Session.step, require_pos hindex, Except.ok_bind, hrun]
    rfl
  have hop : (Op.cacheCount index count).Fits n := True.intro
  exact .step h hop hstep

/-- the components of the innermost node are popped -/
theorem clean {rest : List Node} {d'' : Decomposer} (h : Onward n d levels d' (node :: rest))
    (hrun : d'.clean node = .ok d'') : Onward n d levels d'' (node :: rest) := by
  have hstep : (⟨d', node :: rest, []⟩ : Session).step .clean =
      .ok ((⟨d', node :: rest, []⟩ : Session).popped d'' node) := by
    simp only [Session.step, innermost, Except.ok_bind, hrun]
    rfl
  have hop : Op.clean.Fits n := True.intro
  exact .step h hop hstep

end Onward

theorem Onward.works (h : Onward f.numVars d levels d' levels') : Works f d d' := by
  induction h with
  | refl => exact .refl d
  | step _ hop hstep ih => exact ih.trans (works_of_step hop hstep)
  | enter _ _ _ ih => exact ih
  | sort _ _ _ hsort ih => exact ih.trans (.sortRange hsort)

/-- where the components of a sorted stack stood before -/
theorem getElem?_sortRange {start stop : ℕ} (hsort : d.sortRange start stop = .ok d') {k : ℕ} {p : Component}
    (hp : d'.stack[k]? = some p) :
    (k < start ∧ d.stack[k]? = some p) ∨ start ≤ k ∧ ∃ j, start ≤ j ∧ d.stack[j]? = some p := by
  unfold Decomposer.sortRange at hsort
  split_ifs at hsort with hrange
  cases hsort
  have hlen : (d.stack.take start).length = start := by rw [List.length_take]; omega
  rw [List.append_assoc] at hp
  by_cases hk : k < start
  · rw [List.getElem?_append_left (by omega), List.getElem?_take, if_pos hk] at hp
    exact Or.inl ⟨hk, hp⟩
  · refine Or.inr ⟨Nat.le_of_not_lt hk, ?_⟩
    rw [List.getElem?_append_right (by omega)] at hp
    have hm : p ∈ d.stack.drop start := by
      rcases List.mem_append.1 (List.mem_of_getElem? hp) with hm | hm
      · exact (List.take_sublist _ _).drop _ |>.subset ((ordered_perm _).mem_iff.1 hm)
      · rw [show stop = start + (stop - start) by omega, ← List.drop_drop] at hm
        exact List.mem_of_mem_drop hm
    obtain ⟨j, hj⟩ := List.mem_iff_getElem?.1 hm
    rw [List.getElem?_drop] at hj
    exact ⟨start + j, Nat.le_add_right _ _, hj⟩

theorem length_sortRange {start stop : ℕ} (hsort : d.sortRange start stop = .ok d') :
    d'.stack.length = d.stack.length := by
  unfold Decomposer.sortRange at hsort
  split_ifs at hsort with hrange
  cases hsort
  simp only [List.length_append, List.length_take, List.length_drop, (ordered_perm _).length_eq]
  omega

/-- sorting within the innermost slice -/
theorem Lodged.sort (h : Lodged d levels) {start stop : ℕ} (hstart : 1 ≤ start)
    (hslice : ∀ node ∈ levels.head?, node.base ≤ start) (hsort : d.sortRange start stop = .ok d') :
    Lodged d' levels := by
  have hstore : d'.store = d.store := by
    unfold Decomposer.sortRange at hsort
    split_ifs at hsort
    cases hsort
    rfl
  have hbase : ∀ node ∈ levels, node.base ≤ start := by
    intro node hnode
    cases levels with
    | nil => cases hnode
    | cons inner rest =>
      have hinner := hslice inner rfl
      rcases List.mem_cons.1 hnode with rfl | hnode
      · exact hinner
      · exact ((List.pairwise_cons.1 h.nested).1 node hnode).trans hinner
  refine ⟨hstore ▸ h.sound, fun k p hk hp => ?_, fun node hnode => ?_, h.nested⟩
  · rw [hstore]
    rcases getElem?_sortRange hsort hp with ⟨-, hp⟩ | ⟨-, j, hj, hp⟩
    · exact h.held k p hk hp
    · exact h.held j p (hstart.trans hj) hp
  · obtain ⟨bound, hb, hbelow, habove⟩ := (h.opened node hnode).apart
    have hle := hbase node hnode
    refine ⟨(h.opened node hnode).super, (h.opened node hnode).below, ?_, bound, hstore ▸ hb, fun k p hk hkb hp => ?_,
      fun k p hkb hp => ?_⟩
    · rw [length_sortRange hsort]
      exact (h.opened node hnode).base
    · rcases getElem?_sortRange hsort hp with ⟨-, hp⟩ | ⟨hsk, -⟩
      · exact hbelow k p hk hkb hp
      · omega
    · rcases getElem?_sortRange hsort hp with ⟨-, hp⟩ | ⟨-, j, hj, hp⟩
      · exact habove k p hkb hp
      · exact habove j p (hle.trans hj) hp

/-- **Components keep their entries** along such work. -/
theorem Onward.lodged (h : Lodged d levels) (hw : Onward n d levels d' levels') : Lodged d' levels' := by
  induction hw with
  | refl => exact h
  | step _ _ hstep ih => exact ((step_cases ih _).get hstep).lodged ih
  | enter _ hindex hlt ih => exact ih.enter hindex hlt
  | sort _ hstart hslice hsort ih => exact ih.sort hstart hslice hsort

end Session

end ModelCount
