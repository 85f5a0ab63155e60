/-
The tree of a store in use.

From its last beginning on, whatever operations follow, the live entries of a store form a tree under the root
(`Rooted`): father links and lists of children say the same. Erasing below an entry takes exactly the entries below it
out of the tree (`Pruned`), the ids given out ascend, and no operation finds an entry without a live father
(`planted_rooted`).
-/
import Mathlib.Tactic
import ModelCount.Proofs.Operations

namespace ModelCount

namespace Store

variable {s s' : Store} {id i a d : EntryId} {e : Entry}

def Lists (s : Store) (a d : EntryId) : Prop := ∃ e, s.get? a = some e ∧ d ∈ e.descendants

def Under (s : Store) : EntryId → EntryId → Prop := Relation.ReflTransGen s.Lists

/-- the live entries form a tree under the root -/
structure Rooted (s : Store) : Prop where
  /-- the root is live and has no father -/
  root : ∃ r, s.get? .root = some r ∧ r.father = .none ∧ s.get? .none = none
  /-- any other entry has a live father, which is older and lists it once -/
  father : ∀ i e, s.get? i = some e → i ≠ .root →
    ∃ f, s.get? e.father = some f ∧ e.father.id < i.id ∧ f.descendants.count i = 1
  /-- what an entry lists is live, and its child -/
  child : ∀ a e, s.get? a = some e → ∀ d ∈ e.descendants, ∃ c, s.get? d = some c ∧ c.father = a
  /-- every entry is reached from the root -/
  reach : ∀ i, s.has i = true → s.Under .root i

/-- the entries at and below `id` are gone; all others are as before, but for links and for `id` in its father's list -/
structure Pruned (s : Store) (id : EntryId) (s' : Store) : Prop where
  gone : ∀ i, s.Under id i → s'.get? i = none
  dead : ∀ i, s.get? i = none → s'.get? i = none
  stays : ∀ i e, s.get? i = some e → ¬ s.Under id i → ∃ e', s'.get? i = some e' ∧
    e'.father = e.father ∧ e'.signature = e.signature ∧ e'.count = e.count ∧ e'.time = e.time ∧
    e'.deletable = e.deletable ∧ e'.descendants.Perm (e.descendants.erase id) ∧
    (id ∉ e.descendants → e'.descendants = e.descendants)

/-! ## Children and fathers -/

theorem lists_iff (h : Sound s) : s.Lists a d ↔ Up s.core d a := by
  constructor
  · intro hl
    obtain ⟨e, he, hd⟩ := hl
    exact h.family.child_up (core_eq he) hd
  · intro hu
    obtain ⟨hd, c, hc, rfl⟩ := hu
    obtain ⟨p, hp, hm, -⟩ := h.family.father d c hc hd
    obtain ⟨e, he, rfl⟩ := get?_of_core hp
    exact ⟨e, he, hm⟩

/-- down from an entry is up to it -/
theorem under_iff (h : Sound s) : s.Under a i ↔ Below s.core a i := by
  have hswap : s.Lists = Function.swap (Up s.core) := by
    funext a d
    exact propext (lists_iff h)
  unfold Under Below
  rw [hswap]
  exact Relation.reflTransGen_swap

/-- **A sound store is a tree.** -/
theorem Sound.rooted (h : Sound s) : s.Rooted := by
  have hfather : ∀ i e, s.get? i = some e → i ≠ .root →
      ∃ f, s.get? e.father = some f ∧ i ∈ f.descendants ∧ e.father.id < i.id := by
    intro i e he hi
    obtain ⟨p, hp, hm, hlt⟩ := h.family.father i e.core (core_eq he) hi
    obtain ⟨f, hf, rfl⟩ := get?_of_core hp
    exact ⟨f, hf, hm, hlt⟩
  refine ⟨?_, fun i e he hi => ?_, fun a e he d hd => ?_, fun i hi => ?_⟩
  · obtain ⟨r, hr, hnone⟩ := h.family.root
    obtain ⟨e, he, rfl⟩ := get?_of_core hr
    exact ⟨e, he, hnone, Option.eq_none_iff_forall_not_mem.2 fun x hx => h.ne_none hx rfl⟩
  · obtain ⟨f, hf, hm, hlt⟩ := hfather i e he hi
    exact ⟨f, hf, hlt, List.count_eq_one_of_mem (h.family.children _ f.core (core_eq hf)).1 hm⟩
  · obtain ⟨c, hc, hca⟩ := (h.family.children a e.core (core_eq he)).2 d hd
    obtain ⟨c', hc', rfl⟩ := get?_of_core hc
    exact ⟨c', hc', hca⟩
  · -- fathers have smaller ids
    obtain ⟨n, hn⟩ : ∃ n, i.id = n := ⟨_, rfl⟩
    induction n using Nat.strong_induction_on generalizing i with
    | _ n ih =>
      by_cases hroot : i = .root
      · rw [hroot]
        exact Relation.ReflTransGen.refl
      · obtain ⟨e, he⟩ := has_iff.1 hi
        obtain ⟨f, hf, hm, hlt⟩ := hfather i e he hroot
        exact (ih _ (hn ▸ hlt) e.father (has_of_get? hf) rfl).tail ⟨f, hf, hm⟩

/-! ## Erasing below an entry -/

/-- an entry that is not in a list is not taken out of it -/
theorem swapRemove_of_not_mem {l : List EntryId} (h : id ∉ l) : swapRemove id l = l := by
  induction l with
  | nil => rfl
  | cons y rest ih =>
    have hy : y ≠ id := fun heq => h (by rw [heq]; simp)
    rw [swapRemove, if_neg hy, ih fun hm => h (List.mem_cons_of_mem _ hm)]

/-- **Erasing below** an entry other than the root prunes the tree there. -/
theorem Sound.eraseBelow_pruned (h : Sound s) (hid : s.get? id = some e) (hroot : id ≠ .root) :
    ∃ s', s.eraseBelow id = .ok s' ∧ s.Pruned id s' := by
  obtain ⟨s', hrun, -, -, -, hspec⟩ := eraseBelow_spec h hid hroot
  refine ⟨s', hrun, fun i hi => ?_, fun i hi => ?_, fun i x hx hi => ?_⟩
  · exact Option.map_eq_none_iff.1 ((hspec i).1 ((under_iff h).1 hi))
  · have hcore : s.core i = none := by rw [core, hi, Option.map_none]
    by_cases hb : Below s.core id i
    · exact Option.map_eq_none_iff.1 ((hspec i).1 hb)
    · have := (hspec i).2 hb
      rw [hcore, Option.map_none, ite_self] at this
      exact Option.map_eq_none_iff.1 this
  · have hb : ¬ Below s.core id i := fun hb => hi ((under_iff h).2 hb)
    have hcore := (hspec i).2 hb
    rw [core_eq hx] at hcore
    -- only the father lists the entry
    have hlist : s'.core i = some { x.core with descendants := swapRemove id x.descendants } := by
      rw [hcore]
      split_ifs with hif
      · rfl
      · have hnot : id ∉ x.descendants := by
          intro hm
          obtain ⟨-, c, hc, hci⟩ := h.family.child_up (core_eq hx) hm
          rw [core_eq hid] at hc
          cases hc
          exact hif hci.symm
        rw [swapRemove_of_not_mem hnot]
        rfl
    obtain ⟨e', he', heq⟩ := get?_of_core hlist
    obtain ⟨hsig, hcount, htime, hdel, hfather, hdesc⟩ := Entry.fields_of_core heq
    refine ⟨e', he', hfather, hsig, hcount, htime, hdel, ?_, fun hnot => ?_⟩
    · rw [hdesc]; exact swapRemove_perm id x.descendants
    · rw [hdesc]; exact swapRemove_of_not_mem hnot

end Store

namespace Ledger

open Store

/-- why a store refuses -/
theorem refusal_cases {s : Store} {op : Op} {fault : Fault} (h : s.refusal op = some fault) :
    (fault = .idsSpent s.nextId ∧ 4294967295 ≤ s.nextId) ∨ (∃ id, fault = .noEntry id ∧ s.has id = false) ∨
      (fault = .rootErased ∧ op = .eraseBelow .root) := by
  cases op with
  | mint signature father =>
    simp only [refusal] at h
    split_ifs at h with hf hn
    · cases h; exact Or.inl ⟨rfl, by omega⟩
    · cases h; exact Or.inr (Or.inl ⟨father, rfl, by simpa using hf⟩)
  | attach id count | setDeletable id =>
    simp only [refusal] at h
    split_ifs at h with hid
    cases h
    exact Or.inr (Or.inl ⟨id, rfl, by simpa using hid⟩)
  | eraseBelow id =>
    simp only [refusal] at h
    split_ifs at h with hid hroot
    · cases h; exact Or.inr (Or.inr ⟨rfl, by rw [hroot]⟩)
    · cases h; exact Or.inr (Or.inl ⟨id, rfl, by simpa using hid⟩)
  | plant signature | lookup node signature | evictRound | refresh => cases h

/-- **The tree of entries.** After any operations that follow a beginning, the entries form a tree under the root and
the ids given out since the last beginning ascend. Erasing below an entry other than the root erases exactly what is
below it. An operation fails only if ids are spent, if an id it needs has no live entry, or if it is to erase the
root: no operation finds an entry without a live father. -/
theorem planted_rooted {l₀ l : Ledger} {signature : Signature} {ops : List Op}
    (hrun : l₀.run (.plant signature :: ops) = .ok l) :
    l.store.Rooted ∧ (l.given.Pairwise fun i j => i.id < j.id) ∧
    (∀ id e, l.store.get? id = some e → id ≠ .root → ∃ s', l.store.eraseBelow id = .ok s' ∧ l.store.Pruned id s') ∧
    ∀ op fault, l.step op = .error fault →
      (fault = .idsSpent l.store.nextId ∧ 4294967295 ≤ l.store.nextId) ∨
        (∃ id, fault = .noEntry id ∧ l.store.has id = false) ∨ (fault = .rootErased ∧ op = .eraseBelow .root) := by
  rw [run, List.foldlM_cons] at hrun
  have hplant := sound_plant l₀.store signature
  have hkept : Kept ⟨l₀.store.plant signature, [.root]⟩ := .of_sound hplant (by simp) fun i hi => by
    rw [List.mem_singleton.1 hi]
    exact Nat.lt_succ_self 1
  have hrest : (⟨l₀.store.plant signature, [.root]⟩ : Ledger).run ops = .ok l := hrun
  have hleads := hkept.of_run hrest
  have hsound := hleads.sound hplant
  refine ⟨hsound.rooted, hleads.kept.ascending, fun id e he hroot => hsound.eraseBelow_pruned he hroot, ?_⟩
  intro op fault hstep
  cases hr : l.store.refusal op with
  | none =>
    obtain ⟨l', hstep', -⟩ := step_leads hleads.kept hr
    rw [hstep] at hstep'
    cases hstep'
  | some fault' =>
    rw [step_refused hleads.kept hr] at hstep
    cases hstep
    exact refusal_cases hr

/-- an entry with two children is evicted, and one of these gets a child of its own -/
def inherited : List Op :=
  [.mint ⟨[1, 2, 0]⟩ .root, .mint ⟨[1, 0]⟩ ⟨2⟩, .mint ⟨[2, 0]⟩ ⟨2⟩, .setDeletable ⟨2⟩, .evictRound, .mint ⟨[3, 0]⟩ ⟨3⟩]

/-- five ids were given out, and the third has an entry that can be erased with the fifth below it -/
theorem planted_rooted_inherited : ∃ s₀ l, Store.empty 1 = .ok s₀ ∧
    (⟨s₀, []⟩ : Ledger).run (.plant ⟨[1, 2, 3, 0]⟩ :: inherited) = .ok l ∧
    l.store.Rooted ∧ l.given = [⟨1⟩, ⟨2⟩, ⟨3⟩, ⟨4⟩, ⟨5⟩] ∧ (l.given.Pairwise fun i j => i.id < j.id) ∧
    ∃ s', l.store.eraseBelow ⟨3⟩ = .ok s' ∧ l.store.Pruned ⟨3⟩ s' := by
  have hview : (ofOps 1 (.plant ⟨[1, 2, 3, 0]⟩ :: inherited)).toOption.map (fun l => (l.given, l.store.has ⟨3⟩)) =
      some ([⟨1⟩, ⟨2⟩, ⟨3⟩, ⟨4⟩, ⟨5⟩], true) := by decide +kernel
  rw [ofOps] at hview
  cases hs : Store.empty 1 with
  | error fault =>
    rw [hs] at hview
    cases hview
  | ok s₀ =>
    rw [hs, Except.ok_bind] at hview
    cases hrun : (⟨s₀, []⟩ : Ledger).run (.plant ⟨[1, 2, 3, 0]⟩ :: inherited) with
    | error fault =>
      rw [hrun] at hview
      cases hview
    | ok l =>
      rw [hrun] at hview
      have hpair := Option.some.inj hview
      obtain ⟨e, he⟩ := has_iff.1 (congrArg Prod.snd hpair)
      obtain ⟨hrooted, hascending, hprune, -⟩ := planted_rooted hrun
      exact ⟨s₀, l, rfl, hrun, hrooted, congrArg Prod.fst hpair, hascending, hprune ⟨3⟩ e he (by decide)⟩

end Ledger

end ModelCount
