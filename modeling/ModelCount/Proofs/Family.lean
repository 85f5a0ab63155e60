/-
The tree of entries.

The tree is a fact about the live entries as a partial function: every entry but the root has a live father with a
smaller id that lists it, and an entry lists live children of its own, each once (`Family`). Minting, erasing an entry
with all below it and erasing an entry alone keep it.
-/
import Mathlib.Tactic
import Mathlib.Logic.Relation
import ModelCount.Proofs.Chains

namespace ModelCount

/-- live entries under a root, with ids below `n` -/
structure Family (n : ℕ) (g : EntryId → Option Entry) : Prop where
  range : ∀ i e, g i = some e → 1 ≤ i.id ∧ i.id < n
  root : ∃ e, g .root = some e ∧ e.father = .none
  father : ∀ i e, g i = some e → i ≠ .root → ∃ p, g e.father = some p ∧ i ∈ p.descendants ∧ e.father.id < i.id
  children : ∀ i e, g i = some e → e.descendants.Nodup ∧ ∀ d ∈ e.descendants, ∃ c, g d = some c ∧ c.father = i

def Up (g : EntryId → Option Entry) (i a : EntryId) : Prop := i ≠ .root ∧ ∃ e, g i = some e ∧ e.father = a

/-- the entry is `a` or stands below it -/
def Below (g : EntryId → Option Entry) (a i : EntryId) : Prop := Relation.ReflTransGen (Up g) i a

/-- taking out an element changes the order of the others only -/
theorem swapRemove_perm {α : Type} [DecidableEq α] (x : α) (l : List α) : (swapRemove x l).Perm (l.erase x) := by
  induction l with
  | nil => exact List.Perm.refl _
  | cons y rest ih =>
    unfold swapRemove
    split_ifs with hy
    · rw [hy, List.erase_cons_head]
      cases hlast : rest.getLast? with
      | none => rw [List.getLast?_eq_none_iff.1 hlast]
      | some z =>
        have hrest : rest = rest.dropLast ++ [z] := by
          obtain ⟨l', hl'⟩ := List.getLast?_eq_some_iff.1 hlast
          rw [hl', List.dropLast_concat]
        conv_rhs => rw [hrest]
        exact (List.perm_append_singleton z rest.dropLast).symm
    · rw [List.erase_cons_tail (by simpa using hy)]
      exact ih.cons y

variable {n : ℕ} {g g' : EntryId → Option Entry} {i a : EntryId}

/-- where two trees put an id in the same place, both have an entry there or neither has -/
theorem same_place {e : Entry} (hg : (g' i).map (fun e => (e.father, e.descendants)) =
    (g i).map fun e => (e.father, e.descendants)) (he : g i = some e) :
    ∃ e', g' i = some e' ∧ e'.father = e.father ∧ e'.descendants = e.descendants := by
  rw [he, Option.map_some, Option.map_eq_some_iff] at hg
  obtain ⟨e', he', heq⟩ := hg
  exact ⟨e', he', congrArg Prod.fst heq, congrArg Prod.snd heq⟩

namespace Family

/-- only places in the tree matter -/
theorem congr (h : Family n g) (hg : ∀ i, (g' i).map (fun e => (e.father, e.descendants)) =
    (g i).map fun e => (e.father, e.descendants)) : Family n g' := by
  have hback : ∀ i e', g' i = some e' → ∃ e, g i = some e ∧ e.father = e'.father ∧ e.descendants = e'.descendants :=
    fun i _ he' => same_place (hg i).symm he'
  have hforth : ∀ i e, g i = some e → ∃ e', g' i = some e' ∧ e'.father = e.father ∧ e'.descendants = e.descendants :=
    fun i _ he => same_place (hg i) he
  refine ⟨?_, ?_, ?_, ?_⟩
  · intro i e' he'
    obtain ⟨e, he, -⟩ := hback i e' he'
    exact h.range i e he
  · obtain ⟨e, he, hf⟩ := h.root
    obtain ⟨e', he', hf', -⟩ := hforth _ e he
    exact ⟨e', he', hf'.trans hf⟩
  · intro i e' he' hi
    obtain ⟨e, he, hf, -⟩ := hback i e' he'
    obtain ⟨p, hp, hm, hlt⟩ := h.father i e he hi
    obtain ⟨p', hp', -, hd⟩ := hforth _ p hp
    exact ⟨p', hf ▸ hp', hd ▸ hm, hf ▸ hlt⟩
  · intro i e' he'
    obtain ⟨e, he, -, hd⟩ := hback i e' he'
    rw [← hd]
    refine ⟨(h.children i e he).1, fun d hdm => ?_⟩
    obtain ⟨c, hc, hcf⟩ := (h.children i e he).2 d hdm
    obtain ⟨c', hc', hf', -⟩ := hforth _ c hc
    exact ⟨c', hc', hf'.trans hcf⟩

/-! ## Going up -/

theorem up_lt (h : Family n g) (hu : Up g i a) : a.id < i.id := by
  obtain ⟨hi, e, he, rfl⟩ := hu
  obtain ⟨p, -, -, hlt⟩ := h.father i e he hi
  exact hlt

theorem below_le (h : Family n g) (hb : Below g a i) : a.id ≤ i.id := by
  induction hb with
  | refl => exact Nat.le_refl _
  | tail _ hu ih => exact (h.up_lt hu).le.trans ih

theorem up_unique {a' : EntryId} (hu : Up g i a) (hu' : Up g i a') : a = a' := by
  obtain ⟨-, e, he, rfl⟩ := hu
  obtain ⟨-, e', he', rfl⟩ := hu'
  rw [he] at he'
  cases he'
  rfl

/-- the children of one entry have nothing below in common -/
theorem below_disjoint (h : Family n g) {c d : EntryId} (hc : Up g c a) (hd : Up g d a) (hne : c ≠ d)
    (hci : Below g c i) : ¬ Below g d i := by
  intro hdi
  have hright : Relator.RightUnique (Up g) := fun _ _ _ hx hy => up_unique hx hy
  have key : ∀ {c d : EntryId}, Up g c a → Up g d a → c ≠ d → ¬ Relation.ReflTransGen (Up g) c d := by
    intro c d hc hd hne hcd
    rcases Relation.ReflTransGen.cases_head hcd with heq | ⟨b, hb, hbd⟩
    · exact hne heq
    · have hba : b = a := up_unique hb hc
      have h1 := h.below_le (hba ▸ hbd : Below g d a)
      have h2 := h.up_lt hd
      omega
  rcases Relation.ReflTransGen.total_of_right_unique hright hci hdi with hcd | hdc
  · exact key hc hd hne hcd
  · exact key hd hc (Ne.symm hne) hdc

theorem child_up (h : Family n g) {e : Entry} {d : EntryId} (ha : g a = some e) (hd : d ∈ e.descendants) :
    Up g d a := by
  obtain ⟨c, hc, hca⟩ := (h.children a e ha).2 d hd
  refine ⟨fun hroot => ?_, c, hc, hca⟩
  -- the root has no live father
  obtain ⟨r, hr, hrf⟩ := h.root
  rw [hroot, hr] at hc
  cases hc
  have := (h.range a e ha).1
  rw [← hca, hrf] at this
  exact absurd this (by decide)

/-- an entry lists everything whose father it is -/
theorem father_mem (h : Family n g) {e c : Entry} (ha : g a = some e) (hi : g i = some c) (hf : c.father = a) :
    i ∈ e.descendants := by
  have hroot : i ≠ .root := by
    intro heq
    obtain ⟨r, hr, hrf⟩ := h.root
    rw [heq, hr] at hi
    cases hi
    have := (h.range a e ha).1
    rw [← hf, hrf] at this
    exact absurd this (by decide)
  obtain ⟨p, hp, hm, -⟩ := h.father i c hi hroot
  rw [hf, ha] at hp
  cases hp
  exact hm

/-- below an entry are the entry itself and what is below its children -/
theorem below_iff (h : Family n g) {e : Entry} (ha : g a = some e) :
    Below g a i ↔ i = a ∨ ∃ d ∈ e.descendants, Below g d i := by
  constructor
  · intro hb
    rcases Relation.ReflTransGen.cases_tail hb with heq | ⟨d, hid, hd, c, hc, hca⟩
    · exact Or.inl heq.symm
    · obtain ⟨p, hp, hm, -⟩ := h.father d c hc hd
      rw [hca, ha] at hp
      cases hp
      exact Or.inr ⟨d, hm, hid⟩
  · intro hor
    rcases hor with rfl | ⟨d, hd, hid⟩
    · exact Relation.ReflTransGen.refl
    · exact hid.tail (h.child_up ha hd)

/-- only the root is above the root -/
theorem not_below_root (hroot : a ≠ .root) : ¬ Below g a .root := by
  intro hb
  rcases Relation.ReflTransGen.cases_head hb with heq | ⟨b, hb, -⟩
  · exact hroot heq.symm
  · exact hb.1 rfl

theorem live_of_below {e : Entry} (ha : g a = some e) (hb : Below g a i) : ∃ c, g i = some c := by
  rcases Relation.ReflTransGen.cases_head hb with heq | ⟨b, ⟨-, c, hc, -⟩, -⟩
  · exact ⟨e, heq ▸ ha⟩
  · exact ⟨c, hc⟩

theorem not_child_of_root (h : Family n g) {e : Entry} (ha : g a = some e) : EntryId.root ∉ e.descendants :=
  fun hd => (h.child_up ha hd).1 rfl

theorem not_child_of_self (h : Family n g) {e : Entry} (ha : g a = some e) : a ∉ e.descendants :=
  fun hd => Nat.lt_irrefl _ (h.up_lt (h.child_up ha hd))

theorem father_not_child (h : Family n g) {e : Entry} (ha : g a = some e) (hroot : a ≠ .root) :
    e.father ∉ e.descendants :=
  fun hd => Nat.lt_asymm (h.up_lt (h.child_up ha hd)) (h.up_lt ⟨hroot, e, ha, rfl⟩)

/-- an entry lists exactly the entries whose father it is -/
theorem mem_descendants_iff (h : Family n g) {e c : Entry} (ha : g a = some e) (hi : g i = some c) :
    i ∈ e.descendants ↔ c.father = a := by
  refine ⟨fun hd => ?_, h.father_mem ha hi⟩
  obtain ⟨c', hc', hca⟩ := (h.children a e ha).2 i hd
  rw [hi] at hc'
  cases hc'
  exact hca

end Family

/-! ## What changes the tree -/

/-- `⟨n⟩` is new: it has the entry `e` and no children, and its father had the entry `f` -/
structure Sprouted (n : ℕ) (g g' : EntryId → Option Entry) (e f : Entry) : Prop where
  above : g e.father = some f
  childless : e.descendants = []
  entry : ∀ i, g' i = if i = e.father then some { f with descendants := f.descendants ++ [⟨n⟩] }
    else if i = ⟨n⟩ then some e else g i

namespace Sprouted

variable {e f e₀ e' : Entry}

theorem ne_new (hg : Family n g) (he₀ : g i = some e₀) : i ≠ ⟨n⟩ := by
  rintro rfl
  exact absurd (hg.range _ e₀ he₀).2 (Nat.lt_irrefl n)

/-- what is there is the father of the new entry, the new entry, or as before -/
theorem back (h : Sprouted n g g' e f) (he' : g' i = some e') :
    (i = e.father ∧ e' = { f with descendants := f.descendants ++ [⟨n⟩] }) ∨ (i = ⟨n⟩ ∧ e' = e) ∨
      g i = some e' := by
  rw [h.entry] at he'
  split_ifs at he' with hif hin
  · exact Or.inl ⟨hif, (Option.some.inj he').symm⟩
  · exact Or.inr (Or.inl ⟨hin, (Option.some.inj he').symm⟩)
  · exact Or.inr (Or.inr he')

/-- what was there has its father and all its children -/
theorem forth (hg : Family n g) (h : Sprouted n g g' e f) (he₀ : g i = some e₀) :
    ∃ e', g' i = some e' ∧ e'.father = e₀.father ∧ ∀ d ∈ e₀.descendants, d ∈ e'.descendants := by
  rw [h.entry]
  split_ifs with hif hin
  · rw [hif, h.above] at he₀
    cases he₀
    exact ⟨_, rfl, rfl, fun d hd => List.mem_append_left _ hd⟩
  · exact absurd hin (ne_new hg he₀)
  · exact ⟨e₀, he₀, rfl, fun d hd => hd⟩

/-- an entry that was there is still listed by its father -/
theorem listed (hg : Family n g) (h : Sprouted n g g' e f) (he₀ : g i = some e₀) (hi : i ≠ .root) :
    ∃ p, g' e₀.father = some p ∧ i ∈ p.descendants ∧ e₀.father.id < i.id := by
  obtain ⟨p, hp, hm, hlt⟩ := hg.father i e₀ he₀ hi
  obtain ⟨p', hp', -, hsub⟩ := h.forth hg hp
  exact ⟨p', hp', hsub i hm, hlt⟩

/-- the children that an entry had are still there -/
theorem kept (hg : Family n g) (h : Sprouted n g g' e f) (he₀ : g i = some e₀) {d : EntryId}
    (hd : d ∈ e₀.descendants) : ∃ c, g' d = some c ∧ c.father = i := by
  obtain ⟨c, hc, hci⟩ := (hg.children i e₀ he₀).2 d hd
  obtain ⟨c', hc', hcf, -⟩ := h.forth hg hc
  exact ⟨c', hc', hcf.trans hci⟩

theorem entry_new (hg : Family n g) (h : Sprouted n g g' e f) : g' ⟨n⟩ = some e := by
  rw [h.entry, if_neg (ne_new hg h.above).symm, if_pos rfl]

end Sprouted

/-- a fresh entry under a live father -/
theorem Family.mint {e f : Entry} (hg : Family n g) (h : Sprouted n g g' e f) : Family (n + 1) g' := by
  have hfather := hg.range _ f h.above
  refine ⟨?_, ?_, ?_, ?_⟩
  · intro i e' he'
    rcases h.back he' with ⟨rfl, -⟩ | ⟨rfl, -⟩ | he₀
    · omega
    · exact ⟨hfather.1.trans hfather.2.le, Nat.lt_succ_self n⟩
    · have := hg.range i e' he₀
      omega
  · obtain ⟨r, hr, hrf⟩ := hg.root
    obtain ⟨r', hr', hrf', -⟩ := h.forth hg hr
    exact ⟨r', hr', hrf'.trans hrf⟩
  · intro i e' he' hi
    rcases h.back he' with ⟨rfl, rfl⟩ | ⟨rfl, rfl⟩ | he₀
    · have hlisted := h.listed hg h.above hi
      exact hlisted
    · exact ⟨_, (h.entry _).trans (if_pos rfl), List.mem_append_right _ (List.mem_singleton_self _), hfather.2⟩
    · exact h.listed hg he₀ hi
  · intro i e' he'
    rcases h.back he' with ⟨rfl, rfl⟩ | ⟨rfl, rfl⟩ | he₀
    · obtain ⟨hnd, hlive⟩ := hg.children _ f h.above
      refine ⟨hnd.append (List.nodup_singleton _) fun d hd hnew => ?_, fun d hd => ?_⟩
      · obtain ⟨c, hc, -⟩ := hlive d hd
        exact Sprouted.ne_new hg hc (List.mem_singleton.1 hnew)
      · rcases List.mem_append.1 hd with hd | hd
        · exact h.kept hg h.above hd
        · rw [List.mem_singleton.1 hd]
          exact ⟨e, h.entry_new hg, rfl⟩
    · rw [h.childless]
      exact ⟨List.nodup_nil, nofun⟩
    · exact ⟨(hg.children i e' he₀).1, fun d hd => h.kept hg he₀ hd⟩

/-- `a`, with the entry `e`, leaves with everything below it, and its father had the entry `p` -/
structure Felled (g g' : EntryId → Option Entry) (a : EntryId) (e p : Entry) : Prop where
  entry : g a = some e
  notRoot : a ≠ .root
  above : g e.father = some p
  gone : ∀ i, Below g a i → g' i = none
  father : g' e.father = some { p with descendants := swapRemove a p.descendants }
  other : ∀ i, ¬ Below g a i → i ≠ e.father → g' i = g i

namespace Felled

variable {e p e₀ e' : Entry}

theorem up (h : Felled g g' a e p) : Up g a e.father := ⟨h.notRoot, e, h.entry, rfl⟩

/-- what is left was not below `a`, and has its father and its children but `a` -/
theorem back (hg : Family n g) (h : Felled g g' a e p) (he' : g' i = some e') : ¬ Below g a i ∧
    ∃ e₀, g i = some e₀ ∧ e'.father = e₀.father ∧ e'.descendants.Nodup ∧
      ∀ d, d ∈ e'.descendants ↔ d ∈ e₀.descendants ∧ d ≠ a := by
  have hb : ¬ Below g a i := fun hb => by
    rw [h.gone i hb] at he'
    cases he'
  refine ⟨hb, ?_⟩
  by_cases hi : i = e.father
  · rw [hi, h.father] at he'
    cases he'
    have hperm := swapRemove_perm a p.descendants
    have hnd := (hg.children _ p h.above).1
    refine ⟨p, hi ▸ h.above, rfl, hperm.nodup_iff.2 (hnd.erase a), fun d => ?_⟩
    show d ∈ swapRemove a p.descendants ↔ _
    rw [hperm.mem_iff, hnd.mem_erase_iff, and_comm]
  · rw [h.other i hb hi] at he'
    refine ⟨e', he', rfl, (hg.children i e' he').1, fun d => ?_⟩
    rw [iff_self_and]
    rintro hd rfl
    exact hi (Family.up_unique (hg.child_up he' hd) h.up)

/-- what was not below `a` is left, and has its father -/
theorem forth (h : Felled g g' a e p) (he₀ : g i = some e₀) (hb : ¬ Below g a i) :
    ∃ e', g' i = some e' ∧ e'.father = e₀.father := by
  by_cases hi : i = e.father
  · rw [hi, h.above] at he₀
    cases he₀
    exact ⟨{ p with descendants := swapRemove a p.descendants }, hi ▸ h.father, rfl⟩
  · exact ⟨e₀, by rw [h.other i hb hi]; exact he₀, rfl⟩

/-- the children of what is left are left too, but for `a` -/
theorem kept (hg : Family n g) (h : Felled g g' a e p) (he₀ : g i = some e₀) (hb : ¬ Below g a i) {d : EntryId}
    (hd : d ∈ e₀.descendants) (hda : d ≠ a) : ∃ c, g' d = some c ∧ c.father = i := by
  obtain ⟨c, hc, hci⟩ := (hg.children i e₀ he₀).2 d hd
  have hbd : ¬ Below g a d := by
    intro hbd
    rcases Relation.ReflTransGen.cases_head hbd with heq | ⟨b, hdb, hba⟩
    · exact hda heq
    · have hbi : b = i := Family.up_unique hdb (hg.child_up he₀ hd)
      exact hb (hbi ▸ hba)
  obtain ⟨c', hc', hcf⟩ := h.forth hc hbd
  exact ⟨c', hc', hcf.trans hci⟩

end Felled

/-- an entry leaves with all below it -/
theorem Family.prune {e p : Entry} (hg : Family n g) (h : Felled g g' a e p) : Family n g' := by
  refine ⟨?_, ?_, ?_, ?_⟩
  · intro i e' he'
    obtain ⟨-, e₀, he₀, -⟩ := h.back hg he'
    exact hg.range i e₀ he₀
  · obtain ⟨r, hr, hrf⟩ := hg.root
    obtain ⟨r', hr', hrf'⟩ := h.forth hr (not_below_root h.notRoot)
    exact ⟨r', hr', hrf'.trans hrf⟩
  · intro i e' he' hi
    obtain ⟨hb, e₀, he₀, hf, -⟩ := h.back hg he'
    obtain ⟨q, hq, hm, hlt⟩ := hg.father i e₀ he₀ hi
    have hup : Up g i e₀.father := ⟨hi, e₀, he₀, rfl⟩
    obtain ⟨q', hq', -⟩ := h.forth hq fun hbq => hb (Relation.ReflTransGen.head hup hbq)
    obtain ⟨-, q₀, hq₀, -, -, hlists⟩ := h.back hg hq'
    obtain rfl : q = q₀ := Option.some.inj (hq.symm.trans hq₀)
    refine ⟨q', hf ▸ hq', (hlists i).2 ⟨hm, ?_⟩, hf ▸ hlt⟩
    rintro rfl
    exact hb Relation.ReflTransGen.refl
  · intro i e' he'
    obtain ⟨hb, e₀, he₀, -, hnd, hlists⟩ := h.back hg he'
    exact ⟨hnd, fun d hd => h.kept hg he₀ hb ((hlists d).1 hd).1 ((hlists d).1 hd).2⟩

/-- `a`, with the entry `e`, leaves alone, and its children go to its father, which had the entry `p` -/
structure Adopted (g g' : EntryId → Option Entry) (a : EntryId) (e p : Entry) : Prop where
  entry : g a = some e
  notRoot : a ≠ .root
  above : g e.father = some p
  gone : g' a = none
  father : g' e.father = some { p with descendants := swapRemove a p.descendants ++ e.descendants }
  child : ∀ d ∈ e.descendants, g' d = (g d).map fun c => { c with father := e.father }
  other : ∀ i, i ≠ a → i ≠ e.father → i ∉ e.descendants → g' i = g i

namespace Adopted

variable {e p e₀ e' : Entry}

theorem up (h : Adopted g g' a e p) : Up g a e.father := ⟨h.notRoot, e, h.entry, rfl⟩

/-- only the father lists `a` -/
theorem ne_of_listed (hg : Family n g) (h : Adopted g g' a e p) (he₀ : g i = some e₀) (hi : i ≠ e.father)
    {d : EntryId} (hd : d ∈ e₀.descendants) : d ≠ a := by
  intro heq
  subst heq
  exact hi (Family.up_unique (hg.child_up he₀ hd) h.up)

theorem mem_father (hg : Family n g) (h : Adopted g g' a e p) (d : EntryId) :
    d ∈ swapRemove a p.descendants ++ e.descendants ↔ (d ∈ p.descendants ∧ d ≠ a) ∨ d ∈ e.descendants := by
  rw [List.mem_append, (swapRemove_perm a p.descendants).mem_iff, (hg.children _ p h.above).1.mem_erase_iff, and_comm]

/-- what is left is a child of `a`, the father of `a`, or as before -/
theorem back (h : Adopted g g' a e p) (he' : g' i = some e') : i ≠ a ∧ ∃ e₀, g i = some e₀ ∧
    ((i ∈ e.descendants ∧ e' = { e₀ with father := e.father }) ∨
      (i = e.father ∧ e₀ = p ∧ e' = { p with descendants := swapRemove a p.descendants ++ e.descendants }) ∨
      (i ≠ e.father ∧ i ∉ e.descendants ∧ e' = e₀)) := by
  have hia : i ≠ a := by
    intro heq
    subst heq
    rw [h.gone] at he'
    cases he'
  refine ⟨hia, ?_⟩
  by_cases hd : i ∈ e.descendants
  · rw [h.child i hd] at he'
    obtain ⟨e₀, he₀, rfl⟩ := Option.map_eq_some_iff.1 he'
    exact ⟨e₀, he₀, Or.inl ⟨hd, rfl⟩⟩
  · by_cases hi : i = e.father
    · rw [hi, h.father] at he'
      cases he'
      exact ⟨p, hi ▸ h.above, Or.inr (Or.inl ⟨hi, rfl, rfl⟩)⟩
    · rw [h.other i hia hi hd] at he'
      exact ⟨e', he', Or.inr (Or.inr ⟨hi, hd, rfl⟩)⟩

/-- an entry that stays keeps its father, if that stays, and lists at least what stays of its children -/
theorem forth (hg : Family n g) (h : Adopted g g' a e p) (he₀ : g i = some e₀) (hia : i ≠ a) :
    ∃ e', g' i = some e' ∧ (e'.father = if i ∈ e.descendants then e.father else e₀.father) ∧
      ∀ d ∈ e₀.descendants, d ≠ a → d ∈ e'.descendants := by
  by_cases hd : i ∈ e.descendants
  · exact ⟨{ e₀ with father := e.father }, by rw [h.child i hd, he₀]; rfl, by rw [if_pos hd], fun _ hd _ => hd⟩
  · rw [if_neg hd]
    by_cases hi : i = e.father
    · rw [hi, h.above] at he₀
      cases he₀
      exact ⟨{ p with descendants := swapRemove a p.descendants ++ e.descendants }, hi ▸ h.father, rfl,
        fun d hd hda => (h.mem_father hg d).2 (Or.inl ⟨hd, hda⟩)⟩
    · exact ⟨e₀, by rw [h.other i hia hi hd]; exact he₀, rfl, fun _ hd _ => hd⟩

/-- an entry that keeps its father is still listed by it -/
theorem listed (hg : Family n g) (h : Adopted g g' a e p) (he₀ : g i = some e₀) (hi : i ≠ .root) (hia : i ≠ a)
    (hd : i ∉ e.descendants) : ∃ q, g' e₀.father = some q ∧ i ∈ q.descendants ∧ e₀.father.id < i.id := by
  obtain ⟨q, hq, hm, hlt⟩ := hg.father i e₀ he₀ hi
  have hfa : e₀.father ≠ a := by
    intro heq
    rw [heq, h.entry] at hq
    cases hq
    exact hd hm
  obtain ⟨q', hq', -, hsub⟩ := h.forth hg hq hfa
  exact ⟨q', hq', hsub i hm hia, hlt⟩

/-- an entry that stays is still the father of those of its children that stay -/
theorem kept (hg : Family n g) (h : Adopted g g' a e p) (he₀ : g i = some e₀) (hia : i ≠ a) {d : EntryId}
    (hd : d ∈ e₀.descendants) (hda : d ≠ a) : ∃ c, g' d = some c ∧ c.father = i := by
  obtain ⟨c, hc, hci⟩ := (hg.children i e₀ he₀).2 d hd
  obtain ⟨c', hc', hcf, -⟩ := h.forth hg hc hda
  have hdn : d ∉ e.descendants := fun hd' =>
    hia (Family.up_unique (hg.child_up he₀ hd) (hg.child_up h.entry hd'))
  rw [if_neg hdn] at hcf
  exact ⟨c', hc', hcf.trans hci⟩

/-- the new list of the father names each child once -/
theorem nodup (hg : Family n g) (h : Adopted g g' a e p) : (swapRemove a p.descendants ++ e.descendants).Nodup := by
  have hperm := swapRemove_perm a p.descendants
  have hnd := (hg.children _ p h.above).1
  refine List.nodup_append.2 ⟨hperm.nodup_iff.2 (hnd.erase a), (hg.children a e h.entry).1, fun x hx y hy hxy => ?_⟩
  have hx' := (hnd.mem_erase_iff.1 (hperm.mem_iff.1 hx)).2
  have hfather : e.father = a :=
    Family.up_unique (hg.child_up h.above hx') (hg.child_up h.entry (hxy ▸ hy : x ∈ e.descendants))
  exact absurd (hg.up_lt h.up) (by rw [hfather]; exact Nat.lt_irrefl _)

end Adopted

/-- the same from one equation for all entries that stay -/
theorem Family.adopted {e : Entry} (hg : Family n g) (ha : g a = some e) (hroot : a ≠ .root) (hgone : g' a = none)
    (hmoved : ∀ i, i ≠ a → g' i = (g i).map fun c => { c with
      father := if c.father = a then e.father else c.father
      descendants := if i = e.father then swapRemove a c.descendants ++ e.descendants else c.descendants }) :
    ∃ p, Adopted g g' a e p := by
  obtain ⟨p, hp, -, hlt⟩ := hg.father a e ha hroot
  have hfather := hg.father_not_child ha hroot
  refine ⟨p, ha, hroot, hp, hgone, ?_, fun d hd => ?_, fun i hia hif hid => ?_⟩
  · have hne : e.father ≠ a := fun heq => by rw [heq] at hlt; exact Nat.lt_irrefl _ hlt
    rw [hmoved _ hne, hp, Option.map_some, if_neg (mt (hg.mem_descendants_iff ha hp).2 hfather), if_pos rfl]
  · obtain ⟨c, hc, hca⟩ := (hg.children a e ha).2 d hd
    have hda : d ≠ a := fun heq => hg.not_child_of_self ha (heq ▸ hd)
    have hdf : d ≠ e.father := fun heq => hfather (heq ▸ hd)
    rw [hmoved d hda, hc, Option.map_some, Option.map_some, if_pos hca, if_neg hdf]
  · rw [hmoved i hia]
    cases hc : g i with
    | none => rfl
    | some c => rw [Option.map_some, if_neg (mt (hg.mem_descendants_iff ha hc).2 hid), if_neg hif]

/-- an entry leaves alone, and its children go to its father -/
theorem Family.adopt {e p : Entry} (hg : Family n g) (h : Adopted g g' a e p) : Family n g' := by
  refine ⟨?_, ?_, ?_, ?_⟩
  · intro i e' he'
    obtain ⟨-, e₀, he₀, -⟩ := h.back he'
    exact hg.range i e₀ he₀
  · obtain ⟨r, hr, hrf⟩ := hg.root
    obtain ⟨r', hr', hrf', -⟩ := h.forth hg hr (Ne.symm h.notRoot)
    rw [if_neg (hg.not_child_of_root h.entry)] at hrf'
    exact ⟨r', hr', hrf'.trans hrf⟩
  · intro i e' he' hi
    obtain ⟨hia, e₀, he₀, ⟨hd, rfl⟩ | ⟨hif, rfl, rfl⟩ | ⟨-, hd, rfl⟩⟩ := h.back he'
    · exact ⟨_, h.father, List.mem_append_right _ hd, (hg.up_lt h.up).trans (hg.up_lt (hg.child_up h.entry hd))⟩
    · have hlisted := h.listed hg he₀ hi hia (hif ▸ hg.father_not_child h.entry h.notRoot)
      exact hlisted
    · exact h.listed hg he₀ hi hia hd
  · intro i e' he'
    obtain ⟨hia, e₀, he₀, ⟨hd, rfl⟩ | ⟨rfl, rfl, rfl⟩ | ⟨hif, -, rfl⟩⟩ := h.back he'
    · have hif : i ≠ e.father := fun heq => hg.father_not_child h.entry h.notRoot (heq ▸ hd)
      exact ⟨(hg.children i e₀ he₀).1, fun d hdm => h.kept hg he₀ hia hdm (h.ne_of_listed hg he₀ hif hdm)⟩
    · refine ⟨h.nodup hg, fun d hd => ?_⟩
      rcases (h.mem_father hg d).1 hd with ⟨hd₀, hda⟩ | hd'
      · exact h.kept hg he₀ hia hd₀ hda
      · obtain ⟨c, hc, -⟩ := (hg.children a e h.entry).2 d hd'
        exact ⟨{ c with father := e.father }, by rw [h.child d hd', hc]; rfl, rfl⟩
    · exact ⟨(hg.children i e' he₀).1, fun d hdm => h.kept hg he₀ hia hdm (h.ne_of_listed hg he₀ hif hdm)⟩

end ModelCount
