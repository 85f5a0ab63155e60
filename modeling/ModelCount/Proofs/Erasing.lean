/-
Erasing with everything below, alone, and in eviction rounds.

What is erased with an entry is exactly what is below it (`subtree_spec`), so that no entry is left with a dead father
and no chain leads to a dead entry. An entry that is erased alone leaves its children to its father. Whatever an
eviction erases is deletable; every other entry keeps its signature, flag and count (`evict_spec`).
-/
import Mathlib.Tactic
import ModelCount.Proofs.Upkeep

namespace ModelCount.Store

variable {s s' : Store} {id i : EntryId} {e : Entry}

theorem core_put {e' : Entry} : (s.put id e').core i = if i = id then some e'.core else s.core i := by
  rw [core, get?_put]
  split_ifs <;> rfl

/-! ## The entries below one -/

/-- the ids of live entries from a number on -/
def idsFrom (s : Store) (k : ℕ) : List EntryId := (s.live.map Prod.fst).filter fun i => decide (k ≤ i.id)

theorem mem_idsFrom {k : ℕ} : i ∈ s.idsFrom k ↔ s.has i = true ∧ k ≤ i.id := by
  rw [idsFrom, List.mem_filter, decide_eq_true_eq, mem_liveIds]

theorem nodup_idsFrom (k : ℕ) : (s.idsFrom k).Nodup := nodup_live.filter _

/-- from a child on there are fewer live entries than from its father on -/
theorem length_idsFrom_lt {a d : EntryId} (ha : s.has a = true) (hlt : a.id < d.id) :
    (s.idsFrom d.id).length < (s.idsFrom a.id).length := by
  have hnd : (a :: s.idsFrom d.id).Nodup := by
    refine List.nodup_cons.2 ⟨fun hm => ?_, nodup_idsFrom _⟩
    have := (mem_idsFrom.1 hm).2
    omega
  have hsub : a :: s.idsFrom d.id ⊆ s.idsFrom a.id := by
    intro i hi
    rcases List.mem_cons.1 hi with rfl | hi
    · exact mem_idsFrom.2 ⟨ha, Nat.le_refl _⟩
    · obtain ⟨h1, h2⟩ := mem_idsFrom.1 hi
      exact mem_idsFrom.2 ⟨h1, hlt.le.trans h2⟩
  exact (hnd.subperm hsub).length_le

theorem subtree_succ (s : Store) (depth : ℕ) (id : EntryId) :
    s.subtree (depth + 1) id = match s.core id with
      | none => .ok []
      | some c => c.descendants.mapM (s.subtree depth) >>= fun below => .ok (id :: below.flatten) := by
  rw [subtree, core]
  cases s.get? id <;> rfl

/-- **Below an entry.** With enough depth the enumeration lists exactly the entries below, each once, this entry first.
It looks at no others: they may have changed since. -/
theorem subtree_spec (h : Sound s) {depth : ℕ} {c : Entry} (hid : s.core id = some c)
    (hdepth : (s.idsFrom id.id).length ≤ depth) (hsame : ∀ i, Below s.core id i → s'.core i = s.core i) :
    ∃ l, s'.subtree depth id = .ok (id :: l) ∧ (∀ i, i ∈ id :: l ↔ Below s.core id i) ∧ (id :: l).Nodup := by
  have hlive : s.has id = true := by rw [has_eq_core, hid]; rfl
  induction depth generalizing id c with
  | zero =>
    have := List.length_pos_of_mem (mem_idsFrom.2 ⟨hlive, Nat.le_refl id.id⟩)
    omega
  | succ depth ih =>
    have hchild : ∀ d ∈ c.descendants, ∃ l, s'.subtree depth d = .ok l ∧ (∀ i, i ∈ l ↔ Below s.core d i) ∧ l.Nodup := by
      intro d hd
      have hup := h.family.child_up hid hd
      obtain ⟨x, hx, -⟩ := (h.family.children id c hid).2 d hd
      have hless := length_idsFrom_lt hlive (h.family.up_lt hup)
      obtain ⟨l, hl⟩ := ih hx (by omega) (fun i hi => hsame i (hi.tail hup)) (by rw [has_eq_core, hx]; rfl)
      exact ⟨d :: l, hl⟩
    choose! below hbelow hmem hnodup using hchild
    refine ⟨c.descendants.flatMap below, ?_, fun i => ?_, List.nodup_cons.2 ⟨fun hm => ?_, ?_⟩⟩
    · rw [subtree_succ, hsame id Relation.ReflTransGen.refl, hid]
      simp only
      rw [mapM_eq_ok hbelow]
      rfl
    · rw [h.family.below_iff hid, List.mem_cons, List.mem_flatMap]
      exact or_congr_right (exists_congr fun d => and_congr_right fun hd => hmem d hd i)
    · obtain ⟨d, hd, hm⟩ := List.mem_flatMap.1 hm
      have h1 := h.family.below_le ((hmem d hd id).1 hm)
      have h2 := h.family.up_lt (h.family.child_up hid hd)
      omega
    · refine List.nodup_flatMap.2 ⟨hnodup, ?_⟩
      refine (h.family.children id c hid).1.pairwise_of_forall_ne fun a ha d hd hne => ?_
      intro i hi hi'
      exact h.family.below_disjoint (h.family.child_up hid ha) (h.family.child_up hid hd) hne ((hmem a ha i).1 hi)
        ((hmem d hd i).1 hi')

/-! ## Other places in the tree -/

/-- a live entry gets another father or other children -/
theorem update_spec (h : Stocked s) {c : Entry} (hid : s.core id = some c) {f : Entry → Entry}
    (hf : ∀ e, (f e).core = f e.core ∧ (f e).signature = e.signature ∧ (f e).count = e.count ∧ (f e).next = e.next) :
    ∃ s', s.update id f = .ok s' ∧ Stocked s' ∧ KeepsTable s s' ∧ s'.nextId = s.nextId ∧
      ∀ i, s'.core i = if i = id then (s.core i).map f else s.core i := by
  obtain ⟨e, he, rfl⟩ := get?_of_core hid
  obtain ⟨hcore, hsig, hcount, hnext⟩ := hf e
  refine ⟨s.put id (f e), update_eq he, h.amend he hsig hcount hnext, keepsTable_put he hsig hcount hnext, rfl,
    fun i => ?_⟩
  rw [core_put]
  split_ifs with hi
  · rw [hi, hid, Option.map_some, hcore]
  · rfl

/-- an entry leaves the list of its father -/
theorem disown_spec (h : Stocked s) {father : EntryId} {p : Entry} (hp : s.core father = some p) (id : EntryId) :
    ∃ s', s.disown father id = .ok s' ∧ Stocked s' ∧ KeepsTable s s' ∧ s'.nextId = s.nextId ∧
      ∀ i, s'.core i = if i = father then (s.core i).map fun p => { p with descendants := swapRemove id p.descendants }
        else s.core i :=
  update_spec h hp fun _ => ⟨rfl, rfl, rfl, rfl⟩

/-- a live entry gets a new father -/
theorem adopt_spec (h : Stocked s) {father d : EntryId} {p c : Entry} (hp : s.core father = some p)
    (hd : s.core d = some c) (hne : father ≠ d) :
    ∃ s', adopt father s d = .ok s' ∧ Stocked s' ∧ KeepsTable s s' ∧ s'.nextId = s.nextId ∧
      ∀ i, s'.core i = if i = father then (s.core i).map fun p => { p with descendants := p.descendants ++ [d] }
        else if i = d then (s.core i).map fun c => { c with father := father } else s.core i := by
  obtain ⟨s1, h1, hs1, ht1, hn1, hcore1⟩ :=
    update_spec h hd (f := fun e => { e with father := father }) fun _ => ⟨rfl, rfl, rfl, rfl⟩
  have hp1 : s1.core father = some p := by rw [hcore1, if_neg hne, hp]
  obtain ⟨s2, h2, hs2, ht2, hn2, hcore2⟩ :=
    update_spec hs1 hp1 (f := fun e => { e with descendants := e.descendants ++ [d] }) fun _ => ⟨rfl, rfl, rfl, rfl⟩
  refine ⟨s2, by rw [adopt, h1, Except.ok_bind, h2], hs2, ht1.trans ht2, hn2.trans hn1, fun i => ?_⟩
  rw [hcore2, hcore1]
  by_cases hif : i = father
  · rw [if_pos hif, if_pos hif, if_neg fun hid => hne (hif.symm.trans hid)]
  · rw [if_neg hif, if_neg hif]

/-- several live entries get a new father -/
theorem foldlM_adopt_spec {father : EntryId} {p : Entry} {l : List EntryId} (h : Stocked s)
    (hp : s.core father = some p) (hd : l.Nodup) (hl : ∀ d ∈ l, ∃ c, s.core d = some c) (hnot : father ∉ l) :
    ∃ s', l.foldlM (adopt father) s = .ok s' ∧ Stocked s' ∧ KeepsTable s s' ∧ s'.nextId = s.nextId ∧
      ∀ i, s'.core i = if i = father then (s.core i).map fun p => { p with descendants := p.descendants ++ l }
        else if i ∈ l then (s.core i).map fun c => { c with father := father } else s.core i := by
  induction l generalizing s p with
  | nil => exact ⟨s, rfl, h, KeepsTable.refl s, rfl, fun i => by simp⟩
  | cons d l ih =>
    obtain ⟨hdl, hd'⟩ := List.nodup_cons.1 hd
    obtain ⟨hfd, hfl⟩ : father ≠ d ∧ father ∉ l := by simpa using hnot
    obtain ⟨c, hc⟩ := hl d List.mem_cons_self
    obtain ⟨s1, h1, hs1, ht1, hn1, hcore1⟩ := adopt_spec h hp hc hfd
    have hlive : ∀ x ∈ l, ∃ c, s1.core x = some c := by
      intro x hx
      have hxf : x ≠ father := fun heq => hfl (heq ▸ hx)
      have hxd : x ≠ d := fun heq => hdl (heq ▸ hx)
      rw [hcore1, if_neg hxf, if_neg hxd]
      exact hl x (List.mem_cons_of_mem _ hx)
    obtain ⟨s', k1, hs', kt, kn, kcore⟩ := ih hs1 (by rw [hcore1, if_pos rfl, hp, Option.map_some]) hd' hlive hfl
    refine ⟨s', by rw [List.foldlM_cons, h1, Except.ok_bind, k1], hs', ht1.trans kt, kn.trans hn1, fun i => ?_⟩
    rw [kcore, hcore1]
    by_cases hif : i = father
    · simp [hif, Function.comp_def]
    · by_cases hid : i = d
      · rw [if_neg hif, if_neg hif, hid, if_neg hdl, if_pos rfl, if_neg (Ne.symm hfd), if_pos List.mem_cons_self]
      · simp [hif, hid]

/-! ## Erasing with everything below -/

/-- **Erasing with everything below.** -/
theorem eraseBelow_spec (h : Sound s) (hid : s.get? id = some e) (hroot : id ≠ .root) :
    ∃ s', s.eraseBelow id = .ok s' ∧ Sound s' ∧ KeepsTable s s' ∧ s'.nextId = s.nextId ∧
      ∀ i, (Below s.core id i → s'.core i = none) ∧
        (¬ Below s.core id i → s'.core i = if i = e.father
          then (s.core i).map fun p => { p with descendants := swapRemove id p.descendants } else s.core i) := by
  have hcore := core_eq hid
  obtain ⟨p, hp, -, hlt⟩ : ∃ p, s.core e.father = some p ∧ id ∈ p.descendants ∧ e.father.id < id.id :=
    h.family.father id e.core hcore hroot
  have hfb : ¬ Below s.core id e.father := fun hb => absurd hlt (Nat.not_lt.2 (h.family.below_le hb))
  obtain ⟨s1, hdisown, hs1, ht1, hn1, hcore1⟩ := disown_spec h.toStocked hp id
  have hsame : ∀ i, Below s.core id i → s1.core i = s.core i := by
    intro i hi
    have hif : i ≠ e.father := fun heq => hfb (heq ▸ hi)
    rw [hcore1, if_neg hif]
  -- the depth is enough, as no entry has gone yet
  have hdepth : (s.idsFrom id.id).length ≤ s1.size := by
    refine length_le_size (nodup_idsFrom _) fun i hi => ?_
    rw [has_eq_core, hcore1]
    have hlive := (mem_idsFrom.1 hi).1
    rw [has_eq_core] at hlive
    split_ifs
    · rwa [Option.isSome_map]
    · exact hlive
  obtain ⟨l, hlist, hmem, hnd⟩ := subtree_spec h hcore hdepth hsame
  have hlive : ∀ i ∈ id :: l, ∃ c, s1.core i = some c := fun i hi => by
    rw [hsame i ((hmem i).1 hi)]
    exact Family.live_of_below hcore ((hmem i).1 hi)
  obtain ⟨s', hrun, hs', ht', hn', hcore'⟩ := foldlM_erase_spec hs1 hnd hlive fun hr =>
    Family.not_below_root hroot ((hmem _).1 hr)
  have hspec : ∀ i, (Below s.core id i → s'.core i = none) ∧
      (¬ Below s.core id i → s'.core i = if i = e.father
        then (s.core i).map fun p => { p with descendants := swapRemove id p.descendants } else s.core i) := by
    intro i
    rw [hcore']
    exact ⟨fun hb => if_pos ((hmem i).2 hb), fun hb => by rw [if_neg fun hi => hb ((hmem i).1 hi), hcore1]⟩
  refine ⟨s', ?_, ⟨hs', ?_⟩, ht1.trans ht', hn'.trans hn1, hspec⟩
  · obtain ⟨f, hf, -⟩ := get?_of_core hp
    rw [eraseBelow, entry_eq hid, Except.ok_bind, if_pos (has_of_get? hf), hdisown, Except.ok_bind, hlist,
      Except.ok_bind, hrun]
  · rw [hn', hn1]
    exact h.family.prune ⟨hcore, hroot, hp, fun i hi => (hspec i).1 hi,
      ((hspec e.father).2 hfb).trans (by rw [if_pos rfl, hp, Option.map_some]),
      fun i hi hif => ((hspec i).2 hi).trans (if_neg hif)⟩

/-- the root is not erased -/
theorem eraseBelow_root (h : Sound s) : s.eraseBelow .root = .error .rootErased := by
  obtain ⟨c, hc, hfather⟩ : ∃ c, s.core .root = some c ∧ c.father = .none := h.family.root
  obtain ⟨e, he, rfl⟩ := get?_of_core hc
  obtain ⟨l, hlist, -⟩ := subtree_spec h hc (length_le_size (nodup_idsFrom _) fun i hi => (mem_idsFrom.1 hi).1)
    fun _ _ => rfl
  have hlone : ¬ s.has e.father = true := by
    rw [has_iff, show e.father = .none from hfather]
    intro hex
    rcases hex with ⟨x, hx⟩
    exact h.ne_none hx rfl
  rw [eraseBelow, entry_eq he, Except.ok_bind, if_neg hlone, hlist, Except.ok_bind, List.foldlM_cons]
  unfold erase require
  rw [if_neg (by simp)]
  rfl

/-! ## Erasing alone -/

/-- **Detaching.** The children of the entry go to its father, at the end of the list in which it stood. -/
theorem detach_spec (h : Sound s) (hid : s.get? id = some e) (hroot : id ≠ .root) :
    ∃ s', s.detach id = .ok s' ∧ Stocked s' ∧ KeepsTable s s' ∧ s'.nextId = s.nextId ∧ (∃ c, s'.core id = some c) ∧
      ∀ i, i ≠ id → s'.core i = (s.core i).map fun c => { c with
        father := if c.father = id then e.father else c.father
        descendants := if i = e.father then swapRemove id c.descendants ++ e.descendants else c.descendants } := by
  have hcore := core_eq hid
  obtain ⟨p, hp, -, hlt⟩ : ∃ p, s.core e.father = some p ∧ id ∈ p.descendants ∧ e.father.id < id.id :=
    h.family.father id e.core hcore hroot
  have hne : id ≠ e.father := fun heq => by rw [← heq] at hlt; exact Nat.lt_irrefl _ hlt
  have hnodup : e.descendants.Nodup := (h.family.children id e.core hcore).1
  have hself : id ∉ e.descendants := Family.not_child_of_self (e := e.core) h.family hcore
  have hfather : e.father ∉ e.descendants := Family.father_not_child (e := e.core) h.family hcore hroot
  -- out of the list of the father, then the children out of the own list
  obtain ⟨s1, h1, hs1, ht1, hn1, hcore1⟩ := disown_spec h.toStocked hp id
  obtain ⟨s2, h2, hs2, ht2, hn2, hcore2⟩ := update_spec hs1 (by rw [hcore1, if_neg hne, hcore])
    (f := fun e => { e with descendants := [] }) fun _ => ⟨rfl, rfl, rfl, rfl⟩
  have hold : ∀ i, i ≠ id → s2.core i = if i = e.father then
      (s.core i).map fun p => { p with descendants := swapRemove id p.descendants } else s.core i := fun i hi => by
    rw [hcore2, if_neg hi, hcore1]
  have hlive : ∀ d ∈ e.descendants, ∃ c, s2.core d = some c := by
    intro d hd
    obtain ⟨c, hc, -⟩ := (h.family.children id e.core hcore).2 d hd
    have hdid : d ≠ id := fun heq => hself (heq ▸ hd)
    have hdf : d ≠ e.father := fun heq => hfather (heq ▸ hd)
    exact ⟨c, by rw [hold d hdid, if_neg hdf, hc]⟩
  obtain ⟨s3, h3, hs3, ht3, hn3, hcore3⟩ := foldlM_adopt_spec hs2
    (by rw [hold _ (Ne.symm hne), if_pos rfl, hp, Option.map_some]) hnodup hlive hfather
  refine ⟨s3, ?_, hs3, (ht1.trans ht2).trans ht3, (hn3.trans hn2).trans hn1, ⟨{ e.core with descendants := [] }, ?_⟩,
    fun i hi => ?_⟩
  · obtain ⟨f, hf, -⟩ := get?_of_core hp
    rw [detach, entry_eq hid, Except.ok_bind, require_pos (has_of_get? hf), Except.ok_bind, h1, Except.ok_bind, h2,
      Except.ok_bind, h3]
  · rw [hcore3, if_neg hne, if_neg hself, hcore2, if_pos rfl, hcore1, if_neg hne, hcore, Option.map_some]
  · rw [hcore3, hold i hi]
    cases hc : s.core i with
    | none => simp
    | some c =>
      -- the entry lists exactly those whose father it is
      have hchild : i ∈ e.descendants ↔ c.father = id := Family.mem_descendants_iff (e := e.core) h.family hcore hc
      by_cases hif : i = e.father
      · have hnot : ¬ c.father = id := fun heq => hfather (hif ▸ hchild.2 heq)
        simp [hif, hnot]
      · by_cases hd : c.father = id <;> simp [hif, hchild, hd]

/-- **Erasing alone.** The children of the entry go to its father, at the end of the list in which it stood. -/
theorem eraseAlone_spec (h : Sound s) (hid : s.get? id = some e) (hroot : id ≠ .root) :
    ∃ s', s.eraseAlone id = .ok s' ∧ Sound s' ∧ KeepsTable s s' ∧ s'.nextId = s.nextId ∧ s'.core id = none ∧
      ∀ i, i ≠ id → s'.core i = (s.core i).map fun c => { c with
        father := if c.father = id then e.father else c.father
        descendants := if i = e.father then swapRemove id c.descendants ++ e.descendants else c.descendants } := by
  obtain ⟨s1, hdetach, hs1, ht1, hn1, ⟨c, hc⟩, hmoved⟩ := detach_spec h hid hroot
  obtain ⟨e1, he1, -⟩ := get?_of_core hc
  obtain ⟨s', herase, hs', ht', hn', hcore'⟩ := erase_spec hs1 he1 hroot
  have hgone : s'.core id = none := by rw [hcore', if_pos rfl]
  have hspec : ∀ i, i ≠ id → s'.core i = _ := fun i hi => by rw [hcore', if_neg hi, hmoved i hi]
  refine ⟨s', by rw [eraseAlone, hdetach, Except.ok_bind, herase], ⟨hs', ?_⟩, ht1.trans ht', hn'.trans hn1, hgone, hspec⟩
  obtain ⟨p, hadopted⟩ := h.family.adopted (core_eq hid) hroot hgone hspec
  rw [hn', hn1]
  exact h.family.adopt hadopted

/-- erasing an entry alone keeps all others, and their fathers -/
theorem eraseAlone_keeps (h : Sound s) (hid : s.get? id = some e) (hroot : id ≠ .root) :
    ∃ s', s.eraseAlone id = .ok s' ∧ Sound s' ∧ KeepsTable s s' ∧ s'.size + 1 = s.size ∧ Keeps (· ≠ id) 0 s s' := by
  obtain ⟨s', h1, h2, h3, h4, h5, h6⟩ := eraseAlone_spec h hid hroot
  refine ⟨s', h1, h2, h3, size_of_gone (has_of_get? hid) fun i => ?_, h4, fun i x hi hx => ?_, fun i p hi hp hx => ?_,
    fun i x hx => ?_⟩
  · rw [has_eq_core, has_eq_core]
    by_cases hi : i = id
    · simp [hi, h5]
    · rw [h6 i hi, Option.isSome_map]
      simp [hi]
  · rw [key_eq_core] at hx ⊢
    rw [h6 i hi, Option.map_map]
    exact hx
  · rw [fatherOf_eq_core] at hx ⊢
    obtain ⟨c, hc, rfl⟩ := Option.map_eq_some_iff.1 hx
    rw [h6 i hi, hc, Option.map_some, Option.map_some, if_neg hp]
  · have hi : i ≠ id := by
      intro heq
      subst heq
      rw [counted_eq_core, h5] at hx
      cases hx
    rw [counted_eq_core] at hx ⊢
    rw [h6 i hi, Option.bind_map] at hx
    exact hx

/-! ## Eviction -/

/-- the entry is not flagged deletable -/
def Held (s : Store) (i : EntryId) : Prop := ∃ signature, s.key i = some (signature, false)

theorem key_eq (h : s.get? i = some e) : s.key i = some (e.signature, e.deletable) := by
  rw [key, h, Option.map_some]

theorem get?_of_key {x : Signature × Bool} (h : s.key i = some x) :
    ∃ e, s.get? i = some e ∧ e.signature = x.1 ∧ e.deletable = x.2 := by
  obtain ⟨e, he, rfl⟩ := Option.map_eq_some_iff.1 h
  exact ⟨e, he, rfl, rfl⟩

/-- what is held stays held, as long as it is kept -/
theorem Keeps.held {s'' : Store} (h : Keeps (Held s) 0 s s') (h' : Keeps (Held s') 0 s' s'') :
    Keeps (Held s) 0 s s'' := by
  refine h.trans (h'.mono fun i hi => ?_)
  obtain ⟨signature, hkey⟩ := hi
  exact ⟨signature, h.key i _ ⟨signature, hkey⟩ hkey⟩

theorem mem_victims (hi : i ∈ s.victims) : ∃ e, s.get? i = some e ∧ e.deletable = true ∧ i ≠ .root := by
  unfold victims candidates at hi
  obtain ⟨p, hp, rfl⟩ := List.mem_map.1 hi
  obtain ⟨hp, -⟩ := List.mem_filter.1 hp
  obtain ⟨hp, hflag⟩ := List.mem_filter.1 hp
  rw [Bool.and_eq_true, bne_iff_ne] at hflag
  exact ⟨p.2, mem_live.1 hp, hflag.2, hflag.1⟩

/-- where nothing can be evicted a round does nothing -/
theorem evictRound_idle (h : s.candidates = []) : s.evictRound.result = .ok (0, s) := by
  rw [evictRound, h]
  rfl

theorem nodup_victims : s.victims.Nodup := by
  unfold victims candidates
  exact nodup_live.sublist ((List.filter_sublist.trans List.filter_sublist).map _)

/-- several different entries are erased alone -/
theorem foldlM_eraseAlone_spec {l : List EntryId} (h : Sound s) (hd : l.Nodup)
    (hl : ∀ i ∈ l, s.has i = true ∧ i ≠ .root) :
    ∃ s', l.foldlM eraseAlone s = .ok s' ∧ Sound s' ∧ KeepsTable s s' ∧ l.length + s'.size = s.size ∧
      Keeps (· ∉ l) 0 s s' := by
  induction l generalizing s with
  | nil => exact ⟨s, rfl, h, KeepsTable.refl s, Nat.zero_add _, Keeps.refl _ s⟩
  | cons id l ih =>
    obtain ⟨hnot, hd'⟩ := List.nodup_cons.1 hd
    obtain ⟨hlive, hroot⟩ := hl id (by simp)
    obtain ⟨e, he⟩ := has_iff.1 hlive
    obtain ⟨s1, h1, h2, ht, hsize, h3⟩ := eraseAlone_keeps h he hroot
    have hl' : ∀ i ∈ l, s1.has i = true ∧ i ≠ .root := by
      intro i hi
      obtain ⟨hlive, hroot⟩ := hl i (List.mem_cons_of_mem _ hi)
      obtain ⟨x, hx⟩ := has_iff.1 hlive
      have hii : i ≠ id := fun hii => hnot (hii ▸ hi)
      obtain ⟨y, hy, -⟩ := get?_of_key (h3.key i _ hii (key_eq hx))
      exact ⟨has_of_get? hy, hroot⟩
    obtain ⟨s', k1, k2, kt, ksize, k3⟩ := ih h2 hd' hl'
    refine ⟨s', by rw [List.foldlM_cons, h1, Except.ok_bind, k1], k2, ht.trans kt, ?_, ?_⟩
    · rw [List.length_cons]
      omega
    apply (h3.mono _).trans (k3.mono _)
    · intro i hi hii
      exact hi (by rw [hii]; simp)
    · intro i hi hil
      exact hi (List.mem_cons_of_mem _ hil)

theorem relinked_refresh (s : Store) : Relinked s s.refresh := relinked_of_same rfl rfl rfl

theorem keepsTable_refresh (s : Store) : KeepsTable s s.refresh := keepsTable_of_same rfl rfl rfl rfl rfl

theorem Sound.refresh (h : Sound s) : Sound s.refresh := h.of_same rfl rfl rfl rfl rfl

/-- the steps of a round that has something to erase -/
theorem evictRound_steps (h : Sound s) (hne : s.candidates ≠ []) :
    ∃ s₁ s₂, s.victims.foldlM eraseAlone s = .ok s₁ ∧ Sound s₁ ∧ KeepsTable s s₁ ∧
      s.victims.length + s₁.size = s.size ∧ Keeps (· ∉ s.victims) 0 s s₁ ∧
      s₁.shrink.result = .ok s₂ ∧ Relinked s₁ s₂ ∧ Sound s₂ ∧ KeepsTable s₁ s₂ ∧
      s.evictRound.result = .ok (s.victims.length, s₂.refresh) := by
  obtain ⟨s₁, h1, h2, ht, hsize, h3⟩ := foldlM_eraseAlone_spec h nodup_victims fun i hi => by
    obtain ⟨e, he, -, hroot⟩ := mem_victims hi
    exact ⟨has_of_get? he, hroot⟩
  obtain ⟨s₂, k1, k2, k3, k4⟩ := shrink_spec h2.chained fun i e he => h2.ne_none he
  refine ⟨s₁, s₂, h1, h2, ht, hsize, h3, k1, k2, k2.sound h2 k3, keepsTable_shrink k4, ?_⟩
  rw [evictRound, if_neg (by simpa using hne)]
  simp only [Traced.result_bind, Traced.result_foldlM, Traced.result_quiet]
  rw [h1, Except.ok_bind, k1]
  rfl

/-- **One round** of eviction erases deletable entries only. -/
theorem evictRound_spec (h : Sound s) :
    ∃ r, s.evictRound.result = .ok r ∧ Sound r.2 ∧ KeepsTable s r.2 ∧ r.1 + r.2.size = s.size ∧
      Keeps (Held s) 0 s r.2 := by
  by_cases hne : s.candidates = []
  · exact ⟨(0, s), evictRound_idle hne, h, KeepsTable.refl s, Nat.zero_add _, Keeps.refl _ s⟩
  · obtain ⟨s₁, s₂, -, -, ht, hsize, hk, -, hr, hs, ht', hrun⟩ := evictRound_steps h hne
    have hsize' : s.victims.length + s₂.size = s.size := hr.size_eq ▸ hsize
    refine ⟨_, hrun, hs.refresh, (ht.trans ht').trans (keepsTable_refresh s₂), hsize',
      (hk.mono fun i hi hv => ?_).trans ((hr.keeps _).trans ((relinked_refresh s₂).keeps _))⟩
    -- a held entry is no victim
    obtain ⟨e, he, hdel, -⟩ := mem_victims hv
    obtain ⟨signature, hkey⟩ := hi
    rw [key_eq he, hdel] at hkey
    cases hkey

/-- **Rounds** come to an end: each but the last leaves the store smaller. -/
theorem evictRounds_spec (budget : ℕ) {rounds : ℕ} (erased : ℕ) (h : Sound s)
    (hrounds : s.size < rounds) :
    ∃ r, (evictRounds budget rounds erased s).result = .ok r ∧ Sound r.2 ∧ Keeps (Held s) 0 s r.2 := by
  induction rounds generalizing s erased with
  | zero => exact absurd hrounds (Nat.not_lt_zero _)
  | succ rounds ih =>
    have hk : Keeps (Held s) 0 s s.refresh := (relinked_refresh s).keeps _
    unfold evictRounds
    simp only
    split_ifs
    · exact ⟨(erased, s.refresh), rfl, h.refresh, hk⟩
    · obtain ⟨⟨n, s1⟩, h1, h2, -, hsize, h3⟩ := evictRound_spec h.refresh
      rw [Traced.result_bind, h1, Except.ok_bind]
      simp only
      split_ifs with hn
      · exact ⟨(erased, s1), rfl, h2, hk.held h3⟩
      · have hless : n + s1.size = s.size := hsize
        have hrounds' : s1.size < rounds := by omega
        obtain ⟨r, k1, k2, k3⟩ := ih (erased + n) h2 hrounds'
        exact ⟨r, k1, k2, (hk.held h3).held k3⟩

/-- **Eviction** meets no fault, whatever the budget, and erases deletable entries only. -/
theorem evict_spec (h : Sound s) (budget : ℕ) :
    ∃ r, (s.evict budget).result = .ok r ∧ Sound r.2 ∧ Keeps (Held s) 0 s r.2 := by
  obtain ⟨⟨erased, s1⟩, h1, h2, h3⟩ := evictRounds_spec budget 0 h (Nat.lt_succ_self s.size)
  refine ⟨(erased, s1), ?_, h2, h3⟩
  rw [evict, Traced.result_bind, h1, Except.ok_bind]
  simp only
  split_ifs <;> rfl

end ModelCount.Store
