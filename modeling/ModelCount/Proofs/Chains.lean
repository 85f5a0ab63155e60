/-
The chains of the bucket table.

In a chained store every bucket leads through a finite list of different entries, all live, counted and of that
bucket (`Chained`). Linking, unlinking and rebuilding keep this and change nothing of an entry but where it leads
(`Relinked`), and a count that a look-up finds belongs to a live entry with the same signature (`lookup_spec`).
-/
import Mathlib.Tactic
import ModelCount.Proofs.Entries

namespace ModelCount

/-- an entry without its link -/
def Entry.core (e : Entry) : Entry := { e with next := .none }

/-- an entry has the fields of its core -/
theorem Entry.fields_of_core {e c : Entry} (h : e.core = c) : e.signature = c.signature ∧ e.count = c.count ∧
    e.time = c.time ∧ e.deletable = c.deletable ∧ e.father = c.father ∧ e.descendants = c.descendants := by
  subst h
  exact ⟨rfl, rfl, rfl, rfl, rfl, rfl⟩

namespace Store

variable {s s' : Store} {id i place next : EntryId} {e : Entry} {b : ℕ} {ids : List EntryId}

def core (s : Store) (i : EntryId) : Option Entry := (s.get? i).map Entry.core

/-- the same entries with other links -/
structure Relinked (s s' : Store) : Prop where
  core : ∀ i, s'.core i = s.core i
  nextId : s'.nextId = s.nextId
  entryBytes : s'.entryBytes = s.entryBytes

theorem Relinked.refl (s : Store) : Relinked s s := ⟨fun _ => rfl, rfl, rfl⟩

theorem Relinked.trans {s'' : Store} (h : Relinked s s') (h' : Relinked s' s'') : Relinked s s'' :=
  ⟨fun i => (h'.core i).trans (h.core i), h'.nextId.trans h.nextId, h'.entryBytes.trans h.entryBytes⟩

/-- what a link does not hold is the same before and after -/
theorem Relinked.get? (h : Relinked s s') (hi : s.get? i = some e) : ∃ e', s'.get? i = some e' ∧ e'.core = e.core := by
  have hc := h.core i
  unfold Store.core at hc
  rw [hi] at hc
  cases hg : s'.get? i with
  | none => rw [hg] at hc; cases hc
  | some e' => rw [hg] at hc; exact ⟨e', rfl, Option.some.inj hc⟩

theorem Relinked.symm (h : Relinked s s') : Relinked s' s :=
  ⟨fun i => (h.core i).symm, h.nextId.symm, h.entryBytes.symm⟩

theorem has_eq_core : s.has i = (s.core i).isSome := Option.isSome_map.symm

theorem Relinked.has_iff (h : Relinked s s') : s'.has i = true ↔ s.has i = true := by
  rw [has_eq_core, has_eq_core, h.core]

theorem Relinked.size_eq (h : Relinked s s') : s'.size = s.size := by
  rw [← length_eq_size (s := s) (nodup_live (s := s')) fun i => mem_liveIds.trans h.has_iff, List.length_map, length_live]

theorem relinked_put {e' : Entry} (hi : s.get? i = some e) (he : e'.core = e.core) : Relinked s (s.put i e') := by
  refine ⟨fun j => ?_, rfl, rfl⟩
  unfold core
  rw [get?_put]
  split_ifs with hj
  · rw [hj, hi, Option.map_some, Option.map_some, he]
  · rfl

/-! ## One chain -/

/-- from `place` on, the links lead through the entries `ids`, which are live, counted and of bucket `b` -/
def Chain (s : Store) (b : ℕ) : EntryId → List EntryId → Prop
  | place, [] => place = .none
  | place, id :: rest =>
    place = id ∧ id ≠ .none ∧
      ∃ e, s.get? id = some e ∧ e.hasCount = true ∧ s.bucketOf e.hash = b ∧ Chain s b e.next rest

/-- a chain depends on the signatures, counts and links of its own entries only -/
theorem Chain.congr (h : Chain s b place ids) (hb : s'.mask = s.mask)
    (hc : ∀ i ∈ ids, ∀ e, s.get? i = some e → ∃ e', s'.get? i = some e' ∧ e'.signature = e.signature ∧
      e'.count = e.count ∧ e'.next = e.next) : Chain s' b place ids := by
  induction ids generalizing place with
  | nil => exact h
  | cons id rest ih =>
    obtain ⟨hplace, hne, e, he, hcount, hbucket, hrest⟩ := h
    obtain ⟨e', he', hsig, hcnt, hnext⟩ := hc id (by simp) e he
    refine ⟨hplace, hne, e', he', ?_, ?_, ?_⟩
    · unfold Entry.hasCount at hcount ⊢
      rw [hcnt]; exact hcount
    · unfold bucketOf Entry.hash at hbucket ⊢
      rw [hb, hsig]; exact hbucket
    · rw [hnext]
      exact ih hrest fun i hi => hc i (List.mem_cons_of_mem _ hi)

theorem Chain.mem (h : Chain s b place ids) (hi : i ∈ ids) :
    i ≠ .none ∧ ∃ e, s.get? i = some e ∧ e.hasCount = true ∧ s.bucketOf e.hash = b := by
  induction ids generalizing place with
  | nil => cases hi
  | cons id rest ih =>
    obtain ⟨-, hne, e, he, hcount, hbucket, hrest⟩ := h
    rcases List.mem_cons.1 hi with hi | hi
    · rw [hi]; exact ⟨hne, e, he, hcount, hbucket⟩
    · exact ih hrest hi

/-- where a chain starts determines the chain -/
theorem Chain.unique {ids' : List EntryId} (h : Chain s b place ids) (h' : Chain s b place ids') : ids = ids' := by
  induction ids generalizing place ids' with
  | nil =>
    cases ids' with
    | nil => rfl
    | cons id rest => exact absurd (h'.1.symm.trans h) h'.2.1
  | cons id rest ih =>
    cases ids' with
    | nil => exact absurd (h.1.symm.trans h') h.2.1
    | cons id' rest' =>
      obtain ⟨hp, -, e, he, -, -, hrest⟩ := h
      obtain ⟨hp', -, e', he', -, -, hrest'⟩ := h'
      have hid : id = id' := hp.symm.trans hp'
      subst hid
      rw [he] at he'
      cases he'
      rw [ih hrest hrest']

theorem Chain.length_le (h : Chain s b place ids) (hd : ids.Nodup) : ids.length ≤ s.size := by
  refine length_le_size hd fun i hi => ?_
  obtain ⟨-, e, he, -⟩ := h.mem hi
  exact has_of_get? he

/-! ## All chains -/

/-- every bucket has a chain of different entries of `D` -/
def ChainedIn (D : EntryId → Prop) (s : Store) : Prop :=
  ∀ b, ∃ ids, ids.Nodup ∧ (∀ i ∈ ids, D i) ∧ Chain s b (s.head b) ids

def Chained (s : Store) : Prop := ChainedIn (fun _ => True) s

def Loose (s : Store) (id : EntryId) : Prop := ∀ b ids, Chain s b (s.head b) ids → id ∉ ids

def Shown (s : Store) (id : EntryId) : Prop := ∃ b ids, Chain s b (s.head b) ids ∧ id ∈ ids

theorem ChainedIn.chained {D : EntryId → Prop} (h : ChainedIn D s) : Chained s := fun b => by
  obtain ⟨ids, hd, -, hchain⟩ := h b
  exact ⟨ids, hd, fun _ _ => True.intro, hchain⟩

theorem ChainedIn.loose {D : EntryId → Prop} (h : ChainedIn D s) (hid : ¬ D id) : Loose s id := by
  intro b ids hchain hi
  obtain ⟨ids', -, hD, hchain'⟩ := h b
  rw [hchain.unique hchain'] at hi
  exact hid (hD id hi)

/-- an entry without a count stands in no chain -/
theorem loose_of_uncounted (h : ∀ e, s.get? id = some e → e.hasCount = false) : Loose s id := by
  intro b ids hc hi
  obtain ⟨-, e, he, hcount, -⟩ := hc.mem hi
  rw [h e he] at hcount
  cases hcount

/-- changing loose entries keeps the chains -/
theorem ChainedIn.congr {D : EntryId → Prop} (h : ChainedIn D s) (hh : s'.heads = s.heads)
    (hb : s'.mask = s.mask) (hc : ∀ i, ¬ Loose s i → ∀ e, s.get? i = some e → ∃ e', s'.get? i = some e' ∧
      e'.signature = e.signature ∧ e'.count = e.count ∧ e'.next = e.next) : ChainedIn D s' := by
  intro b
  obtain ⟨ids, hd, hD, hchain⟩ := h b
  refine ⟨ids, hd, hD, ?_⟩
  have hhead : s'.head b = s.head b := by unfold head; rw [hh]
  rw [hhead]
  exact hchain.congr hb fun i hi => hc i fun hl => hl b ids hchain hi

/-- changing loose entries keeps what stands in chains -/
theorem Shown.congr (h : Shown s i) (hh : s'.heads = s.heads) (hb : s'.mask = s.mask)
    (hc : ∀ i, ¬ Loose s i → ∀ e, s.get? i = some e → ∃ e', s'.get? i = some e' ∧
      e'.signature = e.signature ∧ e'.count = e.count ∧ e'.next = e.next) : Shown s' i := by
  obtain ⟨b, ids, hchain, hi⟩ := h
  have hhead : s'.head b = s.head b := by unfold head; rw [hh]
  refine ⟨b, ids, ?_, hi⟩
  rw [hhead]
  exact hchain.congr hb fun j hj => hc j fun hl => hl b ids hchain hj

theorem head_setHead {b' : ℕ} : (s.setHead b id).head b' = if b' = b then id else s.head b' := by
  unfold head setHead
  simp only [Std.TreeMap.getElem?_insert, compare_eq_iff_eq]
  by_cases hb : b' = b
  · rw [if_pos hb, if_pos hb.symm]; rfl
  · rw [if_neg hb, if_neg (fun hh => hb hh.symm)]

theorem head_link : (s.link id e).head b = if b = s.bucketOf e.hash then id else s.head b := head_setHead

theorem get?_link :
    (s.link id e).get? i = if i = id then some { e with next := s.head (s.bucketOf e.hash) } else s.get? i := get?_put

/-- linking an entry leaves the chains as they are in which it does not stand -/
theorem Chain.link (h : Chain s b place ids) (hid : id ∉ ids) : Chain (s.link id e) b place ids := by
  refine h.congr rfl fun i hi e' he' => ⟨e', ?_, rfl, rfl, rfl⟩
  have hne : i ≠ id := fun heq => hid (heq ▸ hi)
  rw [get?_link, if_neg hne]
  exact he'

/-- the chain of the bucket of a linked entry -/
theorem Chain.link_head (h : Chain s (s.bucketOf e.hash) (s.head (s.bucketOf e.hash)) ids) (hid : id ∉ ids)
    (hne : id ≠ .none) (hcount : e.hasCount = true) :
    Chain (s.link id e) (s.bucketOf e.hash) ((s.link id e).head (s.bucketOf e.hash)) (id :: ids) := by
  rw [head_link, if_pos rfl]
  exact ⟨rfl, hne, { e with next := s.head (s.bucketOf e.hash) }, by rw [get?_link, if_pos rfl], hcount, rfl,
    h.link hid⟩

/-- **Linking** a loose entry with a count puts it at the head of its chain. -/
theorem ChainedIn.link {D : EntryId → Prop} (h : ChainedIn D s) (hl : Loose s id) (hne : id ≠ .none)
    (hcount : e.hasCount = true) : ChainedIn (fun i => i = id ∨ D i) (s.link id e) := by
  intro b
  obtain ⟨ids, hd, hD, hchain⟩ := h b
  have hid := hl b ids hchain
  by_cases hb : b = s.bucketOf e.hash
  · subst hb
    refine ⟨id :: ids, List.nodup_cons.2 ⟨hid, hd⟩, fun i hi => ?_, hchain.link_head hid hne hcount⟩
    rcases List.mem_cons.1 hi with hi | hi
    · exact Or.inl hi
    · exact Or.inr (hD i hi)
  · refine ⟨ids, hd, fun i hi => Or.inr (hD i hi), ?_⟩
    rw [head_link, if_neg hb]
    exact hchain.link hid

/-- what stood in a chain, and what is linked, stands in one after linking -/
theorem shown_link (h : Chained s) (hl : Loose s id) (hne : id ≠ .none) (hcount : e.hasCount = true)
    (hi : i = id ∨ Shown s i) : Shown (s.link id e) i := by
  rcases hi with rfl | ⟨b, ids, hchain, hi⟩
  · obtain ⟨ids, -, -, hchain⟩ := h (s.bucketOf e.hash)
    exact ⟨_, _, hchain.link_head (hl _ _ hchain) hne hcount, by simp⟩
  · have hid := hl b ids hchain
    by_cases hb : b = s.bucketOf e.hash
    · subst hb
      exact ⟨_, _, hchain.link_head hid hne hcount, List.mem_cons_of_mem _ hi⟩
    · refine ⟨b, ids, ?_, hi⟩
      rw [head_link, if_neg hb]
      exact hchain.link hid

theorem relinked_link {e' : Entry} (hid : s.get? id = some e) (he : e'.core = e.core) : Relinked s (s.link id e') := by
  have h : Relinked s (s.put id { e' with next := s.head (s.bucketOf e'.hash) }) := relinked_put hid he
  exact ⟨h.core, h.nextId, h.entryBytes⟩

/-! ## Unlinking -/

/-- the same table, but that `id` may have left its chain -/
structure Without (id : EntryId) (s s' : Store) : Prop where
  buckets : s'.buckets = s.buckets
  mask : s'.mask = s.mask
  least : s'.minBuckets = s.minBuckets
  shown : ∀ i, i ≠ id → Shown s i → Shown s' i

theorem Without.refl (id : EntryId) (s : Store) : Without id s s := ⟨rfl, rfl, rfl, fun _ _ h => h⟩

theorem Without.trans {s'' : Store} (h : Without id s s') (h' : Without id s' s'') : Without id s s'' :=
  ⟨h'.buckets.trans h.buckets, h'.mask.trans h.mask, h'.least.trans h.least,
    fun i hi hs => h'.shown i hi (h.shown i hi hs)⟩

/-- nothing in the chain leads to an entry that is not in it -/
theorem bypass_absent {steps : ℕ} (h : Chain s b place ids) (hid : id ∉ ids) (hne : id ≠ .none)
    (hsteps : ids.length < steps) : s.bypass id next steps place = .ok s := by
  induction steps generalizing place ids with
  | zero => exact absurd hsteps (Nat.not_lt_zero _)
  | succ steps ih =>
    unfold bypass
    cases ids with
    | nil => rw [if_pos (EntryId.isNone_iff.2 h)]
    | cons p rest =>
      obtain ⟨rfl, hp, e, he, -, -, hrest⟩ := h
      rw [if_neg (fun hn => hp (EntryId.isNone_iff.1 hn)), entry_eq he, Except.ok_bind]
      have hrest' : id ∉ rest := fun hi => hid (List.mem_cons_of_mem _ hi)
      have hnext : e.next ≠ id := by
        intro hn
        cases rest with
        | nil => exact hne (hn.symm.trans hrest)
        | cons q rest => exact hrest' (by rw [← hn, hrest.1]; simp)
      rw [if_neg hnext]
      exact ih hrest hrest' (Nat.lt_of_succ_lt_succ hsteps)

/-- the entry before `id` in the chain leads past it -/
theorem bypass_present {pre post : List EntryId} {p : EntryId} {ep : Entry} {steps : ℕ}
    (h : Chain s b place (pre ++ p :: id :: post)) (hid : id ∉ pre) (hpid : id ≠ p) (hp : s.get? p = some ep)
    (hsteps : pre.length < steps) : s.bypass id next steps place = .ok (s.put p { ep with next := next }) := by
  induction pre generalizing place steps with
  | nil =>
    obtain ⟨steps, rfl⟩ : ∃ k, steps = k + 1 := ⟨steps - 1, by simp only [List.length_nil] at hsteps; omega⟩
    obtain ⟨rfl, hne, e, he, -, -, hrest⟩ := h
    rw [bypass, if_neg (fun hn => hne (EntryId.isNone_iff.1 hn)), entry_eq he, Except.ok_bind, if_pos hrest.1]
    rw [hp] at he
    cases he
    rfl
  | cons q pre ih =>
    obtain ⟨steps, rfl⟩ : ∃ k, steps = k + 1 := ⟨steps - 1, by simp only [List.length_cons] at hsteps; omega⟩
    obtain ⟨rfl, hne, e, he, -, -, hrest⟩ := h
    have hnext : e.next ≠ id := by
      intro hn
      cases pre with
      | nil => exact hpid (hn.symm.trans hrest.1)
      | cons r pre => exact hid (by rw [← hn, hrest.1]; simp)
    rw [bypass, if_neg (fun hn => hne (EntryId.isNone_iff.1 hn)), entry_eq he, Except.ok_bind, if_neg hnext]
    exact ih hrest (fun hi => hid (List.mem_cons_of_mem _ hi)) (by simp only [List.length_cons] at hsteps; omega)

/-- a chain whose entry `p` leads past its successor -/
theorem Chain.shorten {pre post : List EntryId} {p : EntryId} {ep : Entry}
    (h : Chain s b place (pre ++ p :: id :: post)) (hd : (pre ++ p :: id :: post).Nodup) (hp : s.get? p = some ep)
    (hid : s.get? id = some e) :
    Chain (s.put p { ep with next := e.next }) b place (pre ++ p :: post) := by
  have hother : ∀ i, i ≠ p → ∀ e', s.get? i = some e' → (s.put p { ep with next := e.next }).get? i = some e' := by
    intro i hi e' he'
    rw [get?_put, if_neg hi]; exact he'
  induction pre generalizing place with
  | nil =>
    obtain ⟨rfl, hne, e', he', hcount, hbucket, -, -, e'', he'', -, -, hpost⟩ := h
    rw [hp] at he'
    cases he'
    rw [hid] at he''
    cases he''
    refine ⟨rfl, hne, { ep with next := e.next }, by rw [get?_put, if_pos rfl], hcount, hbucket, ?_⟩
    show Chain (s.put place { ep with next := e.next }) b e.next post
    refine hpost.congr rfl fun i hi e' he' => ⟨e', hother i ?_ e' he', rfl, rfl, rfl⟩
    intro heq
    subst heq
    simp [hi] at hd
  | cons q pre ih =>
    obtain ⟨rfl, hne, e', he', hcount, hbucket, hrest⟩ := h
    have hqp : place ≠ p := by
      intro heq
      subst heq
      simp at hd
    exact ⟨rfl, hne, e', hother _ hqp _ he', hcount, hbucket, ih hrest (List.nodup_cons.1 hd).2⟩

/-- only the chain of one bucket may hold the entry, and it is left out there -/
theorem chainedIn_ne (h : Chained s) (hid : s.get? id = some e) (hb : s'.buckets = s.buckets) (hm : s'.mask = s.mask)
    (hl : s'.minBuckets = s.minBuckets) (hhead : ∀ b, b ≠ s.bucketOf e.hash → s'.head b = s.head b)
    (hc : ∀ i e', s.get? i = some e' → s.bucketOf e'.hash ≠ s.bucketOf e.hash → s'.get? i = some e')
    (hown : ∃ ids ids', Chain s (s.bucketOf e.hash) (s.head (s.bucketOf e.hash)) ids ∧ ids'.Nodup ∧
      (∀ i, i ∈ ids' ↔ i ∈ ids ∧ i ≠ id) ∧ Chain s' (s.bucketOf e.hash) (s'.head (s.bucketOf e.hash)) ids') :
    ChainedIn (· ≠ id) s' ∧ Without id s s' := by
  obtain ⟨own, own', hown, hnd, hmem, hown'⟩ := hown
  -- the chains of the other buckets are as before
  have hother : ∀ b ids, b ≠ s.bucketOf e.hash → Chain s b (s.head b) ids → Chain s' b (s'.head b) ids := by
    intro b ids hbucket hchain
    rw [hhead b hbucket]
    refine hchain.congr hm fun i hi e' he' => ⟨e', hc i e' he' ?_, rfl, rfl, rfl⟩
    obtain ⟨-, e'', he'', -, hb'⟩ := hchain.mem hi
    rw [he'] at he''
    cases he''
    rw [hb']; exact hbucket
  refine ⟨fun b => ?_, hb, hm, hl, fun i hi hshown => ?_⟩
  · by_cases hbucket : b = s.bucketOf e.hash
    · rw [hbucket]
      exact ⟨own', hnd, fun i hi => ((hmem i).1 hi).2, hown'⟩
    · obtain ⟨ids, hd, -, hchain⟩ := h b
      refine ⟨ids, hd, fun i hi hii => ?_, hother b ids hbucket hchain⟩
      subst hii
      obtain ⟨-, e', he', -, hb'⟩ := hchain.mem hi
      rw [hid] at he'
      cases he'
      exact hbucket hb'.symm
  · obtain ⟨b, ids, hchain, hin⟩ := hshown
    by_cases hbucket : b = s.bucketOf e.hash
    · subst hbucket
      rw [hchain.unique hown] at hin
      exact ⟨_, own', hown', (hmem i).2 ⟨hin, hi⟩⟩
    · exact ⟨b, ids, hother b ids hbucket hchain, hin⟩

/-- an entry that is not the first of its chain is left out by changing the one before it -/
theorem bypass_spec (h : Chain s b place ids) (hd : ids.Nodup) (hid : s.get? id = some e) (hin : id ∈ ids)
    (hfirst : place ≠ id) :
    ∃ p ep, s.get? p = some ep ∧ s.bucketOf ep.hash = b ∧ id ≠ p ∧
      s.bypass id e.next (s.size + 1) place = .ok (s.put p { ep with next := e.next }) ∧
      ∃ ids', ids'.Nodup ∧ (∀ i, i ∈ ids' ↔ i ∈ ids ∧ i ≠ id) ∧
        Chain (s.put p { ep with next := e.next }) b place ids' := by
  obtain ⟨pre', post, rfl⟩ := List.append_of_mem hin
  rcases List.eq_nil_or_concat pre' with rfl | ⟨pre, p, rfl⟩
  · exact absurd h.1 hfirst
  · have hlist : pre.concat p ++ id :: post = pre ++ p :: id :: post := by simp
    rw [hlist] at hd h
    obtain ⟨-, ep, hep, -, hpb⟩ := h.mem (i := p) (by simp)
    have hnodup := List.nodup_append.1 hd
    have hpid : id ≠ p := by
      intro heq
      subst heq
      simpa using hnodup.2.1
    have hpre : id ∉ pre := fun hi => hnodup.2.2 id hi id (by simp) rfl
    have hlen : pre.length < s.size + 1 := by
      have := h.length_le hd
      simp only [List.length_append, List.length_cons] at this
      omega
    have hsub : (pre ++ p :: post).Sublist (pre ++ p :: id :: post) :=
      (List.Sublist.refl _).append ((List.sublist_cons_self _ _).cons_cons _)
    have hout : id ∉ pre ++ p :: post := by
      intro hi
      rcases List.mem_append.1 hi with hi | hi
      · exact hpre hi
      · rcases List.mem_cons.1 hi with hi | hi
        · exact hpid hi
        · simpa [hi] using hnodup.2.1
    refine ⟨p, ep, hep, hpb, hpid, bypass_present h hpre hpid hep hlen, pre ++ p :: post, hd.sublist hsub, fun i => ?_,
      h.shorten hd hep hid⟩
    rw [hlist]
    refine ⟨fun hi => ⟨hsub.subset hi, fun heq => hout (heq ▸ hi)⟩, fun hi => ?_⟩
    have hcases := hi.1
    simp only [List.mem_append, List.mem_cons] at hcases ⊢
    tauto

/-- whatever led to an entry leads past it -/
theorem skip_spec (h : Chained s) (hid : s.get? id = some e) (hne : id ≠ .none) :
    ∃ s', s.skip id e.next (s.bucketOf e.hash) = .ok s' ∧ Relinked s s' ∧ s'.get? id = some e ∧
      ChainedIn (· ≠ id) s' ∧ Without id s s' := by
  obtain ⟨ids, hd, -, hchain⟩ := h (s.bucketOf e.hash)
  unfold skip
  by_cases hhead : s.head (s.bucketOf e.hash) = id
  · rw [if_pos hhead]
    have hhead' : ∀ b, (s.setHead (s.bucketOf e.hash) e.next).head b =
        if b = s.bucketOf e.hash then e.next else s.head b := fun b => head_setHead
    refine ⟨_, rfl, ⟨fun _ => rfl, rfl, rfl⟩, hid, chainedIn_ne h hid rfl rfl rfl ?_ (fun i e' he' _ => he') ?_⟩
    · intro b hb
      rw [hhead', if_neg hb]
    · cases ids with
      | nil => exact absurd (hhead.symm.trans hchain) hne
      | cons i rest =>
        have hown := hchain
        obtain ⟨hi, -, e', he', -, -, hrest⟩ := hown
        have hii : i = id := hi.symm.trans hhead
        rw [hii, hid] at he'
        cases he'
        obtain ⟨hnot, hd'⟩ := List.nodup_cons.1 hd
        refine ⟨i :: rest, rest, hchain, hd', fun j => ?_, ?_⟩
        · rw [List.mem_cons, ← hii]
          exact ⟨fun hj => ⟨Or.inr hj, fun heq => hnot (heq ▸ hj)⟩, fun hj => hj.1.resolve_left hj.2⟩
        · rw [hhead', if_pos rfl]
          exact hrest.congr rfl fun i _ e' he' => ⟨e', he', rfl, rfl, rfl⟩
  · rw [if_neg hhead]
    by_cases hin : id ∈ ids
    · obtain ⟨p, ep, hep, hpb, hpid, hrun, ids', hown⟩ := bypass_spec hchain hd hid hin hhead
      refine ⟨_, hrun, relinked_put hep rfl, ?_,
        chainedIn_ne h hid rfl rfl rfl (fun b _ => rfl) ?_ ⟨ids, ids', hchain, hown⟩⟩
      · rw [get?_put, if_neg hpid]; exact hid
      · intro i e' he' hb
        have hip : i ≠ p := by
          intro heq
          subst heq
          rw [hep] at he'
          cases he'
          exact hb hpb
        rw [get?_put, if_neg hip]
        exact he'
    · rw [bypass_absent hchain hin hne (Nat.lt_succ_of_le (hchain.length_le hd))]
      refine ⟨s, rfl, Relinked.refl s, hid, chainedIn_ne h hid rfl rfl rfl (fun _ _ => rfl) (fun _ _ he _ => he)
        ⟨ids, ids, hchain, hd, fun i => ?_, hchain⟩⟩
      exact ⟨fun hi => ⟨hi, fun heq => hin (heq ▸ hi)⟩, fun hi => hi.1⟩

/-- **Unlinking** takes an entry out of its chain. -/
theorem unlink_spec (h : Chained s) (hid : s.get? id = some e) (hne : id ≠ .none) :
    ∃ s', s.unlink id = .ok s' ∧ Relinked s s' ∧ Chained s' ∧ Loose s' id ∧ Without id s s' := by
  obtain ⟨s1, h1, h2, h3, h4, h5⟩ := skip_spec h hid hne
  have hloose : Loose s1 id := h4.loose fun hne => hne rfl
  have hsame : ∀ i, ¬ Loose s1 i → ∀ e', s1.get? i = some e' → ∃ e'', (s1.put id { e with next := .none }).get? i =
      some e'' ∧ e''.signature = e'.signature ∧ e''.count = e'.count ∧ e''.next = e'.next := by
    intro i hi e' he'
    have hii : i ≠ id := fun hii => hi (hii ▸ hloose)
    exact ⟨e', by rw [get?_put, if_neg hii]; exact he', rfl, rfl, rfl⟩
  have hwithout : ChainedIn (· ≠ id) (s1.put id { e with next := .none }) := h4.congr rfl rfl hsame
  refine ⟨s1.put id { e with next := .none }, ?_, h2.trans (relinked_put h3 rfl), hwithout.chained,
    hwithout.loose fun hne => hne rfl, h5.trans ⟨rfl, rfl, rfl, fun i _ hshown => hshown.congr rfl rfl hsame⟩⟩
  rw [unlink, entry_eq hid, Except.ok_bind]
  simp only
  rw [h1, Except.ok_bind, update_eq h3]

/-- hiding an entry -/
theorem hide_spec (h : Chained s) (hid : s.get? id = some e) (hne : id ≠ .none) :
    ∃ s', s.hide id e = .ok s' ∧ Relinked s s' ∧ Chained s' ∧ Loose s' id ∧ Without id s s' := by
  unfold hide
  split_ifs with hc
  · exact unlink_spec h hid hne
  · refine ⟨s, rfl, Relinked.refl s, h, loose_of_uncounted fun e' he' => ?_, Without.refl id s⟩
    rw [hid] at he'
    cases he'
    simpa using hc

/-! ## Rebuilding -/

/-- the table was built anew: every entry that has a count stands in a chain -/
structure Rebuilt (s s' : Store) : Prop where
  mask : s'.mask = s'.buckets - 1
  least : s'.minBuckets = s.minBuckets
  shown : ∀ i e, s'.get? i = some e → e.hasCount = true → Shown s' i

/-- linking counted entries again, each from a list of live ones -/
theorem foldl_link_spec {s₀ : Store} (hne : ∀ i e, s₀.get? i = some e → i ≠ .none) {l : List (EntryId × Entry)}
    (hd : (l.map Prod.fst).Nodup) (hl : ∀ p ∈ l, s₀.get? p.1 = some p.2 ∧ p.2.hasCount = true) (hs : Relinked s₀ s)
    {D : EntryId → Prop} (hD : ∀ p ∈ l, ¬ D p.1) (h : ChainedIn D s) :
    Relinked s₀ (l.foldl (fun s p => s.link p.1 p.2) s) ∧ Chained (l.foldl (fun s p => s.link p.1 p.2) s) ∧
      ∀ i, i ∈ l.map Prod.fst ∨ Shown s i → Shown (l.foldl (fun s p => s.link p.1 p.2) s) i := by
  induction l generalizing s D with
  | nil => exact ⟨hs, h.chained, fun i hi => hi.resolve_left (by simp)⟩
  | cons p l ih =>
    obtain ⟨hp, hcount⟩ := hl p (by simp)
    obtain ⟨hnot, hd'⟩ := List.nodup_cons.1 hd
    obtain ⟨e', he', hcore⟩ := hs.get? hp
    have hloose : Loose s p.1 := h.loose (hD p (by simp))
    have hD' : ∀ q ∈ l, ¬ (q.1 = p.1 ∨ D q.1) := by
      intro q hq hor
      rcases hor with hqp | hqD
      · exact hnot (hqp ▸ List.mem_map_of_mem hq)
      · exact hD q (List.mem_cons_of_mem _ hq) hqD
    obtain ⟨h1, h2, h3⟩ := ih hd' (fun q hq => hl q (List.mem_cons_of_mem _ hq))
      (hs.trans (relinked_link he' hcore.symm)) hD' (h.link hloose (hne _ _ hp) hcount)
    refine ⟨h1, h2, fun i hi => h3 i ?_⟩
    rw [List.map_cons, List.mem_cons, or_assoc, or_left_comm] at hi
    exact hi.imp_right (shown_link h.chained hloose (hne _ _ hp) hcount)

/-- linking leaves the size of the table alone -/
theorem table_foldl_link (l : List (EntryId × Entry)) (s : Store) :
    (l.foldl (fun s p => s.link p.1 p.2) s).buckets = s.buckets ∧
      (l.foldl (fun s p => s.link p.1 p.2) s).mask = s.mask ∧
      (l.foldl (fun s p => s.link p.1 p.2) s).minBuckets = s.minBuckets := by
  induction l generalizing s with
  | nil => exact ⟨rfl, rfl, rfl⟩
  | cons p l ih => exact ih (s.link p.1 p.2)

/-- **Rebuilding** puts all entries that have a count in chains. -/
theorem rebuild_spec (hne : ∀ i e, s.get? i = some e → i ≠ .none) (buckets : ℕ) :
    ∃ s', (s.rebuild buckets).result = .ok s' ∧ Relinked s s' ∧ Chained s' ∧ Rebuilt s s' ∧ s'.buckets = buckets := by
  set bare : Store := { s with buckets := buckets, mask := buckets - 1, heads := ∅ }
  have hempty : ChainedIn (fun _ => False) bare := by
    intro b
    refine ⟨[], List.nodup_nil, by simp, ?_⟩
    show ((∅ : Std.TreeMap ℕ EntryId)[b]?).getD .none = .none
    rw [Std.TreeMap.getElem?_emptyc]
    rfl
  have hlive : ∀ p ∈ s.live.filter fun p => p.2.hasCount, s.get? p.1 = some p.2 ∧ p.2.hasCount = true := by
    intro p hp
    obtain ⟨hp, hcount⟩ := List.mem_filter.1 hp
    exact ⟨mem_live.1 hp, hcount⟩
  obtain ⟨h1, h2, h3⟩ := foldl_link_spec hne (s := bare) (nodup_live.sublist (List.filter_sublist.map _)) hlive
    ⟨fun _ => rfl, rfl, rfl⟩ (by simp) hempty
  obtain ⟨k1, k2, k3⟩ := table_foldl_link (s.live.filter fun p => p.2.hasCount) bare
  refine ⟨_, rfl, h1, h2, ⟨by rw [k1, k2], k3, fun i e' he' hcount => h3 i (Or.inl ?_)⟩, k1⟩
  obtain ⟨e, he, hcore⟩ := h1.symm.get? he'
  refine List.mem_map.2 ⟨(i, e), List.mem_filter.2 ⟨mem_live.2 he, ?_⟩, rfl⟩
  show e.core.hasCount = true
  rw [hcore]
  exact hcount

theorem grow_spec (h : Chained s) (hne : ∀ i e, s.get? i = some e → i ≠ .none) :
    ∃ s', s.grow.result = .ok s' ∧ Relinked s s' ∧ Chained s' ∧
      (s' = s ∨ Rebuilt s s' ∧ s'.buckets = 2 * s.buckets) := by
  unfold grow
  split_ifs
  · obtain ⟨s', h1, h2, h3, h4, h5⟩ := rebuild_spec hne (2 * s.buckets)
    exact ⟨s', h1, h2, h3, Or.inr ⟨h4, h5⟩⟩
  · exact ⟨s, rfl, Relinked.refl s, h, Or.inl rfl⟩

theorem shrink_spec (h : Chained s) (hne : ∀ i e, s.get? i = some e → i ≠ .none) :
    ∃ s', s.shrink.result = .ok s' ∧ Relinked s s' ∧ Chained s' ∧
      (s' = s ∨ Rebuilt s s' ∧ s'.buckets = shrunk s.minBuckets s.size s.buckets) := by
  unfold shrink
  simp only
  split_ifs
  · obtain ⟨s', h1, h2, h3, h4, h5⟩ := rebuild_spec hne (shrunk s.minBuckets s.size s.buckets)
    exact ⟨s', h1, h2, h3, Or.inr ⟨h4, h5⟩⟩
  · exact ⟨s, rfl, Relinked.refl s, h, Or.inl rfl⟩

theorem shrunk_le (least entries buckets : ℕ) : shrunk least entries buckets ≤ buckets := by
  fun_induction shrunk least entries buckets with
  | case1 buckets _ ih => exact ih.trans (Nat.div_le_self buckets 2)
  | case2 buckets _ => exact le_rfl

/-- halving stops where the table is least or not more than four times as large as its entries are many -/
theorem shrunk_stops (least entries buckets : ℕ) :
    shrunk least entries buckets ≤ least ∨ shrunk least entries buckets ≤ 4 * entries := by
  fun_induction shrunk least entries buckets with
  | case1 buckets _ ih => exact ih
  | case2 buckets h => omega

theorem buckets_of_shrink (hrun : s.shrink.result = .ok s') : s'.buckets = shrunk s.minBuckets s.size s.buckets := by
  have hle := shrunk_le s.minBuckets s.size s.buckets
  unfold shrink at hrun
  simp only at hrun
  split_ifs at hrun
  · cases hrun
    exact (table_foldl_link _ _).1
  · cases hrun
    omega

/-! ## Looking up -/

section Finding

variable {signature : Signature} {count : ℕ}

/-- the count that a search for a signature finds in an entry -/
def countOf (s : Store) (signature : Signature) (i : EntryId) : Option ℕ :=
  (s.get? i).bind fun e => if e.signature = signature then e.count else none

theorem countOf_eq_some :
    s.countOf signature i = some count ↔ ∃ e, s.get? i = some e ∧ e.signature = signature ∧ e.count = some count := by
  unfold countOf
  rw [Option.bind_eq_some_iff]
  refine exists_congr fun e => and_congr_right fun _ => ?_
  split_ifs with hsig
  · exact ⟨fun hc => ⟨hsig, hc⟩, fun hboth => hboth.2⟩
  · exact ⟨fun hc => (nomatch hc), fun hboth => absurd hboth.1 hsig⟩

/-- **Searching a chain.** A search that may go to the end of the chain finds the first count for the signature. -/
theorem findFrom_eq {steps : ℕ} (h : Chain s b place ids) (hsteps : ids.length < steps) :
    s.findFrom signature steps place = .ok (ids.findSome? (s.countOf signature)) := by
  induction ids generalizing place steps with
  | nil =>
    obtain ⟨k, rfl⟩ : ∃ k, steps = k + 1 := ⟨steps - 1, (Nat.sub_add_cancel hsteps).symm⟩
    rw [findFrom, if_pos (EntryId.isNone_iff.2 h)]
    rfl
  | cons p rest ih =>
    obtain ⟨k, rfl⟩ : ∃ k, steps = k + 1 := ⟨steps - 1, (Nat.sub_add_cancel (Nat.zero_lt_of_lt hsteps)).symm⟩
    obtain ⟨rfl, hp, e, he, -, -, hrest⟩ := h
    have hgo := ih hrest (Nat.lt_of_succ_lt_succ hsteps)
    rw [findFrom, if_neg fun hn => hp (EntryId.isNone_iff.1 hn), entry_eq he, Except.ok_bind, List.findSome?_cons,
      countOf, he, Option.bind_some]
    cases hc : e.count with
    | none => simpa using hgo
    | some count =>
      simp only
      split_ifs
      · rfl
      · exact hgo

/-- what is found is the first count for the signature in the chain of its bucket -/
theorem find_spec (h : Chained s) (signature : Signature) :
    ∃ ids, ids.Nodup ∧ Chain s (s.bucketOf signature.hash) (s.head (s.bucketOf signature.hash)) ids ∧
      s.find signature = .ok (ids.findSome? (s.countOf signature)) := by
  obtain ⟨ids, hd, -, hchain⟩ := h (s.bucketOf signature.hash)
  exact ⟨ids, hd, hchain, findFrom_eq hchain (Nat.lt_succ_of_le (hchain.length_le hd))⟩

end Finding

/-- **Looking up** finds the count of a live entry with the same signature, or nothing. -/
theorem lookup_spec (h : Chained s) (node : Node) (signature : Signature) :
    (∃ count i e, s.get? i = some e ∧ e.signature = signature ∧ e.count = some count ∧
      s.lookup node signature =
        .ok (true, { s with lookups := s.lookups + 1, hits := s.hits + 1 }, node.times count)) ∨
      s.lookup node signature = .ok (false, { s with lookups := s.lookups + 1 }, node) := by
  obtain ⟨ids, -, -, hfind⟩ := find_spec h signature
  rw [lookup, hfind, Except.ok_bind]
  cases hfound : ids.findSome? (s.countOf signature) with
  | none => exact Or.inr rfl
  | some count =>
    obtain ⟨i, -, hi⟩ := List.exists_of_findSome?_eq_some hfound
    obtain ⟨e, he, hsig, hc⟩ := countOf_eq_some.1 hi
    exact Or.inl ⟨count, i, e, he, hsig, hc, rfl⟩

end Store

end ModelCount
