/-
A decomposer in the middle of a search.

While a search runs, the links are those of the formula, the store is sound and all its counts are exact (`Ready`).
Attaching a right count, evicting, and leaving or abandoning a node keep this. They meet no fault, and entries that
are older than the components of the node that is left last.
-/
import Mathlib.Tactic
import ModelCount.Proofs.Reach

namespace ModelCount.Decomposer

open Formula Explorer

/-- the links are those of the formula, and the store is sound with exact counts -/
structure Ready (f : Formula) (d : Decomposer) : Prop where
  explorer : d.explorer.Fits f
  sound : d.store.Sound
  exact : d.store.Exact f

variable {f : Formula} {d : Decomposer} {node : Node} {comp : Component} {index bound : ℕ} {signature : Signature}
  {below above : List Component}

theorem held_of_getElem? (h : d.stack[index]? = some comp) : d.held index = .ok comp := by
  rw [held, h]

theorem component_eq (h : d.stack[index]? = some comp) : d.component index = .ok comp := by
  rw [component, h]

/-- ids begin after that of the root -/
theorem Ready.two_le (h : Ready f d) : 2 ≤ d.store.nextId := by
  obtain ⟨c, hc, -⟩ := h.sound.family.root
  exact (h.sound.family.range .root c hc).2

/-- **Attaching** the number of models of what the signature of a component stands for. -/
theorem cacheCount_spec (h : Ready f d) (hplace : d.stack[index]? = some comp)
    (hkey : d.store.key comp.id = some (signature, false)) {count : ℕ} (hcount : signature.models f = count) :
    ∃ d', (d.cacheCount index count).result = .ok d' ∧ Ready f d' ∧ Store.Lasts d.store d'.store ∧
      d'.store.nextId = d.store.nextId ∧ d'.stack = d.stack := by
  unfold cacheCount
  split_ifs
  · obtain ⟨store, hrun, hsound, hnext, hlasts, hexact⟩ := Store.attach_exact h.sound hkey count
    refine ⟨{ d with store := store }, ?_, ⟨h.explorer, hsound, hexact f h.exact hcount⟩, hlasts, hnext, rfl⟩
    simp only [Traced.result_bind, Traced.result_lift]
    rw [component_eq hplace, Except.ok_bind, hrun]
    rfl
  · exact ⟨d, rfl, h, Store.Lasts.refl _, rfl, rfl⟩

theorem evict_spec (h : Ready f d) :
    ∃ r, d.evict.result = .ok r ∧ Ready f r.2 ∧ Store.Lasts d.store r.2.store ∧ r.2.store.nextId = d.store.nextId ∧
      r.2.stack = d.stack := by
  obtain ⟨⟨erased, store⟩, hrun, hsound, hkeeps⟩ := Store.evict_spec h.sound d.config.budget
  exact ⟨_, evict_eq hrun, ⟨h.explorer, hsound, hkeeps.exact h.exact⟩, hkeeps.lasts, hkeeps.nextId, rfl⟩

/-! ## Leaving a node -/

/-- one step for each of several components, none of which concerns entries below a bound -/
theorem foldlM_keeps {step : Store → Component → Except Fault Store} {l : List Component}
    (hstep : ∀ s p, Store.Sound s → bound ≤ p.id.id →
      ∃ s', step s p = .ok s' ∧ Store.Sound s' ∧ Store.Keeps (fun i => i.id < bound) 0 s s')
    (hl : ∀ p ∈ l, bound ≤ p.id.id) {s : Store} (hs : Store.Sound s) :
    ∃ s', l.foldlM step s = .ok s' ∧ Store.Sound s' ∧ Store.Keeps (fun i => i.id < bound) 0 s s' := by
  induction l generalizing s with
  | nil => exact ⟨s, rfl, hs, Store.Keeps.refl _ s⟩
  | cons p l ih =>
    obtain ⟨s1, h1, h2, h3⟩ := hstep s p hs (hl p (by simp))
    obtain ⟨s', k1, k2, k3⟩ := ih (fun q hq => hl q (List.mem_cons_of_mem _ hq)) h2
    exact ⟨s', by rw [List.foldlM_cons, h1, Except.ok_bind, k1], k2, h3.trans k3⟩

theorem flagLeft_keeps (s : Store) (p : Component) (hs : s.Sound) (hp : bound ≤ p.id.id) :
    ∃ s', flagLeft s p = .ok s' ∧ Store.Sound s' ∧ Store.Keeps (fun i => i.id < bound) 0 s s' := by
  unfold flagLeft
  split_ifs with hlive
  · obtain ⟨s', h1, h2, h3⟩ := Store.setDeletable_keeps hs hlive
    refine ⟨s', h1, h2, h3.mono fun i hi he => ?_⟩
    rw [he] at hi
    omega
  · exact ⟨s, rfl, hs, Store.Keeps.refl _ s⟩

theorem eraseLeft_keeps (hbound : 2 ≤ bound) (s : Store) (p : Component) (hs : s.Sound) (hp : bound ≤ p.id.id) :
    ∃ s', eraseLeft s p = .ok s' ∧ Store.Sound s' ∧ Store.Keeps (fun i => i.id < bound) 0 s s' := by
  unfold eraseLeft
  split_ifs with hlive
  · have hroot : p.id ≠ .root := by
      intro he
      rw [he] at hp
      exact absurd (hbound.trans hp) (by decide)
    obtain ⟨s', h1, h2, h3⟩ := Store.eraseBelow_keeps hs hlive hroot
    exact ⟨s', h1, h2, h3.mono fun i hi => Nat.lt_of_lt_of_le hi hp⟩
  · exact ⟨s, rfl, hs, Store.Keeps.refl _ s⟩

/-- **Cleaning** pops the components of the node and concerns no older entry. -/
theorem clean_keeps (h : d.store.Sound) (hstack : d.stack = below ++ above) (hbase : node.base = below.length)
    (habove : ∀ p ∈ above, bound ≤ p.id.id) :
    ∃ store, d.clean node = .ok { d with store := store, stack := below } ∧ store.Sound ∧
      Store.Keeps (fun i => i.id < bound) 0 d.store store := by
  obtain ⟨store, hrun, hsound, hkeeps⟩ := foldlM_keeps (l := above.reverse) flagLeft_keeps
    (fun p hp => habove p (List.mem_reverse.1 hp)) h
  refine ⟨store, ?_, hsound, hkeeps⟩
  unfold clean
  rw [require_pos (by rw [hstack, hbase, List.length_append]; omega), Except.ok_bind, hstack, hbase, List.drop_left,
    List.take_left, hrun]
  rfl

theorem clean_spec (h : Ready f d) (hstack : d.stack = below ++ above) (hbase : node.base = below.length)
    (habove : ∀ p ∈ above, bound ≤ p.id.id) :
    ∃ d', d.clean node = .ok d' ∧ Ready f d' ∧ Store.Keeps (fun i => i.id < bound) 0 d.store d'.store ∧
      d'.stack = below := by
  obtain ⟨store, hrun, hsound, hkeeps⟩ := clean_keeps h.sound hstack hbase habove
  exact ⟨_, hrun, ⟨h.explorer, hsound, hkeeps.exact h.exact⟩, hkeeps, rfl⟩

/-- **Removing pollutions** concerns no older entry either. -/
theorem removePollutions_keeps (h : d.store.Sound) (hstack : d.stack = below ++ above)
    (hbase : node.base = below.length) (habove : ∀ p ∈ above, bound ≤ p.id.id) (hbound : 2 ≤ bound)
    (hindex : node.superIndex ≠ 0) (hsuper : d.superOf node = .ok comp) (hlive : d.store.has comp.id = true) :
    ∃ store, d.removePollutions node = .ok { d with store := store } ∧ store.Sound ∧
      Store.Keeps (fun i => i.id < bound) 0 d.store store := by
  obtain ⟨store, hrun, hsound, hkeeps⟩ := foldlM_keeps (l := above) (eraseLeft_keeps hbound) habove h
  refine ⟨store, ?_, hsound, hkeeps⟩
  unfold removePollutions
  rw [require_pos (by rw [hstack, hbase, List.length_append]; omega), Except.ok_bind, require_pos hindex,
    Except.ok_bind, hsuper, Except.ok_bind, require_pos hlive, Except.ok_bind, hstack, hbase, List.drop_left, hrun]
  rfl

theorem removePollutions_spec (h : Ready f d) (hstack : d.stack = below ++ above) (hbase : node.base = below.length)
    (habove : ∀ p ∈ above, bound ≤ p.id.id) (hbound : 2 ≤ bound) (hindex : node.superIndex ≠ 0)
    (hsuper : d.superOf node = .ok comp) (hlive : d.store.has comp.id = true) :
    ∃ d', d.removePollutions node = .ok d' ∧ Ready f d' ∧ Store.Keeps (fun i => i.id < bound) 0 d.store d'.store ∧
      d'.stack = d.stack := by
  obtain ⟨store, hrun, hsound, hkeeps⟩ :=
    removePollutions_keeps h.sound hstack hbase habove hbound hindex hsuper hlive
  exact ⟨_, hrun, ⟨h.explorer, hsound, hkeeps.exact h.exact⟩, hkeeps, rfl⟩

end ModelCount.Decomposer
