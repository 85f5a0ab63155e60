/-
What becomes of the clauses of a text with several headers.

A header begins a new formula wherever it stands, and the clause that is open there stays open. So an accepted text is
read like this (`read_sections`):
- the clauses that are closed before the last header are lost. Each of them was accepted by the formula of its time;
- all later clauses make the formula, and the clause that is open at the last header is the first of them: it has the
  numbers that are open there, and goes on with the numbers that follow.
Nothing is lost and nothing mixed when no number stands before the last header, as in a text of one header. Otherwise
both can happen without an error (`read_loses_and_mixes`).

The invariant is `Taken`: what the reader holds after some items, in terms of the groups of their numbers. Each number
is listed with its section, which is the number of headers before it (`placed`).
-/
import Mathlib.Tactic
import ModelCount.Proofs.Reading

namespace ModelCount.Dimacs

open Text

/-! ## Sections -/

def headers : List Item → ℕ
  | [] => 0
  | .header _ :: is => headers is + 1
  | .number _ :: is => headers is

/-- the numbers with their sections, the first of which has the given number -/
def placed (k : ℕ) : List Item → List (ℕ × ℤ)
  | [] => []
  | .header _ :: is => placed (k + 1) is
  | .number m :: is => (k, m) :: placed k is

def closes (x : ℕ × ℤ) : Bool := x.2 == 0

def textGroups (is : List Item) : List (List (ℕ × ℤ)) := groups closes (placed 0 is)

def literals (g : List (ℕ × ℤ)) : List ℤ := g.map Prod.snd

/-- no header stands between the numbers of the group -/
def OneSection (g : List (ℕ × ℤ)) : Prop := ∀ x ∈ g, ∀ y ∈ g, x.1 = y.1

theorem placed_append (k : ℕ) (is js : List Item) : placed k (is ++ js) = placed k is ++ placed (k + headers is) js := by
  induction is generalizing k with
  | nil => rfl
  | cons item is ih =>
    cases item with
    | header n =>
      show placed (k + 1) (is ++ js) = placed (k + 1) is ++ placed (k + (headers is + 1)) js
      rw [ih, Nat.add_right_comm, Nat.add_assoc]
    | number m => exact congrArg ((k, m) :: ·) (ih k)

theorem placed_numbers (k : ℕ) (ns : List ℤ) : placed k (ns.map .number) = ns.map fun m => (k, m) := by
  induction ns with
  | nil => rfl
  | cons m ns ih => exact congrArg ((k, m) :: ·) ih

theorem section_le {k : ℕ} {is : List Item} {x : ℕ × ℤ} (hx : x ∈ placed k is) : x.1 ≤ k + headers is := by
  induction is generalizing k with
  | nil => cases hx
  | cons item is ih =>
    cases item with
    | header n =>
      have := ih (k := k + 1) hx
      simp only [headers]
      omega
    | number m =>
      rcases List.mem_cons.1 hx with rfl | hx
      · exact Nat.le_add_right k _
      · exact ih hx

theorem countP_closes (k : ℕ) (is : List Item) : (placed k is).countP closes = is.count (.number 0) := by
  induction is generalizing k with
  | nil => rfl
  | cons item is ih =>
    cases item with
    | header n => simp [placed, ih]
    | number m => simp [placed, List.countP_cons, List.count_cons, ih, closes]

/-! ## What the reader holds -/

/-- after the items, the open clause holds what follows the last 0, and what was closed was accepted under a header -/
structure Taken (is : List Item) (state : Reading) : Prop where
  pending : state.pending = literals (rest closes (placed 0 is))
  header : ∀ f, state.formula = some f → .header f.numVars ∈ is
  accepted : ∀ g ∈ closed closes (placed 0 is), ∃ m, .header m ∈ is ∧ ∃ lits, Formula.validate m (literals g) = .ok lits

theorem taken_begin : Taken [] begin := ⟨rfl, by simp [begin], by simp [placed, closed]⟩

theorem Taken.pending_free {is : List Item} {state : Reading} (h : Taken is state) :
    ∀ m ∈ state.pending, (m == 0) = false := by
  intro m hm
  rw [h.pending] at hm
  obtain ⟨x, hx, rfl⟩ := List.mem_map.1 hm
  exact rest_free closes _ x hx

/-- one more item is taken -/
theorem Taken.step {is : List Item} {state state' : Reading} (h : Taken is state) {item : Item}
    (htake : take state item = some state') : Taken (is ++ [item]) state' := by
  have hmono : ∀ {m : ℕ}, Item.header m ∈ is → Item.header m ∈ is ++ [item] := List.mem_append_left _
  cases item with
  | header n =>
    cases htake
    have hplaced : placed 0 (is ++ [.header n]) = placed 0 is := by
      rw [placed_append]
      exact List.append_nil _
    refine ⟨by rw [hplaced]; exact h.pending, ?_, ?_⟩
    · rintro f ⟨⟩
      exact List.mem_append_right _ (List.mem_singleton_self _)
    · rw [hplaced]
      exact fun g hg => (h.accepted g hg).imp fun m hm => ⟨hmono hm.1, hm.2⟩
  | number m =>
    have hplaced : placed 0 (is ++ [.number m]) = placed 0 is ++ [(0 + headers is, m)] := by
      rw [placed_append]
      rfl
    obtain ⟨f, hf, hnext⟩ := Option.bind_eq_some_iff.1 htake
    split_ifs at hnext with hm
    · -- the open clause is closed, which takes an acceptable one
      subst hm
      obtain ⟨g, hadd, rfl⟩ := Option.map_eq_some_iff.1 hnext
      obtain ⟨r, hr, rfl⟩ := Option.map_eq_some_iff.1 hadd
      have hr := Except.eq_ok_of_toOption hr
      refine ⟨?_, ?_, ?_⟩
      · rw [hplaced, rest_append_cons _ _ (by rfl)]
        rfl
      · rintro g ⟨⟩
        rw [Formula.numVars_addClause hr]
        exact hmono (h.header f hf)
      · rw [hplaced, closed_append_cons _ _ (by rfl)]
        intro g hg
        rcases List.mem_append.1 hg with hg | hg
        · exact (h.accepted g hg).imp fun m hm => ⟨hmono hm.1, hm.2⟩
        · have hrest : g = rest closes (placed 0 is) := List.mem_singleton.1 hg
          rw [hrest, ← h.pending]
          exact ⟨f.numVars, hmono (h.header f hf), Formula.validate_of_addClause hr⟩
    · cases hnext
      have hfree : ∀ x ∈ rest closes (placed 0 is) ++ [(0 + headers is, m)], closes x = false :=
        free_append (rest_free closes _) (by simpa [closes] using hm)
      refine ⟨?_, ?_, ?_⟩
      · rw [hplaced, rest_append, rest_of_free hfree, h.pending]
        simp [literals]
      · rintro g ⟨⟩
        exact hmono (h.header f hf)
      · rw [hplaced, closed_append, closed_of_free hfree, List.append_nil]
        exact fun g hg => (h.accepted g hg).imp fun m hm => ⟨hmono hm.1, hm.2⟩

theorem Taken.run {is : List Item} {state : Reading} (h : is.foldlM take begin = some state) : Taken is state := by
  induction is using List.reverseRecOn generalizing state with
  | nil =>
    cases h
    exact taken_begin
  | append_singleton is item ih =>
    rw [List.foldlM_append] at h
    obtain ⟨state₁, h₁, h₂⟩ := Option.bind_eq_some_iff.1 h
    rw [List.foldlM_cons] at h₂
    exact (ih h₁).step ((bind_pure _).symm.trans h₂)

/-! ## The last header -/

theorem exists_last_header (is : List Item) :
    (∃ ns : List ℤ, is = ns.map .number) ∨ ∃ before n, ∃ after : List ℤ,
      is = before ++ .header n :: after.map .number := by
  induction is with
  | nil => exact .inl ⟨[], rfl⟩
  | cons item is ih =>
    cases item with
    | header n =>
      rcases ih with ⟨ns, rfl⟩ | ⟨before, k, after, rfl⟩
      · exact .inr ⟨[], n, ns, rfl⟩
      · exact .inr ⟨.header n :: before, k, after, rfl⟩
    | number m =>
      rcases ih with ⟨ns, rfl⟩ | ⟨before, k, after, rfl⟩
      · exact .inl ⟨m :: ns, rfl⟩
      · exact .inr ⟨.number m :: before, k, after, rfl⟩

/-- numbers alone are not read -/
theorem finish_headless (ns : List ℤ) : ((ns.map Item.number).foldlM take begin).bind finish = none := by
  cases ns <;> rfl

theorem literals_groups (xs : List (ℕ × ℤ)) : (groups closes xs).map literals = groups (· == 0) (literals xs) := by
  unfold literals
  rw [groups_map]
  rfl

/-- what stands in one section makes groups of one section -/
theorem oneSection_of_mem_groups {k : ℕ} {ns : List ℤ} {g : List (ℕ × ℤ)}
    (hg : g ∈ groups closes (ns.map fun m => (k, m))) : OneSection g := by
  have hsection : ∀ x ∈ g, x.1 = k := by
    intro x hx
    obtain ⟨m, -, rfl⟩ := List.mem_map.1 (subset_of_mem_groups hg hx)
    rfl
  exact fun x hx y hy => (hsection x hx).trans (hsection y hy).symm

/-- No group reaches over a header exactly if nothing is open at the last header, or if what is open there belongs to
one section and ends there. -/
theorem oneSection_iff (is : List Item) (after : List ℤ) :
    (∀ g ∈ groups closes (rest closes (placed 0 is) ++ after.map fun m => (headers is + 1, m)), OneSection g) ↔
      rest closes (placed 0 is) = [] ∨ OneSection (rest closes (placed 0 is)) ∧ ∀ m ∈ after.head?, m = 0 := by
  have hfree := rest_free closes (placed 0 is)
  have hsection : ∀ x ∈ rest closes (placed 0 is), x.1 ≤ headers is := by
    intro x hx
    have := section_le ((rest_suffix closes (placed 0 is)).subset hx)
    omega
  generalize rest closes (placed 0 is) = opened at hfree hsection
  by_cases hnil : opened = []
  · subst hnil
    exact iff_of_true (fun g hg => oneSection_of_mem_groups hg) (.inl rfl)
  cases after with
  | nil =>
    rw [List.map_nil, List.append_nil, groups_of_free hfree, if_neg (by simpa using hnil)]
    simp [hnil]
  | cons m after =>
    by_cases hm : m = 0
    · subst hm
      rw [List.map_cons, groups_append_cons hfree (by rfl), List.forall_mem_cons]
      simp only [hnil, false_or, List.head?_cons, Option.mem_some_iff, forall_eq', and_true]
      exact and_iff_left fun g hg => oneSection_of_mem_groups hg
    · -- the open clause goes on with `m`, which stands in a later section
      refine iff_of_false (fun hone => ?_) (by simp [hnil, hm])
      have hlonger : ∀ x ∈ opened ++ [(headers is + 1, m)], closes x = false :=
        free_append hfree (by simpa [closes] using hm)
      obtain ⟨g, hg, hbegins⟩ := exists_prefix_group hlonger (by simp) (after.map fun m => (headers is + 1, m))
      rw [List.append_assoc] at hg
      obtain ⟨x, more, rfl⟩ := List.exists_cons_of_ne_nil hnil
      have hsame : x.1 = headers is + 1 :=
        hone g hg x (hbegins.subset (by simp)) (headers is + 1, m) (hbegins.subset (by simp))
      have := hsection x List.mem_cons_self
      omega

/-- The account of an accepted text: its items around the last header, and its groups of numbers, those that are lost
and those that are kept. -/
structure Account (text : String) (f : Formula) (before : List Item) (n : ℕ) (after : List ℤ)
    (lost kept : List (List (ℕ × ℤ))) : Prop where
  items_eq : items text = some (before ++ .header n :: after.map .number)
  /-- each group is lost or kept as a whole, and two groups are never joined -/
  groups_eq : textGroups (before ++ .header n :: after.map .number) = lost ++ kept
  /-- the formula is built from the kept groups -/
  built : Formula.ofClauses n (kept.map literals) = .ok f
  /-- a lost group was accepted under a header of its time -/
  accepted : ∀ g ∈ lost, ∃ m, .header m ∈ before ∧ ∃ lits, Formula.validate m (literals g) = .ok lits
  /-- the lost groups are those that are closed before the last header -/
  length_lost : lost.length = before.count (.number 0)
  /-- No kept group reaches over a header exactly if nothing is open at the last header, or if what is open there
  belongs to one section and is closed, or ends, at once. -/
  oneSection_iff : (∀ g ∈ kept, OneSection g) ↔
    rest closes (placed 0 before) = [] ∨ OneSection (rest closes (placed 0 before)) ∧ ∀ m ∈ after.head?, m = 0
  /-- under a single header nothing is lost and nothing mixed -/
  single : (∀ m, .header m ∉ before) → lost = [] ∧ ∀ g ∈ kept, OneSection g

/-- nothing is taken before the first header -/
theorem eq_nil_of_headless {is : List Item} {state : Reading} (h : is.foldlM take begin = some state)
    (hnone : ∀ m, Item.header m ∉ is) : is = [] := by
  cases is with
  | nil => rfl
  | cons item is =>
    cases item with
    | header n => exact absurd List.mem_cons_self (hnone n)
    | number m => cases h

/-- **What an accepted text keeps.** The reader loses the groups of numbers that are closed before the last header and
builds the formula from all others, of which only the first can reach over headers. -/
theorem read_sections {text : String} {f : Formula} (h : read text = .ok f) :
    ∃ before n after lost kept, Account text f before n after lost kept := by
  have hread := Except.toOption_eq_some.2 h
  rw [read_eq] at hread
  obtain ⟨is, his, hread⟩ := Option.bind_eq_some_iff.1 hread
  rcases exists_last_header is with ⟨ns, rfl⟩ | ⟨before, n, after, rfl⟩
  · rw [finish_headless] at hread
    cases hread
  rw [List.foldlM_append, Option.bind_eq_bind, Option.bind_assoc] at hread
  obtain ⟨state, hbefore, hread⟩ := Option.bind_eq_some_iff.1 hread
  have htaken := Taken.run hbefore
  rw [finish_header htaken.pending_free] at hread
  have hplaced : placed 0 (before ++ .header n :: after.map .number) =
      placed 0 before ++ after.map fun m => (headers before + 1, m) := by
    rw [placed_append, Nat.zero_add]
    exact congrArg _ (placed_numbers (headers before + 1) after)
  have hliterals : literals (rest closes (placed 0 before) ++ after.map fun m => (headers before + 1, m)) =
      state.pending ++ after := by
    rw [htaken.pending]
    simp [literals]
  refine ⟨before, n, after, closed closes (placed 0 before),
    groups closes (rest closes (placed 0 before) ++ after.map fun m => (headers before + 1, m)), ?_⟩
  exact {
    items_eq := his
    groups_eq := by rw [textGroups, hplaced, groups_append]
    built := by
      rw [literals_groups, hliterals]
      exact Except.toOption_eq_some.1 hread
    accepted := htaken.accepted
    length_lost := (length_closed _ _).trans (countP_closes 0 before)
    oneSection_iff := oneSection_iff before after
    single := by
      intro hnone
      rw [eq_nil_of_headless hbefore hnone]
      exact ⟨rfl, (oneSection_iff [] after).2 (.inl rfl)⟩ }

/-- a clause that is open at a second header and closed right after it: nothing is lost, and no clause is mixed -/
theorem read_sections_reopened :
    ∃ f, read "p cnf 2 1\n1\np cnf 3 2\n0 2 3\n" = .ok f ∧ Formula.ofClauses 3 [[1], [2, 3]] = .ok f ∧
      ∃ before n after lost kept, Account "p cnf 2 1\n1\np cnf 3 2\n0 2 3\n" f before n after lost kept := by
  obtain ⟨f, hf⟩ : ∃ f, Formula.ofClauses 3 [[1], [2, 3]] = .ok f := ⟨_, rfl⟩
  have hitems : items "p cnf 2 1\n1\np cnf 3 2\n0 2 3\n" =
      some [.header 2, .number 1, .header 3, .number 0, .number 2, .number 3] := by decide
  have hread : read "p cnf 2 1\n1\np cnf 3 2\n0 2 3\n" = .ok f := by
    refine Except.eq_ok_of_toOption ?_
    rw [read_eq, hitems, Option.bind_some]
    exact Except.toOption_eq_some.2 hf
  exact ⟨f, hread, hf, read_sections hread⟩

/-- Two sections of one text. The clause of the first one is lost, and the clause that is open there is mixed with the
numbers of the second one; the reader reports nothing. -/
theorem read_loses_and_mixes :
    ∃ f is, read "p cnf 3 2\n1 0\n2\np cnf 3 1\n3 0\n" = .ok f ∧
      items "p cnf 3 2\n1 0\n2\np cnf 3 1\n3 0\n" = some is ∧ textGroups is = [[(1, 1)], [(1, 2), (2, 3)]] ∧
      ¬ OneSection [(1, 2), (2, 3)] ∧ f.clauses = [[Lit.ofInt 2, Lit.ofInt 3]] ∧
      ∀ clauses, Formula.ofClauses 3 clauses = .ok f → [1] ∉ clauses := by
  have hitems : items "p cnf 3 2\n1 0\n2\np cnf 3 1\n3 0\n" =
      some [.header 3, .number 1, .number 0, .number 2, .header 3, .number 3, .number 0] := by decide
  obtain ⟨f, hf, hclauses⟩ : ∃ f, Formula.ofClauses 3 [[2, 3]] = .ok f ∧
      f.clauses = [[Lit.ofInt 2, Lit.ofInt 3]] := ⟨_, rfl, by decide⟩
  refine ⟨f, _, ?_, hitems, by decide, fun hone => ?_, hclauses, fun clauses hof hmem => ?_⟩
  · refine Except.eq_ok_of_toOption ?_
    rw [read_eq, hitems, Option.bind_some]
    exact Except.toOption_eq_some.2 hf
  · exact absurd (hone (1, 2) (by simp) (2, 3) (by simp)) (by decide)
  · -- a formula of a list with [1] stores the literal 1 as a clause
    have hstores := (Formula.stores_of_ofClauses (by decide) hof).2
    obtain ⟨c, hc, hperm⟩ := hstores.exists_perm_of_mem (List.mem_map_of_mem hmem)
    rw [hclauses, List.mem_singleton] at hc
    rw [hc] at hperm
    exact absurd hperm.length_eq (by decide)

end ModelCount.Dimacs
