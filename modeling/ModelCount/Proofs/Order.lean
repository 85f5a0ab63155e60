/-
The order of a slice.

A slice of the stack is put in order in place: each place is compared with every later one, and the larger component is
exchanged to the front. What stands at the place keeps changing meanwhile, so that no place is ever chosen as the
largest. `settle` says what one such round does to the list, the component at hand carried forward until a larger one
replaces it and each that was replaced left where its successor stood; `sortDescending` is one round after the other.
Results:
- `exchangeAll_eq`: the exchanges in place are these rounds;
- `ordered_eq`: so are the shorter ways that slices of at most two components take;
- `sortRange_orders`: what sorting a range of the stack leaves.
-/
import Mathlib.Tactic
import ModelCount.Decomposer

namespace ModelCount.Decomposer

/-! ## Rounds over a list -/

/-- carry the larger component forward through a list: the answer is the largest, and the list in
which each component that was exceeded stands where its successor stood -/
def settle (x : Component) : List Component → Component × List Component
  | [] => (x, [])
  | y :: rest =>
    if x.numVars < y.numVars then
      let (top, rest) := settle y rest
      (top, x :: rest)
    else
      let (top, rest) := settle x rest
      (top, y :: rest)

theorem length_settle (x : Component) (l : List Component) : (settle x l).2.length = l.length := by
  induction l generalizing x with
  | nil => rfl
  | cons y rest ih =>
    by_cases h : x.numVars < y.numVars <;> simp [settle, h, ih]

def sortDescending : List Component → List Component
  | [] => []
  | x :: rest => (settle x rest).1 :: sortDescending (settle x rest).2
termination_by l => l.length
decreasing_by simp [length_settle]

theorem settle_perm (x : Component) (l : List Component) : ((settle x l).1 :: (settle x l).2).Perm (x :: l) := by
  induction l generalizing x with
  | nil => exact List.Perm.refl _
  | cons y rest ih =>
    unfold settle
    split_ifs
    · exact (List.Perm.swap _ _ _).trans ((ih y).cons x)
    · exact (List.Perm.swap _ _ _).trans (((ih x).cons y).trans (List.Perm.swap _ _ _))

theorem sortDescending_perm (l : List Component) : (sortDescending l).Perm l := by
  induction l using sortDescending.induct with
  | case1 => rw [sortDescending]
  | case2 x rest ih =>
    rw [sortDescending]
    exact (ih.cons _).trans (settle_perm x rest)

/-- what is carried forward is the largest -/
theorem le_settle (x : Component) (l : List Component) : ∀ p ∈ x :: l, p.numVars ≤ (settle x l).1.numVars := by
  induction l generalizing x with
  | nil =>
    intro p hp
    rw [List.mem_singleton.1 hp]
    exact le_rfl
  | cons y rest ih =>
    intro p hp
    unfold settle
    split_ifs with hlt
    · rcases List.mem_cons.1 hp with rfl | hp
      · exact hlt.le.trans (ih y y (by simp))
      · exact ih y p hp
    · rcases List.mem_cons.1 hp with rfl | hp
      · exact ih p p (by simp)
      · rcases List.mem_cons.1 hp with rfl | hp
        · exact (Nat.not_lt.1 hlt).trans (ih x x (by simp))
        · exact ih x p (List.mem_cons_of_mem _ hp)

theorem sortDescending_pairwise (l : List Component) :
    (sortDescending l).Pairwise fun p q => q.numVars ≤ p.numVars := by
  induction l using sortDescending.induct with
  | case1 =>
    rw [sortDescending]
    exact .nil
  | case2 x rest ih =>
    rw [sortDescending]
    refine List.pairwise_cons.2 ⟨fun q hq => le_settle x rest q ?_, ih⟩
    exact (settle_perm x rest).mem_iff.1 (List.mem_cons_of_mem _ ((sortDescending_perm _).mem_iff.1 hq))

/-- only the numbers of variables are compared -/
theorem settle_map {g : Component → Component} (hg : ∀ p, (g p).numVars = p.numVars) (x : Component)
    (l : List Component) : settle (g x) (l.map g) = (g (settle x l).1, (settle x l).2.map g) := by
  induction l generalizing x with
  | nil => rfl
  | cons y rest ih =>
    simp only [List.map_cons, settle, hg, ih]
    split_ifs <;> rfl

theorem sortDescending_map {g : Component → Component} (hg : ∀ p, (g p).numVars = p.numVars) (l : List Component) :
    sortDescending (l.map g) = (sortDescending l).map g := by
  induction l using sortDescending.induct with
  | case1 => simp only [List.map_nil, sortDescending]
  | case2 x rest ih => rw [List.map_cons, sortDescending, settle_map hg, ih, sortDescending, List.map_cons]

/-! ## Exchanges in place -/

section Places

variable (front middle rest : List Component) (x : Component)

theorem exchange_eq (y : Component) :
    exchange (front ++ x :: (middle ++ y :: rest)).toArray front.length (front.length + 1 + middle.length) =
      if x.numVars < y.numVars then (front ++ y :: (middle ++ x :: rest)).toArray
      else (front ++ x :: (middle ++ y :: rest)).toArray := by
  have hx : (front ++ x :: (middle ++ y :: rest)).toArray[front.length]? = some x := by simp
  have hy : (front ++ x :: (middle ++ y :: rest)).toArray[front.length + 1 + middle.length]? = some y := by
    simp [Nat.add_assoc, Nat.add_comm 1]
  simp only [exchange, hx, hy]
  split_ifs with hlt
  · simp [Nat.add_assoc, Nat.add_comm 1]
  · rfl

/-- **Inner loop.** With `middle` compared already, comparing a place with the rest is a round over the rest. -/
theorem foldl_exchange :
    (List.range' (front.length + 1 + middle.length) rest.length).foldl (fun slice j => exchange slice front.length j)
        (front ++ x :: (middle ++ rest)).toArray =
      (front ++ (settle x rest).1 :: (middle ++ (settle x rest).2)).toArray := by
  induction rest generalizing x middle with
  | nil => rfl
  | cons y rest ih =>
    have hnext : ∀ z, front.length + 1 + middle.length + 1 = front.length + 1 + (middle ++ [z]).length := by
      intro z
      simp [Nat.add_assoc]
    rw [List.length_cons, List.range'_succ, List.foldl_cons, exchange_eq]
    unfold settle
    split_ifs with hlt
    · have hround := ih (middle ++ [x]) y
      rw [← hnext x] at hround
      simpa using hround
    · have hround := ih (middle ++ [y]) x
      rw [← hnext y] at hround
      simpa using hround

theorem exchangeFrom_eq :
    exchangeFrom (front ++ x :: rest).toArray front.length =
      (front ++ (settle x rest).1 :: (settle x rest).2).toArray := by
  have hsize : (front ++ x :: rest).toArray.size - (front.length + 1) = rest.length := by
    simp only [List.size_toArray, List.length_append, List.length_cons]
    omega
  rw [exchangeFrom, hsize]
  exact foldl_exchange front [] rest x

end Places

/-- **Outer loop.** With the places of `front` done, the places that are left are sorted by rounds. -/
theorem foldl_exchangeFrom (front rest : List Component) :
    (List.range' front.length rest.length).foldl exchangeFrom (front ++ rest).toArray =
      (front ++ sortDescending rest).toArray := by
  induction rest using sortDescending.induct generalizing front with
  | case1 => rw [sortDescending]; rfl
  | case2 x rest ih =>
    have hrounds := ih (front ++ [(settle x rest).1])
    rw [List.length_append, List.length_singleton, length_settle] at hrounds
    rw [List.length_cons, List.range'_succ, List.foldl_cons, exchangeFrom_eq, sortDescending]
    simpa using hrounds

theorem exchangeAll_eq (slice : List Component) : (exchangeAll slice.toArray).toList = sortDescending slice := by
  have hplaces := foldl_exchangeFrom [] slice
  rw [List.length_nil, ← List.range_eq_range'] at hplaces
  rw [exchangeAll, List.size_toArray]
  exact congrArg Array.toList hplaces

/-- whichever way a slice takes, it ends in the same order -/
theorem ordered_eq (slice : List Component) : ordered slice = sortDescending slice := by
  match slice with
  | [] => simp [ordered, sortDescending]
  | [x] => simp [ordered, sortDescending, settle]
  | [x, y] =>
    simp only [ordered, sortDescending, settle]
    split_ifs <;> simp [settle, sortDescending]
  | x :: y :: z :: rest => exact exchangeAll_eq _

theorem ordered_perm (slice : List Component) : (ordered slice).Perm slice := by
  rw [ordered_eq]
  exact sortDescending_perm slice

theorem ordered_pairwise (slice : List Component) : (ordered slice).Pairwise fun p q => q.numVars ≤ p.numVars := by
  rw [ordered_eq]
  exact sortDescending_pairwise slice

/-! ## Ranges of the stack -/

/-- ordering what stands above a stack -/
theorem sortRange_above (d : Decomposer) (below above : List Component) (h : d.stack = below ++ above) :
    d.sortRange below.length (below ++ above).length = .ok { d with stack := below ++ sortDescending above } := by
  rw [sortRange, if_pos ⟨by simp, by rw [h]⟩, h, List.take_left, List.take_length, List.drop_left, List.drop_length,
    List.append_nil, ordered_eq]

/-- **Order of a range.** Sorting a range of the stack, of whatever length, succeeds and changes nothing but the places
in the range. There it leaves the components that stood there, each as it was and none lost or repeated, so that their
numbers of variables do not grow. -/
theorem sortRange_orders (d : Decomposer) {start stop : ℕ} (hle : start ≤ stop) (hstop : stop ≤ d.stack.length) :
    ∃ stack, d.sortRange start stop = .ok { d with stack := stack } ∧
      stack.length = d.stack.length ∧
      (∀ i, i < start ∨ stop ≤ i → stack[i]? = d.stack[i]?) ∧
      ((stack.take stop).drop start).Perm ((d.stack.take stop).drop start) ∧
      ((stack.take stop).drop start).Pairwise fun p q => q.numVars ≤ p.numVars := by
  set slice := (d.stack.take stop).drop start with hslice
  have hbelow : (d.stack.take start).length = start := by rw [List.length_take]; omega
  have hlen : (ordered slice).length = stop - start := by
    rw [(ordered_perm slice).length_eq, hslice, List.length_drop, List.length_take]
    omega
  have hrange : ((d.stack.take start ++ ordered slice ++ d.stack.drop stop).take stop).drop start = ordered slice := by
    have htop : (d.stack.take start ++ ordered slice).length = stop := by rw [List.length_append]; omega
    rw [List.take_left' htop, List.drop_left' hbelow]
  refine ⟨d.stack.take start ++ ordered slice ++ d.stack.drop stop, ?_, ?_, ?_, ?_, ?_⟩
  · rw [sortRange, if_pos ⟨hle, hstop⟩]
  · simp only [List.length_append, List.length_drop, hbelow, hlen]
    omega
  · intro i hi
    rw [List.append_assoc]
    rcases hi with hi | hi
    · rw [List.getElem?_append_left (by omega), List.getElem?_take, if_pos hi]
    · rw [List.getElem?_append_right (by omega), List.getElem?_append_right (by omega), List.getElem?_drop]
      congr 1
      omega
  · rw [hrange]
    exact ordered_perm slice
  · rw [hrange]
    exact ordered_pairwise slice

/-- a range of four components with a tie between two of them, the smallest in front -/
theorem sortRange_orders_tie : ∃ d₀, Decomposer.new ⟨true, 0, 0⟩ = .ok d₀ ∧
    let part := fun n => Component.ofParts ((List.range n).map fun i => ⟨i + 1⟩) [⟨n⟩]
    let d : Decomposer := { d₀ with stack := [.empty, part 9, part 2, part 5, part 3, part 5, part 7] }
    2 ≤ 6 ∧ 6 ≤ d.stack.length ∧
      ∃ stack, d.sortRange 2 6 = .ok { d with stack := stack } ∧
        stack.map Component.numVars = [0, 9, 5, 5, 3, 2, 7] := by
  refine ⟨_, rfl, ?_⟩
  intro part d
  have h6 : 6 ≤ d.stack.length := by decide
  obtain ⟨stack, hrun, -, -, -, -⟩ := @sortRange_orders d 2 6 (by decide) h6
  have hnums : (d.sortRange 2 6).map (fun d => d.stack.map Component.numVars) = .ok [0, 9, 5, 5, 3, 2, 7] := by cbv
  rw [hrun] at hnums
  exact ⟨by decide, h6, stack, hrun, Except.ok.inj hnums⟩

end ModelCount.Decomposer
