/-
Outcomes: how a fallible run may end.

`Ends E r P` says that the run `r` gives a result with the property `P`, unless it meets a fault of the
class `E`. With `Spent` (only a 32-bit counter may run full, and only if it can come that far) it is total
correctness up to the size of the machine words; with `AnyFault` it is partial correctness. A run is taken apart by
`Ends.bind`, a loop by `Ends.foldlM`.
-/
import Mathlib.Tactic
import ModelCount.Traced

namespace ModelCount

/-- the faults of a counter that is full: a score where scores come to `points`, or the entry ids where the next one is
the last of its machine word, below `ids` -/
def Spent (points ids : ℕ) (fault : Fault) : Prop :=
  (fault = .scoreFull ∧ 4294967296 ≤ points) ∨ ∃ next, fault = .idsSpent next ∧ 4294967295 ≤ next ∧ next < ids

def AnyFault (_ : Fault) : Prop := True

/-- the run gives a result with the property, or a fault of the class -/
def Ends {α : Type} (E : Fault → Prop) (r : Except Fault α) (P : α → Prop) : Prop :=
  match r with
  | .ok a => P a
  | .error fault => E fault

/-- small counters do not run full -/
theorem not_spent {points ids : ℕ} (hp : points < 4294967296) (hi : ids < 4294967296) (fault : Fault) :
    ¬ Spent points ids fault := by
  intro h
  rcases h with ⟨-, h⟩ | ⟨next, -, hlast, hnext⟩
  · exact absurd h (Nat.not_le.2 hp)
  · omega

namespace Ends

variable {α β : Type} {E : Fault → Prop} {r : Except Fault α} {P Q : α → Prop}

@[simp] theorem ok_iff {a : α} : Ends E (.ok a) P ↔ P a := Iff.rfl

theorem mono (h : Ends E r P) (hPQ : ∀ a, P a → Q a) : Ends E r Q := by
  cases r with
  | ok a => exact hPQ a h
  | error fault => exact h

/-- what holds of every result holds of this one, if there is one -/
theorem of_result (h : Ends E r P) (hQ : ∀ a, r = .ok a → Q a) : Ends E r Q := by
  cases r with
  | ok a => exact hQ a rfl
  | error fault => exact h

theorem weaken {E' : Fault → Prop} (h : Ends E r P) (hE : ∀ fault, E fault → E' fault) : Ends E' r P := by
  cases r with
  | ok a => exact h
  | error fault => exact hE fault h

theorem bind {f : α → Except Fault β} {R : β → Prop} (h : Ends E r P) (hf : ∀ a, P a → Ends E (f a) R) :
    Ends E (r >>= f) R := by
  cases r with
  | ok a => exact hf a h
  | error fault => exact h

/-- a first step whose result is known -/
theorem bind_of_eq {f : α → Except Fault β} {R : β → Prop} {a : α} (h : r = .ok a) (hf : Ends E (f a) R) :
    Ends E (r >>= f) R := by
  rw [h]; exact hf

/-- what holds of every result holds of this one -/
theorem of_ok (h : ∀ a, r = .ok a → P a) : Ends AnyFault r P := by
  cases r with
  | ok a => exact h a rfl
  | error fault => trivial

/-- a run about which nothing is asked -/
theorem anything (r : Except Fault α) : Ends AnyFault r fun _ => True := of_ok fun _ _ => True.intro

theorem get {a : α} (h : Ends E r P) (hr : r = .ok a) : P a := by
  rw [hr] at h; exact h

/-- where no fault is possible there is a result -/
theorem exists_ok (h : Ends E r P) (hE : ∀ fault, ¬ E fault) : ∃ a, r = .ok a ∧ P a := by
  cases r with
  | ok a => exact ⟨a, rfl, h⟩
  | error fault => exact absurd h (hE fault)

theorem any (h : Ends E r P) : Ends AnyFault r P := by
  cases r with
  | ok a => exact h
  | error fault => trivial

/-- a loop keeps an invariant of the items done and the state -/
theorem foldlM {f : β → α → Except Fault β} {l : List α} {b : β} (I : List α → β → Prop) (h0 : I [] b)
    (hstep : ∀ done x rest b, l = done ++ x :: rest → I done b → Ends E (f b x) (I (done ++ [x]))) :
    Ends E (l.foldlM f b) (I l) := by
  have key : ∀ rest done b, l = done ++ rest → I done b → Ends E (rest.foldlM f b) (I l) := by
    intro rest
    induction rest with
    | nil =>
      intro done b hl hI
      rw [hl, List.append_nil]; exact hI
    | cons x rest ih =>
      intro done b hl hI
      rw [List.foldlM_cons]
      refine (hstep done x rest b hl hI).bind fun b' hb' => ih (done ++ [x]) b' ?_ hb'
      rw [hl]; simp
  exact key l [] b rfl h0

/-- a loop keeps an invariant of the state -/
theorem foldlM_state {f : β → α → Except Fault β} {l : List α} {b : β} (I : β → Prop) (h0 : I b)
    (hstep : ∀ x ∈ l, ∀ b, I b → Ends E (f b x) I) : Ends E (l.foldlM f b) I :=
  foldlM (fun _ => I) h0 fun done x rest b hl hb => hstep x (by rw [hl]; simp) b hb

end Ends

@[simp] theorem require_pos {p : Prop} [Decidable p] {fault : Fault} (h : p) : require p fault = .ok () :=
  if_pos h

@[simp] theorem Except.ok_bind {α β : Type} (a : α) (f : α → Except Fault β) : (Except.ok a >>= f) = f a := rfl

@[simp] theorem Except.pure_eq {α : Type} (a : α) : (pure a : Except Fault α) = .ok a := rfl

theorem Except.eq_ok_of_toOption {ε α : Type} {r : Except ε α} {a : α} (h : r.toOption = some a) : r = .ok a := by
  cases r with
  | ok x =>
    cases h
    rfl
  | error fault => cases h

theorem Except.toOption_bind {ε α β : Type} (r : Except ε α) (f : α → Except ε β) :
    (r >>= f).toOption = r.toOption.bind fun a => (f a).toOption := by
  cases r <;> rfl

theorem Except.toOption_map {ε α β : Type} (r : Except ε α) (f : α → β) : (r.map f).toOption = r.toOption.map f := by
  cases r <;> rfl

theorem Except.toOption_eq_some {ε α : Type} {r : Except ε α} {a : α} : r.toOption = some a ↔ r = .ok a := by
  refine ⟨Except.eq_ok_of_toOption, fun h => ?_⟩
  rw [h]
  rfl

/-- a sequence has a result only if its first step has one -/
theorem exists_of_bind {α β : Type} {r : Except Fault α} {f : α → Except Fault β} {b : β} (h : (r >>= f) = .ok b) :
    ∃ a, r = .ok a ∧ f a = .ok b := by
  cases r with
  | ok a => exact ⟨a, rfl, h⟩
  | error fault => cases h

/-- a list of results, each of which is known -/
theorem mapM_eq_ok {α β : Type} {f : α → Except Fault β} {g : α → β} {l : List α} (h : ∀ a ∈ l, f a = .ok (g a)) :
    l.mapM f = .ok (l.map g) := by
  induction l with
  | nil => rfl
  | cons a l ih =>
    rw [List.mapM_cons, h a List.mem_cons_self, Except.ok_bind, ih fun b hb => h b (List.mem_cons_of_mem _ hb)]
    rfl

/-- what is computed by a loop that reports events -/
theorem Traced.result_foldlM {α β : Type} (f : β → α → Traced β) (l : List α) (b : β) :
    (l.foldlM f b).result = l.foldlM (fun b x => (f b x).result) b := by
  induction l generalizing b with
  | nil => rfl
  | cons x l ih =>
    rw [List.foldlM_cons, List.foldlM_cons, Traced.result_bind]
    congr 1
    funext b'
    exact ih b'

end ModelCount
