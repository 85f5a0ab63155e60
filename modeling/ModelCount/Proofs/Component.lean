/-
Packed lists read back: components and signatures.

A component of given lists has these lists (`vars_ofParts`, `clauses_ofParts`). A signature keeps its lists apart:
as no variable has the number 0, equal words mean equal lists (`ofParts_inj`). The component knows where its clauses
start, the signature looks for the first 0; `packed_round_trip` says that both find the border.
-/
import Mathlib.Tactic
import ModelCount.Signature

namespace ModelCount

namespace Component

theorem foldl_addVar (vars : List Var) (comp : Component) :
    vars.foldl addVar comp = { comp with words := comp.words ++ vars.map Var.id } := by
  induction vars generalizing comp with
  | nil => simp
  | cons v vars ih => rw [List.foldl_cons, ih]; simp [addVar]

theorem foldl_addClause (clauses : List ClauseId) (comp : Component) :
    clauses.foldl addClause comp = { comp with words := comp.words ++ clauses.map ClauseId.id } := by
  induction clauses generalizing comp with
  | nil => simp
  | cons c clauses ih => rw [List.foldl_cons, ih]; simp [addClause]

theorem words_ofParts (vars : List Var) (clauses : List ClauseId) :
    (ofParts vars clauses).words.toList = vars.map Var.id ++ 0 :: (clauses.map ClauseId.id ++ [0]) := by
  simp [ofParts, foldl_addVar, foldl_addClause, closeVars, closeClauses, blank]

theorem clausesStart_ofParts (vars : List Var) (clauses : List ClauseId) :
    (ofParts vars clauses).clausesStart = vars.length + 1 := by
  simp [ofParts, foldl_addVar, foldl_addClause, closeVars, closeClauses, blank]

@[simp] theorem numVars_ofParts (vars : List Var) (clauses : List ClauseId) :
    (ofParts vars clauses).numVars = vars.length := by
  simp [numVars, clausesStart_ofParts]

@[simp] theorem vars_ofParts (vars : List Var) (clauses : List ClauseId) : (ofParts vars clauses).vars = vars := by
  calc (ofParts vars clauses).vars
      = ((vars.map Var.id ++ 0 :: (clauses.map ClauseId.id ++ [0])).take (vars.map Var.id).length).map Var.mk := by
        rw [Component.vars, numVars_ofParts, words_ofParts, List.length_map]
    _ = (vars.map Var.id).map Var.mk := by rw [List.take_left]
    _ = vars := by
        rw [List.map_map]
        exact List.map_id'' (fun _ => rfl) _

@[simp] theorem numClauses_ofParts (vars : List Var) (clauses : List ClauseId) :
    (ofParts vars clauses).numClauses = clauses.length := by
  rw [numClauses, ← Array.length_toList, words_ofParts, clausesStart_ofParts]
  simp only [List.length_append, List.length_cons, List.length_map, List.length_nil]
  omega

@[simp] theorem clauses_ofParts (vars : List Var) (clauses : List ClauseId) :
    (ofParts vars clauses).clauses = clauses := by
  have hdrop : (vars.map Var.id ++ 0 :: (clauses.map ClauseId.id ++ [0])).drop ((vars.map Var.id).length + 1) =
      clauses.map ClauseId.id ++ [0] := by
    rw [← List.drop_drop, List.drop_left]
    rfl
  calc (ofParts vars clauses).clauses
      = (((vars.map Var.id ++ 0 :: (clauses.map ClauseId.id ++ [0])).drop ((vars.map Var.id).length + 1)).take
          (clauses.map ClauseId.id).length).map ClauseId.mk := by
        rw [Component.clauses, numClauses_ofParts, clausesStart_ofParts, words_ofParts, List.length_map, List.length_map]
    _ = (clauses.map ClauseId.id).map ClauseId.mk := by rw [hdrop, List.take_left]
    _ = clauses := by
        rw [List.map_map]
        exact List.map_id'' (fun _ => rfl) _

theorem varAt_ofParts (vars : List Var) (clauses : List ClauseId) (i : ℕ) :
    (ofParts vars clauses).varAt i = match vars[i]? with
      | some v => .ok v
      | none => .error .contract := by
  rw [varAt, numVars_ofParts]
  split_ifs with hi
  · have hword : (ofParts vars clauses).words[i]? = some vars[i].id := by
      rw [← Array.getElem?_toList, words_ofParts, List.getElem?_append_left (by simpa using hi), List.getElem?_map,
        List.getElem?_eq_getElem hi, Option.map_some]
    rw [hword, List.getElem?_eq_getElem hi]
  · rw [List.getElem?_eq_none (Nat.not_lt.1 hi)]

/-- room asked for beforehand is no member -/
theorem withRoom_eq {numVars numClauses : ℕ} {comp : Component} (h : withRoom numVars numClauses = .ok comp) :
    comp = blank := by
  unfold withRoom require at h
  split_ifs at h
  · cases h; rfl
  · cases h

@[simp] theorem vars_withId (comp : Component) (id : EntryId) : (comp.withId id).vars = comp.vars := rfl

@[simp] theorem clauses_withId (comp : Component) (id : EntryId) : (comp.withId id).clauses = comp.clauses := rfl

end Component

namespace Signature

/-- what stands before the first 0 is the first list -/
theorem append_zero_inj {l l' r r' : List ℕ} (hl : ∀ w ∈ l, w ≠ 0) (hl' : ∀ w ∈ l', w ≠ 0)
    (h : l ++ 0 :: r = l' ++ 0 :: r') : l = l' ∧ r = r' := by
  induction l generalizing l' with
  | nil =>
    cases l' with
    | nil => simpa using h
    | cons w l' =>
      simp only [List.nil_append, List.cons_append, List.cons.injEq] at h
      exact absurd h.1.symm (hl' w (by simp))
  | cons w l ih =>
    cases l' with
    | nil =>
      simp only [List.nil_append, List.cons_append, List.cons.injEq] at h
      exact absurd h.1 (hl w (by simp))
    | cons w' l' =>
      simp only [List.cons_append, List.cons.injEq] at h
      obtain ⟨h1, h2⟩ := ih (fun x hx => hl x (List.mem_cons_of_mem _ hx))
        (fun x hx => hl' x (List.mem_cons_of_mem _ hx)) h.2
      exact ⟨by rw [h.1, h1], h2⟩

/-- **Unique decoding.** Over proper variables, equal signatures have equal lists. -/
theorem ofParts_inj {vars vars' : List Var} {clauses clauses' : List ClauseId} (hv : ∀ v ∈ vars, v.id ≠ 0)
    (hv' : ∀ v ∈ vars', v.id ≠ 0) :
    ofParts vars clauses = ofParts vars' clauses' ↔ vars = vars' ∧ clauses = clauses' := by
  constructor
  · intro h
    simp only [ofParts, Signature.mk.injEq] at h
    obtain ⟨h1, h2⟩ := append_zero_inj (by simpa using hv) (by simpa using hv') h
    have hvi : Function.Injective Var.id := fun a b e => by cases a; cases b; simpa using e
    have hci : Function.Injective ClauseId.id := fun a b e => by cases a; cases b; simpa using e
    exact ⟨List.map_injective_iff.2 hvi h1, List.map_injective_iff.2 hci (List.append_cancel_right h2)⟩
  · intro hboth
    rcases hboth with ⟨rfl, rfl⟩
    rfl

/-- over proper variables and clauses, the only zeros are those that end the lists -/
theorem count_zero_ofParts {vars : List Var} {clauses : List ClauseId} (hv : ∀ v ∈ vars, v.id ≠ 0)
    (hc : ∀ c ∈ clauses, c.id ≠ 0) : (ofParts vars clauses).words.count 0 = 2 := by
  have h1 : (vars.map Var.id).count 0 = 0 := List.count_eq_zero.2 (by simpa using fun v hm he => hv v hm he)
  have h2 : (clauses.map ClauseId.id).count 0 = 0 := List.count_eq_zero.2 (by simpa using fun c hm he => hc c hm he)
  rw [ofParts, List.count_append, List.count_cons_self, List.count_append, h1, h2]
  rfl

theorem numVars_ofParts {vars : List Var} {clauses : List ClauseId} (hv : ∀ v ∈ vars, v.id ≠ 0) :
    (ofParts vars clauses).numVars = vars.length := by
  have hborder : (ofParts vars clauses).words.findIdx? (· == 0) = some vars.length := by
    have hnone : (vars.map Var.id).findIdx? (· == 0) = none := by
      simpa [List.findIdx?_eq_none_iff] using hv
    rw [ofParts, List.findIdx?_append, hnone, List.findIdx?_cons]
    simp
  rw [numVars, hborder]

theorem numClauses_ofParts {vars : List Var} {clauses : List ClauseId} (hv : ∀ v ∈ vars, v.id ≠ 0) :
    (ofParts vars clauses).numClauses = clauses.length := by
  rw [numClauses, numVars_ofParts hv]
  simp only [ofParts, List.length_append, List.length_cons, List.length_map, List.length_nil]
  omega

def vars (s : Signature) : List Var := (s.words.takeWhile (· != 0)).map Var.mk

def clauses (s : Signature) : List ClauseId :=
  (((s.words.dropWhile (· != 0)).drop 1).takeWhile (· != 0)).map ClauseId.mk

theorem takeWhile_append_zero {l r : List ℕ} (hl : ∀ w ∈ l, w ≠ 0) :
    (l ++ 0 :: r).takeWhile (· != 0) = l ∧ (l ++ 0 :: r).dropWhile (· != 0) = 0 :: r := by
  rw [List.takeWhile_append_of_pos (by simpa using hl), List.dropWhile_append_of_pos (by simpa using hl)]
  simp

theorem vars_ofParts {vars : List Var} {clauses : List ClauseId} (hv : ∀ v ∈ vars, v.id ≠ 0) :
    (ofParts vars clauses).vars = vars := by
  calc (ofParts vars clauses).vars
      = (vars.map Var.id).map Var.mk := by
        rw [Signature.vars, ofParts, (takeWhile_append_zero (by simpa using hv)).1]
    _ = vars := by
        rw [List.map_map]
        exact List.map_id'' (fun _ => rfl) _

theorem clauses_ofParts {vars : List Var} {clauses : List ClauseId} (hv : ∀ v ∈ vars, v.id ≠ 0)
    (hc : ∀ c ∈ clauses, c.id ≠ 0) : (ofParts vars clauses).clauses = clauses := by
  calc (ofParts vars clauses).clauses
      = ((clauses.map ClauseId.id ++ [0]).takeWhile (· != 0)).map ClauseId.mk := by
        rw [Signature.clauses, ofParts, (takeWhile_append_zero (by simpa using hv)).2, List.drop_one, List.tail_cons]
    _ = (clauses.map ClauseId.id).map ClauseId.mk := by rw [(takeWhile_append_zero (by simpa using hc)).1]
    _ = clauses := by
        rw [List.map_map]
        exact List.map_id'' (fun _ => rfl) _

end Signature

open Component in
/-- **Unique decoding of packed lists.** A component that is filled list by list, with whatever room asked for
beforehand, gives back both lists and their lengths, and each variable at its place. The signature of the same lists
has the same words and counts both lists by looking for the first 0. Two signatures have the same words only if they
have the same lists. -/
theorem packed_round_trip {numVars numClauses : ℕ} {start : Component} (hroom : withRoom numVars numClauses = .ok start)
    {vars : List Var} (hv : ∀ v ∈ vars, v.id ≠ 0) (clauses : List ClauseId) :
    let comp := (clauses.foldl addClause (vars.foldl addVar start).closeVars).closeClauses
    let signature := Signature.ofParts vars clauses
    comp.vars = vars ∧ comp.clauses = clauses ∧ comp.numVars = vars.length ∧ comp.numClauses = clauses.length ∧
      (∀ i (hi : i < vars.length), comp.varAt i = .ok vars[i]) ∧
      (∀ i, vars.length ≤ i → comp.varAt i = .error .contract) ∧
      signature.words = comp.words.toList ∧
      signature.numVars = vars.length ∧ signature.numClauses = clauses.length ∧
      ∀ (vars' : List Var) (clauses' : List ClauseId), (∀ v ∈ vars', v.id ≠ 0) →
        (signature.words = (Signature.ofParts vars' clauses').words ↔ vars = vars' ∧ clauses = clauses') := by
  intro comp signature
  have hcomp : comp = ofParts vars clauses := by
    simp only [comp, withRoom_eq hroom, ofParts]
  refine ⟨by simp [hcomp], by simp [hcomp], by simp [hcomp], by simp [hcomp], fun i hi => ?_, fun i hi => ?_, ?_,
    Signature.numVars_ofParts hv, Signature.numClauses_ofParts hv, fun vars' clauses' hv' => ?_⟩
  · rw [hcomp, varAt_ofParts, List.getElem?_eq_getElem hi]
  · rw [hcomp, varAt_ofParts, List.getElem?_eq_none hi]
  · rw [hcomp, words_ofParts]
    rfl
  · rw [← Signature.ofParts_inj hv hv', Signature.mk.injEq]

/-- the same words, divided in two ways; room for less than what comes -/
theorem packed_round_trip_divided :
    Component.withRoom 1 0 = .ok .blank ∧ (∀ v ∈ [Var.mk 2, ⟨7⟩], v.id ≠ 0) ∧ (∀ v ∈ [Var.mk 2], v.id ≠ 0) ∧
      (Signature.ofParts [⟨2⟩, ⟨7⟩] [⟨3⟩]).numVars = 2 ∧
      (Signature.ofParts [⟨2⟩, ⟨7⟩] [⟨3⟩]).words ≠ (Signature.ofParts [⟨2⟩] [⟨7⟩, ⟨3⟩]).words := by
  have hroom : Component.withRoom 1 0 = .ok .blank := rfl
  have hv : ∀ v ∈ [Var.mk 2, ⟨7⟩], v.id ≠ 0 := by decide
  have hv' : ∀ v ∈ [Var.mk 2], v.id ≠ 0 := by decide
  obtain ⟨-, -, -, -, -, -, -, hnum, -, hwords⟩ := packed_round_trip hroom hv [⟨3⟩]
  refine ⟨hroom, hv, hv', hnum, fun h => ?_⟩
  exact absurd ((hwords [⟨2⟩] [⟨7⟩, ⟨3⟩] hv').1 h).1 (by decide)

end ModelCount
