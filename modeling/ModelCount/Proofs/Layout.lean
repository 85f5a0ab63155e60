/-
How a text is cut up, and that decimal numbers read back.

A list is cut into groups by terminators: each terminator closes a group, and what follows the last terminator is a
group only if it is not empty. The lines of a text are its groups with line feeds as terminators (`lines_eq`); the
clauses of a formula text are groups of its numbers.
- What is closed stays closed, and what is open goes on (`closed_append`, `rest_append`). So a reader that keeps the
  open group across the pieces of a list cuts the list as a whole (`groups_append`).
- Blanks around a line do not change its words (`words_trim`), and a printed line has the words that were printed
  (`words_intercalate`).
- A printed number within the bounds of the format is read as itself (`readInt_toString`).
-/
import Mathlib.Tactic
import Mathlib.Data.List.DropRight
import ModelCount.Text.Blank
import ModelCount.Text.Number

namespace ModelCount.Text

/-! ## Groups -/

section Groups

variable {α β : Type} {ends : α → Bool}

/-- the groups that are closed by a terminator -/
def closed (ends : α → Bool) (xs : List α) : List (List α) := (xs.splitOnP ends).dropLast

/-- what follows the last terminator -/
def rest (ends : α → Bool) (xs : List α) : List α := (xs.splitOnP ends).getLastD []

/-- the groups of a list; what follows the last terminator is one of them unless it is empty -/
def groups (ends : α → Bool) (xs : List α) : List (List α) :=
  closed ends xs ++ if (rest ends xs).isEmpty then [] else [rest ends xs]

theorem splitOnP_eq (ends : α → Bool) (xs : List α) : xs.splitOnP ends = closed ends xs ++ [rest ends xs] := by
  have hne := List.splitOnP_ne_nil ends xs
  rw [closed, rest, List.getLastD_eq_getLast?, List.getLast?_eq_some_getLast hne, Option.getD_some]
  exact (List.dropLast_append_getLast hne).symm

/-- nothing is closed before the first terminator -/
theorem closed_of_free {xs : List α} (h : ∀ x ∈ xs, ends x = false) : closed ends xs = [] := by
  rw [closed, List.splitOnP_eq_singleton h, List.dropLast_singleton]

theorem rest_of_free {xs : List α} (h : ∀ x ∈ xs, ends x = false) : rest ends xs = xs := by
  rw [rest, List.splitOnP_eq_singleton h]
  rfl

theorem splitOnP_append_cons (xs ys : List α) {a : α} (ha : ends a = true) :
    closed ends (xs ++ a :: ys) ++ [rest ends (xs ++ a :: ys)] =
      (closed ends xs ++ rest ends xs :: closed ends ys) ++ [rest ends ys] := by
  rw [← splitOnP_eq, List.splitOnP_append_cons xs ys ha, splitOnP_eq, splitOnP_eq ends ys]
  simp

/-- a terminator closes what is open -/
theorem closed_append_cons (xs ys : List α) {a : α} (ha : ends a = true) :
    closed ends (xs ++ a :: ys) = closed ends xs ++ rest ends xs :: closed ends ys :=
  (List.append_inj' (splitOnP_append_cons xs ys ha) rfl).1

theorem rest_append_cons (xs ys : List α) {a : α} (ha : ends a = true) :
    rest ends (xs ++ a :: ys) = rest ends ys :=
  List.singleton_inj.1 (List.append_inj' (splitOnP_append_cons xs ys ha) rfl).2

theorem free_append {xs ys : List α} (hxs : ∀ x ∈ xs, ends x = false) (hys : ∀ y ∈ ys, ends y = false) :
    ∀ x ∈ xs ++ ys, ends x = false :=
  fun x hx => (List.mem_append.1 hx).elim (hxs x) (hys x)

/-- a list has no terminator, or it goes on after its first group -/
@[elab_as_elim]
theorem groups_induction (ends : α → Bool) {P : List α → Prop} (free : ∀ xs, (∀ x ∈ xs, ends x = false) → P xs)
    (close : ∀ u a xs, (∀ x ∈ u, ends x = false) → ends a = true → P xs → P (u ++ a :: xs)) (xs : List α) : P xs := by
  have key : ∀ xs u, (∀ x ∈ u, ends x = false) → P (u ++ xs) := by
    intro xs
    induction xs with
    | nil =>
      intro u hu
      rw [List.append_nil]
      exact free u hu
    | cons a xs ih =>
      intro u hu
      cases ha : ends a with
      | true => exact close u a xs hu ha (ih [] (by simp))
      | false =>
        have := ih (u ++ [a]) (free_append hu (by simpa using ha))
        rwa [List.append_assoc, List.singleton_append] at this
  exact key xs [] (by simp)

theorem rest_free (ends : α → Bool) (xs : List α) : ∀ x ∈ rest ends xs, ends x = false := by
  induction xs using groups_induction ends with
  | free xs h =>
    rw [rest_of_free h]
    exact h
  | close u a xs hu ha ih =>
    rw [rest_append_cons u xs ha]
    exact ih

theorem append_parts (xs ys : List α) :
    closed ends (xs ++ ys) = closed ends xs ++ closed ends (rest ends xs ++ ys) ∧
      rest ends (xs ++ ys) = rest ends (rest ends xs ++ ys) := by
  induction xs using groups_induction ends with
  | free xs h =>
    rw [closed_of_free h, rest_of_free h]
    exact ⟨rfl, rfl⟩
  | close u a xs hu ha ih =>
    rw [List.append_assoc, List.cons_append, closed_append_cons _ _ ha, rest_append_cons _ _ ha,
      closed_append_cons _ _ ha, rest_append_cons _ _ ha, closed_of_free hu, rest_of_free hu]
    exact ⟨congrArg (u :: ·) ih.1, ih.2⟩

/-- what is closed stays closed -/
theorem closed_append (xs ys : List α) :
    closed ends (xs ++ ys) = closed ends xs ++ closed ends (rest ends xs ++ ys) :=
  (append_parts xs ys).1

/-- what is open goes on -/
theorem rest_append (xs ys : List α) : rest ends (xs ++ ys) = rest ends (rest ends xs ++ ys) := (append_parts xs ys).2

theorem groups_append (xs ys : List α) :
    groups ends (xs ++ ys) = closed ends xs ++ groups ends (rest ends xs ++ ys) := by
  rw [groups, groups, closed_append, rest_append, List.append_assoc]

/-- a list without a terminator is one group, unless it is empty -/
theorem groups_of_free {xs : List α} (h : ∀ x ∈ xs, ends x = false) :
    groups ends xs = if xs.isEmpty then [] else [xs] := by
  rw [groups, closed_of_free h, rest_of_free h, List.nil_append]

theorem groups_append_cons {u : List α} (hu : ∀ x ∈ u, ends x = false) {a : α} (ha : ends a = true) (xs : List α) :
    groups ends (u ++ a :: xs) = u :: groups ends xs := by
  rw [groups, closed_append_cons _ _ ha, rest_append_cons _ _ ha, closed_of_free hu, rest_of_free hu]
  rfl

theorem rest_suffix (ends : α → Bool) (xs : List α) : rest ends xs <:+ xs := by
  induction xs using groups_induction ends with
  | free xs h => rw [rest_of_free h]
  | close u a xs hu ha ih =>
    rw [rest_append_cons u xs ha]
    exact ih.trans ((List.suffix_cons a xs).trans (List.suffix_append u _))

/-- the items of a group are items of the list -/
theorem subset_of_mem_groups {xs g : List α} (hg : g ∈ groups ends xs) : g ⊆ xs := by
  induction xs using groups_induction ends with
  | free xs h =>
    rw [groups_of_free h] at hg
    split_ifs at hg
    · cases hg
    · rw [List.mem_singleton.1 hg]
      exact List.Subset.refl xs
  | close u a xs hu ha ih =>
    rw [groups_append_cons hu ha] at hg
    rcases List.mem_cons.1 hg with rfl | hg
    · exact List.subset_append_left g _
    · exact fun x hx => List.mem_append_right u (List.mem_cons_of_mem a (ih hg hx))

/-- what is open begins a group -/
theorem exists_prefix_group {u : List α} (hu : ∀ x ∈ u, ends x = false) (hne : u ≠ []) (xs : List α) :
    ∃ g ∈ groups ends (u ++ xs), u <+: g := by
  induction xs using groups_induction ends with
  | free xs h =>
    refine ⟨u ++ xs, ?_, List.prefix_append u xs⟩
    rw [groups_of_free (free_append hu h), if_neg (by simp [hne])]
    exact List.mem_singleton_self _
  | close v a xs hv ha _ =>
    refine ⟨u ++ v, ?_, List.prefix_append u v⟩
    rw [← List.append_assoc, groups_append_cons (free_append hu hv) ha]
    exact List.mem_cons_self

/-- each terminator closes one group -/
theorem length_closed (ends : α → Bool) (xs : List α) : (closed ends xs).length = xs.countP ends := by
  induction xs using groups_induction ends with
  | free xs h =>
    rw [closed_of_free h, List.countP_eq_zero.2 (by simpa using h)]
    rfl
  | close u a xs hu ha ih =>
    rw [closed_append_cons _ _ ha, closed_of_free hu, List.countP_append, List.countP_eq_zero.2 (by simpa using hu),
      List.countP_cons_of_pos ha, ← ih]
    simp

theorem groups_map (f : β → α) (xs : List β) :
    groups ends (xs.map f) = (groups (fun b => ends (f b)) xs).map (List.map f) := by
  induction xs using groups_induction fun b => ends (f b) with
  | free xs h =>
    rw [groups_of_free h, groups_of_free (by simpa using h), List.isEmpty_map]
    split_ifs <;> rfl
  | close u a xs hu ha ih =>
    rw [groups_append_cons hu ha, List.map_append, List.map_cons, groups_append_cons (by simpa using hu) ha, ih]
    rfl

/-- a group of each row, if each row is followed by a terminator -/
theorem groups_flatMap {a : α} (ha : ends a = true) {rows : List (List α)}
    (h : ∀ row ∈ rows, ∀ x ∈ row, ends x = false) : groups ends (rows.flatMap fun row => row ++ [a]) = rows := by
  have key : closed ends (rows.flatMap fun row => row ++ [a]) = rows ∧
      rest ends (rows.flatMap fun row => row ++ [a]) = [] := by
    induction rows with
    | nil => exact ⟨closed_of_free (by simp), rest_of_free (by simp)⟩
    | cons row rows ih =>
      have hrow := h row List.mem_cons_self
      have ih := ih fun r hr => h r (List.mem_cons_of_mem _ hr)
      rw [List.flatMap_cons, List.append_assoc, List.singleton_append, closed_append_cons _ _ ha,
        rest_append_cons _ _ ha, closed_of_free hrow, rest_of_free hrow, ih.1, ih.2]
      exact ⟨rfl, rfl⟩
  rw [groups, key.1, key.2]
  exact List.append_nil rows

end Groups

/-! ## Lines and words -/

/-- characters in a row without a blank -/
def IsWord (w : List Char) : Prop := w ≠ [] ∧ ∀ c ∈ w, isBlank c = false

instance (w : List Char) : Decidable (IsWord w) :=
  decidable_of_iff (w ≠ [] ∧ (w.all fun c => !isBlank c) = true) (by simp [IsWord])

theorem cut_eq (separates : Char → Bool) (s : List Char) : cut separates s = s.splitOnP separates := by
  induction s with
  | nil => rfl
  | cons c s ih =>
    rw [List.splitOnP_cons_eq_if_modifyHead, ← ih]
    show cutStep separates c (cut separates s) = _
    obtain ⟨piece, pieces, hcut⟩ := List.exists_cons_of_ne_nil (List.splitOnP_ne_nil separates s)
    rw [ih, hcut]
    rfl

/-- a line feed closes a line -/
theorem lines_eq (s : List Char) : lines s = groups (· == '\n') s := by
  unfold lines groups
  rw [cut_eq, splitOnP_eq]
  simp only [List.getLast?_append, List.getLast?_singleton, Option.some_or, Option.some.injEq, List.dropLast_concat,
    List.isEmpty_iff]
  split_ifs
  · exact (List.append_nil _).symm
  · rfl

theorem words_append_cons (s t : List Char) {c : Char} (hc : isBlank c = true) :
    words (s ++ c :: t) = words s ++ words t := by
  simp only [words, cut_eq]
  rw [List.splitOnP_append_cons s t hc, List.filter_append]

theorem IsWord.words_eq {w : List Char} (h : IsWord w) : words w = [w] := by
  simp [words, cut_eq, List.splitOnP_eq_singleton h.2, h.1]

theorem words_dropWhile (s : List Char) : words (s.dropWhile isBlank) = words s := by
  induction s with
  | nil => rfl
  | cons c s ih =>
    rw [List.dropWhile_cons]
    split_ifs with hc
    · rw [ih]
      exact (words_append_cons [] s hc).symm
    · rfl

theorem words_rdropWhile (s : List Char) : words (s.rdropWhile isBlank) = words s := by
  induction s using List.reverseRecOn with
  | nil => rfl
  | append_singleton s c ih =>
    rw [List.rdropWhile_concat]
    split_ifs with hc
    · rw [ih, words_append_cons s [] hc]
      exact (List.append_nil _).symm
    · rfl

/-- blanks at the ends of a line do not change its words -/
theorem words_trim (s : List Char) : words (trim s) = words s :=
  calc words (trim s)
      = words ((s.dropWhile isBlank).rdropWhile isBlank) := rfl
    _ = words (s.dropWhile isBlank) := words_rdropWhile _
    _ = words s := words_dropWhile s

/-- a line that starts with no blank starts the same when trimmed -/
theorem trim_cons {c : Char} (hc : isBlank c = false) (s : List Char) : ∃ t, trim (c :: s) = c :: t := by
  have hdrop : (c :: s).dropWhile isBlank = c :: s := by simp [hc]
  show ∃ t, ((c :: s).dropWhile isBlank).rdropWhile isBlank = c :: t
  rw [hdrop]
  have hne : (c :: s).rdropWhile isBlank ≠ [] := by
    rw [ne_eq, List.rdropWhile_eq_nil_iff]
    intro hall
    exact absurd (hall c List.mem_cons_self) (by simp [hc])
  obtain ⟨d, t, ht⟩ := List.exists_cons_of_ne_nil hne
  have hbegins := List.rdropWhile_prefix isBlank (c :: s)
  rw [ht, List.cons_prefix_cons] at hbegins
  exact ⟨t, by rw [ht, hbegins.1]⟩

theorem words_cons_ne_nil {c : Char} (hc : isBlank c = false) (s : List Char) : words (c :: s) ≠ [] := by
  obtain ⟨piece, pieces, hsplit⟩ := List.exists_cons_of_ne_nil (List.splitOnP_ne_nil isBlank s)
  have hcut : cut isBlank (c :: s) = (c :: piece) :: pieces := by
    rw [cut_eq, List.splitOnP_cons_eq_if_modifyHead, hc, hsplit]
    rfl
  simp [words, hcut]

/-- a trimmed line has words unless it is empty -/
theorem words_trim_ne_nil {s : List Char} (h : trim s ≠ []) : words (trim s) ≠ [] := by
  obtain ⟨c, t, ht⟩ := List.exists_cons_of_ne_nil h
  rw [ht]
  refine words_cons_ne_nil ?_ t
  have hbegins : c :: t <+: s.dropWhile isBlank := ht ▸ List.rdropWhile_prefix isBlank (s.dropWhile isBlank)
  obtain ⟨u, hu⟩ := hbegins
  have hhead := List.head?_dropWhile_not isBlank s
  rw [← hu] at hhead
  simpa using hhead

theorem mem_intercalate {ws : List (List Char)} {c : Char} (h : c ∈ [' '].intercalate ws) :
    c = ' ' ∨ ∃ w ∈ ws, c ∈ w := by
  induction ws with
  | nil => cases h
  | cons w ws ih =>
    cases ws with
    | nil =>
      rw [List.intercalate_singleton] at h
      exact .inr ⟨w, List.mem_cons_self, h⟩
    | cons v ws =>
      rw [List.intercalate_cons_cons, List.mem_append, List.mem_append, List.mem_singleton] at h
      rcases h with (h | h) | h
      · exact .inr ⟨w, List.mem_cons_self, h⟩
      · exact .inl h
      · exact (ih h).imp id fun ⟨u, hu, hc⟩ => ⟨u, List.mem_cons_of_mem _ hu, hc⟩

/-- a row of words starts as its first word does -/
theorem intercalate_cons (c : Char) (w : List Char) (ws : List (List Char)) :
    ∃ s, [' '].intercalate ((c :: w) :: ws) = c :: s := by
  cases ws with
  | nil => exact ⟨w, List.intercalate_singleton⟩
  | cons v ws => exact ⟨_, List.intercalate_cons_cons⟩

/-- the words of a row of words with a blank between each two -/
theorem words_intercalate {ws : List (List Char)} (h : ∀ w ∈ ws, IsWord w) : words ([' '].intercalate ws) = ws := by
  induction ws with
  | nil => rfl
  | cons w ws ih =>
    have hw := h w List.mem_cons_self
    have ih := ih fun v hv => h v (List.mem_cons_of_mem _ hv)
    cases ws with
    | nil =>
      rw [List.intercalate_singleton]
      exact hw.words_eq
    | cons v ws =>
      rw [List.intercalate_cons_cons, List.append_assoc, List.singleton_append, words_append_cons _ _ (by decide),
        hw.words_eq, ih]
      rfl

/-- a printed line stays one line, starts as its first word does and has the words that were printed -/
theorem printed_line {c : Char} {w : List Char} {ws : List (List Char)} (h : ∀ v ∈ (c :: w) :: ws, IsWord v) :
    '\n' ∉ [' '].intercalate ((c :: w) :: ws) ∧ (trim ([' '].intercalate ((c :: w) :: ws))).head? = some c ∧
      words (trim ([' '].intercalate ((c :: w) :: ws))) = (c :: w) :: ws := by
  refine ⟨fun hmem => ?_, ?_, by rw [words_trim, words_intercalate h]⟩
  · rcases mem_intercalate hmem with hc | ⟨v, hv, hc⟩
    · cases hc
    · exact absurd ((h v hv).2 _ hc) (by decide)
  · obtain ⟨s, hs⟩ := intercalate_cons c w ws
    obtain ⟨t, ht⟩ := trim_cons ((h _ List.mem_cons_self).2 c List.mem_cons_self) s
    rw [hs, ht, List.head?_cons]

/-! ## Numbers -/

theorem le_ofDigitChars (digits : List Char) (n : ℕ) : n ≤ Nat.ofDigitChars 10 digits n := by
  induction digits generalizing n with
  | nil => exact le_refl n
  | cons c digits ih =>
    rw [Nat.ofDigitChars_cons]
    exact le_trans (by omega) (ih _)

/-- digits are read as the number they make, as long as that is within the limit -/
theorem readDigits_eq {limit : ℕ} (beyond : NumberError) {digits : List Char} (h : ∀ c ∈ digits, c.isDigit = true)
    {n : ℕ} (hlimit : Nat.ofDigitChars 10 digits n ≤ limit) :
    readDigits limit beyond n digits = .ok (Nat.ofDigitChars 10 digits n) := by
  induction digits generalizing n with
  | nil => rfl
  | cons c digits ih =>
    rw [Nat.ofDigitChars_cons] at hlimit ⊢
    have hnext : 10 * n + (c.toNat - '0'.toNat) ≤ limit := le_trans (le_ofDigitChars digits _) hlimit
    rw [readDigits, if_pos (h c List.mem_cons_self)]
    simp only [if_pos hnext]
    exact ih (fun d hd => h d (List.mem_cons_of_mem _ hd)) hlimit

theorem isDigit_of_mem_repr {n : ℕ} {c : Char} (h : c ∈ n.repr.toList) : c.isDigit = true :=
  Nat.isDigit_of_mem_toDigits (by decide) (by decide) (Nat.toList_repr ▸ h)

theorem readMagnitude_repr {limit n : ℕ} (beyond : NumberError) (h : n ≤ limit) :
    readMagnitude limit beyond n.repr.toList = .ok n := by
  have hvalue : Nat.ofDigitChars 10 n.repr.toList 0 = n := by
    rw [Nat.toList_repr]
    exact Nat.ofDigitChars_ten_toDigits
  have hne : n.repr.toList.isEmpty = false := by simp [Nat.toList_repr]
  rw [readMagnitude, hne, readDigits_eq beyond (fun _ => isDigit_of_mem_repr) (by rw [hvalue]; exact h), hvalue]
  rfl

/-- a printed number starts with a digit -/
theorem repr_cons (n : ℕ) : ∃ c s, n.repr.toList = c :: s ∧ c.isDigit = true := by
  have hne : n.repr.toList ≠ [] := by simp [Nat.toList_repr]
  obtain ⟨c, s, hs⟩ := List.exists_cons_of_ne_nil hne
  exact ⟨c, s, hs, isDigit_of_mem_repr (hs ▸ List.mem_cons_self)⟩

/-- a printed number consists of digits, after a minus sign if it is negative -/
theorem mem_toString {m : ℤ} {c : Char} (h : c ∈ (toString m).toList) : c.isDigit = true ∨ c = '-' := by
  cases m with
  | ofNat n => exact .inl (isDigit_of_mem_repr h)
  | negSucc n =>
    have h : c ∈ ("-" ++ (n + 1).repr).toList := h
    rw [String.toList_append, List.mem_append] at h
    exact h.symm.imp isDigit_of_mem_repr List.mem_singleton.1

theorem isBlank_of_isDigit {c : Char} (h : c.isDigit = true) : isBlank c = false := by
  have hrange : 48 ≤ c.toNat ∧ c.toNat ≤ 57 := by
    simpa [Char.isDigit, UInt32.le_iff_toNat_le] using h
  simp only [isBlank, Bool.or_eq_false_iff, Bool.and_eq_false_iff, decide_eq_false_iff_not, beq_eq_false_iff_ne]
  omega

/-- a printed number is one word -/
theorem isWord_toString (m : ℤ) : IsWord (toString m).toList := by
  constructor
  · cases m with
    | ofNat n =>
      show n.repr.toList ≠ []
      simp [Nat.toList_repr]
    | negSucc n =>
      show ("-" ++ (n + 1).repr).toList ≠ []
      simp
  · intro c hc
    rcases mem_toString hc with hc | rfl
    · exact isBlank_of_isDigit hc
    · rfl

theorem readNat_repr {limit n : ℕ} (h : n ≤ limit) : readNat limit n.repr.toList = .ok n := by
  obtain ⟨c, s, hs, hc⟩ := repr_cons n
  have hread := readMagnitude_repr .tooLarge h
  rw [hs] at hread ⊢
  rw [readNat.eq_3 _ _ (by simp) (by rintro t ⟨⟩; exact absurd hc (by decide))]
  exact hread

/-- a number within the bounds of the format is read back -/
theorem readInt_toString {limit : ℕ} {m : ℤ} (hlow : -(limit : ℤ) ≤ m) (hhigh : m < limit) :
    readInt limit (toString m).toList = .ok m := by
  cases m with
  | ofNat n =>
    obtain ⟨c, s, hs, hc⟩ := repr_cons n
    have hn : n ≤ limit - 1 := by
      have : (n : ℤ) < limit := hhigh
      omega
    have hread := readNat_repr hn
    show readInt limit n.repr.toList = _
    rw [hs] at hread ⊢
    rw [readInt.eq_2 _ _ (by rintro t ⟨⟩; exact absurd hc (by decide)), hread]
    rfl
  | negSucc n =>
    have htext : (toString (Int.negSucc n)).toList = '-' :: (n + 1).repr.toList := by
      show ("-" ++ (n + 1).repr).toList = _
      rw [String.toList_append]
      rfl
    rw [htext, readInt, readMagnitude_repr .tooSmall (by omega)]
    rfl

end ModelCount.Text
