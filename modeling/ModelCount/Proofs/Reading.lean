/-
What the reader makes of a text.

Apart from blank lines and comments a text is a sequence of items: its headers, and the numbers on its other lines
(`items`). How the items are spread over lines is of no account: the reader takes them one by one (`take`), and the
text is read exactly if its lines are items and they can be taken (`read_eq`). Numbers that follow a header are taken
as the clauses that they make when they are cut at each 0 (`take_numbers`).

So a text of one header and numbers is the formula of its groups of numbers, in every layout, and a printed formula is
read back (`read_laid`).
-/
import Mathlib.Tactic
import ModelCount.Dimacs
import ModelCount.Proofs.Layout
import ModelCount.Proofs.Outcome
import ModelCount.Proofs.Formula

namespace ModelCount.Dimacs

open Text

/-! ## Items -/

/-- what the lines of a text say -/
inductive Item where
  | header (numVars : ℕ)
  | number (m : ℤ)
  deriving DecidableEq, Repr

/-- blank lines and comments, when trimmed -/
def skipped : List Char → Bool
  | [] => true
  | 'c' :: _ => true
  | '%' :: _ => true
  | _ => false

/-- the other lines of a text, trimmed -/
def content (text : String) : List (List Char) := ((lines text.toList).map trim).filter fun line => !skipped line

def headerCount (line : List Char) : Option ℕ :=
  match words line with
  | [_, kind, count, _] => if kind = "cnf".toList then (readNat 4294967295 count).toOption else none
  | _ => none

def numbersOf (tokens : List (List Char)) : Option (List ℤ) :=
  tokens.mapM fun token => (readInt 2147483648 token).toOption

def lineItems (line : List Char) : Option (List Item) :=
  if line.head? = some 'p' then (headerCount line).map fun n => [.header n]
  else (numbersOf (words line)).map (List.map .number)

def itemsOf (ls : List (List Char)) : Option (List Item) := (ls.mapM lineItems).map List.flatten

def items (text : String) : Option (List Item) := itemsOf (content text)

def begin : Reading := ⟨none, []⟩

/-- one more clause, if the formula takes it -/
def add (f : Formula) (clause : List ℤ) : Option Formula := (f.addClause clause).toOption.map Prod.fst

def take (state : Reading) : Item → Option Reading
  | .header n => some ⟨some (Formula.empty n), state.pending⟩
  | .number m => state.formula.bind fun f =>
    if m = 0 then (add f state.pending).map fun f => ⟨some f, []⟩ else some ⟨some f, state.pending ++ [m]⟩

def finish (state : Reading) : Option Formula :=
  state.formula.bind fun f => if state.pending.isEmpty then some f else add f state.pending

theorem itemsOf_cons (line : List Char) (ls : List (List Char)) :
    itemsOf (line :: ls) = (lineItems line).bind fun is => (itemsOf ls).map (is ++ ·) := by
  simp only [itemsOf, List.mapM_cons, Option.bind_eq_bind, Option.pure_def, Option.map_bind]
  rcases lineItems line with _ | is
  · rfl
  · rcases ls.mapM lineItems with _ | iss <;> rfl

theorem numbersOf_cons (token : List Char) (tokens : List (List Char)) :
    numbersOf (token :: tokens) =
      (readInt 2147483648 token).toOption.bind fun m => (numbersOf tokens).map (m :: ·) := by
  simp only [numbersOf, List.mapM_cons]
  rcases (readInt 2147483648 token).toOption with _ | m
  · rfl
  · rcases tokens.mapM fun token => (readInt 2147483648 token).toOption with _ | ns <;> rfl

/-- a row of words makes numbers exactly if each word makes a number -/
theorem numbersOf_eq_some {tokens : List (List Char)} {ns : List ℤ} :
    numbersOf tokens = some ns ↔ List.Forall₂ (fun token m => readInt 2147483648 token = .ok m) tokens ns := by
  induction tokens generalizing ns with
  | nil => simp [numbersOf, eq_comm]
  | cons token tokens ih =>
    rw [numbersOf_cons]
    cases hread : readInt 2147483648 token with
    | error why => simp [Except.toOption, List.forall₂_cons_left_iff, hread]
    | ok m =>
      simp only [Except.toOption, Option.bind_some, Option.map_eq_some_iff, List.forall₂_cons_left_iff, hread,
        Except.ok.injEq, ih]
      constructor
      · rintro ⟨ms, hms, rfl⟩
        exact ⟨m, ms, rfl, hms, rfl⟩
      · rintro ⟨k, ms, rfl, hms, rfl⟩
        exact ⟨ms, hms, rfl⟩

/-! ## The reader takes the items -/

theorem readHeader_eq (line : ℕ) (text : List Char) :
    (readHeader line text).toOption = (headerCount text).map Formula.empty := by
  unfold readHeader headerCount
  rcases words text with _ | ⟨first, _ | ⟨kind, _ | ⟨count, _ | ⟨total, _ | ⟨extra, more⟩⟩⟩⟩⟩
  case cons.cons.cons.cons.nil =>
    show (if kind = "cnf".toList then _ else _ : Except Error Formula).toOption =
      (if kind = "cnf".toList then _ else _ : Option ℕ).map Formula.empty
    split_ifs
    · cases readNat 4294967295 count <;> rfl
    · rfl
  all_goals rfl

/-- the words of a line are taken as numbers -/
theorem readTokens_eq (line : ℕ) (f : Formula) (pending : List ℤ) (tokens : List (List Char)) :
    ((readTokens line f pending tokens).toOption.map fun r => (⟨some r.1, r.2⟩ : Reading)) =
      (numbersOf tokens).bind fun ns => (ns.map Item.number).foldlM take ⟨some f, pending⟩ := by
  induction tokens generalizing f pending with
  | nil => rfl
  | cons token tokens ih =>
    rw [numbersOf_cons, readTokens]
    cases hread : readInt 2147483648 token with
    | error why => rfl
    | ok m =>
      simp only [Except.toOption, Option.bind_some, Option.bind_map, Function.comp_def, List.map_cons,
        List.foldlM_cons, take, Option.bind_eq_bind]
      split_ifs with hm
      · cases hadd : f.addClause pending with
        | error why => simp [add, hadd, Except.toOption]
        | ok r =>
          simp only [add, hadd, Except.toOption, Option.map_some, Option.bind_some]
          exact ih r.1 []
      · exact ih f (pending ++ [m])

theorem readLine_skipped {line : List Char} (h : skipped (trim line) = true) (state : Reading) (number : ℕ) :
    readLine state number line = .ok state := by
  unfold skipped at h
  split at h
  case h_4 => cases h
  all_goals
    rename_i heq
    simp only [readLine, heq]

theorem readLine_header {line : List Char} (h : (trim line).head? = some 'p') (state : Reading) (number : ℕ) :
    readLine state number line =
      (readHeader number (trim line)).map fun f => ⟨some f, state.pending⟩ := by
  unfold readLine
  generalize trim line = text at h ⊢
  obtain ⟨rest, rfl⟩ := List.head?_eq_some_iff.1 h
  show (do return { state with formula := some (← readHeader number ('p' :: rest)) } : Except Error Reading) = _
  cases readHeader number ('p' :: rest) <;> rfl

theorem readLine_clause {line : List Char} (h : skipped (trim line) = false) (hp : (trim line).head? ≠ some 'p')
    (state : Reading) (number : ℕ) :
    readLine state number line =
      match state.formula with
      | none => .error (.clauseBeforeHeader number)
      | some f =>
        (readTokens number f state.pending (words (trim line))).map fun r => ⟨some r.1, r.2⟩ := by
  unfold readLine
  generalize trim line = text at h hp ⊢
  dsimp only
  split
  · cases h
  · cases h
  · cases h
  · exact absurd rfl hp
  · cases state.formula with
    | none => rfl
    | some f => cases readTokens number f state.pending (words text) <;> rfl

theorem readLine_eq {line : List Char} (h : skipped (trim line) = false) (state : Reading) (number : ℕ) :
    (readLine state number line).toOption = (lineItems (trim line)).bind fun is => is.foldlM take state := by
  unfold lineItems
  split_ifs with hp
  · rw [readLine_header hp, Except.toOption_map, readHeader_eq]
    cases headerCount (trim line) <;> rfl
  · rw [readLine_clause h hp, Option.bind_map]
    cases hf : state.formula with
    | none =>
      -- a line that is not skipped has a word, and with no header the first number cannot be taken
      have hne : trim line ≠ [] := by
        intro hnil
        rw [hnil] at h
        cases h
      obtain ⟨token, tokens, hwords⟩ := List.exists_cons_of_ne_nil (words_trim_ne_nil hne)
      rw [hwords, numbersOf_cons]
      cases (readInt 2147483648 token).toOption with
      | none => rfl
      | some m =>
        cases numbersOf tokens with
        | none => rfl
        | some ns => simp [take, hf, Except.toOption]
    | some f =>
      obtain ⟨_, pending⟩ := state
      cases hf
      rw [Except.toOption_map]
      exact readTokens_eq number f pending (words (trim line))

theorem readLines_eq (state : Reading) (number : ℕ) (ls : List (List Char)) :
    (readLines state number ls).toOption =
      (itemsOf ((ls.map trim).filter fun line => !skipped line)).bind fun is => is.foldlM take state := by
  induction ls generalizing state number with
  | nil => rfl
  | cons line ls ih =>
    rw [readLines, Except.toOption_bind, List.map_cons]
    cases hskip : skipped (trim line) with
    | true =>
      rw [readLine_skipped hskip, List.filter_cons_of_neg (by simp [hskip])]
      exact ih state (number + 1)
    | false =>
      rw [readLine_eq hskip, List.filter_cons_of_pos (by simp [hskip]), itemsOf_cons]
      cases lineItems (trim line) with
      | none => rfl
      | some is =>
        simp only [ih, Option.bind_some, Option.bind_map, Function.comp_def, List.foldlM_append]
        cases is.foldlM take state with
        | none => cases itemsOf ((ls.map trim).filter fun line => !skipped line) <;> rfl
        | some state' => rfl

/-- a text is read by taking its items in turn -/
theorem read_eq (text : String) :
    (read text).toOption = (items text).bind fun is => (is.foldlM take begin).bind finish := by
  unfold read
  rw [Except.toOption_bind]
  show ((readLines begin 1 (lines text.toList)).toOption.bind fun state => _) = _
  rw [readLines_eq, Option.bind_assoc]
  refine Option.bind_congr fun is _ => Option.bind_congr fun state _ => ?_
  obtain ⟨_ | f, pending⟩ := state
  · rfl
  · show (if pending.isEmpty then _ else _ : Except Error Formula).toOption =
      if pending.isEmpty then some f else add f pending
    split_ifs
    · rfl
    · unfold add
      cases f.addClause pending <;> rfl

/-! ## Numbers after a header -/

theorem foldlM_add (f : Formula) (clauses : List (List ℤ)) :
    clauses.foldlM add f = if (f.addClauses clauses).2.isNone then some (f.addClauses clauses).1 else none := by
  induction clauses generalizing f with
  | nil => rfl
  | cons clause clauses ih =>
    rw [Formula.addClauses, List.foldlM_cons, add]
    cases f.addClause clause with
    | error e => rfl
    | ok r => exact ih r.1

/-- the formula of a list of clauses takes them one by one -/
theorem ofClauses_eq (n : ℕ) (clauses : List (List ℤ)) :
    (Formula.ofClauses n clauses).toOption = clauses.foldlM add (Formula.empty n) := by
  rw [foldlM_add, Formula.ofClauses]
  rcases (Formula.empty n).addClauses clauses with ⟨g, _ | e⟩ <;> rfl

/-- numbers are taken as clauses: those that are closed are added, and the last one stays open -/
theorem take_numbers (f : Formula) {pending : List ℤ} (hpending : ∀ m ∈ pending, (m == 0) = false) (ns : List ℤ) :
    (ns.map Item.number).foldlM take ⟨some f, pending⟩ =
      ((closed (· == 0) (pending ++ ns)).foldlM add f).map fun g => ⟨some g, rest (· == 0) (pending ++ ns)⟩ := by
  induction ns generalizing f pending with
  | nil =>
    rw [List.append_nil, closed_of_free hpending, rest_of_free hpending]
    rfl
  | cons m ns ih =>
    rw [List.map_cons, List.foldlM_cons]
    by_cases hm : m = 0
    · subst hm
      rw [closed_append_cons _ _ (by rfl), rest_append_cons _ _ (by rfl), closed_of_free hpending,
        rest_of_free hpending, List.nil_append, List.foldlM_cons]
      show ((add f pending).map fun g => (⟨some g, []⟩ : Reading)).bind _ = _
      cases add f pending with
      | none => rfl
      | some g => exact ih g (by simp)
    · have hstep : take ⟨some f, pending⟩ (.number m) = some ⟨some f, pending ++ [m]⟩ := if_neg hm
      rw [hstep]
      have hfree : ∀ k ∈ pending ++ [m], (k == 0) = false := free_append hpending (by simpa using hm)
      have := ih f hfree
      rwa [List.append_assoc, List.singleton_append] at this

/-- at the end the open clause is added as well, unless it is empty -/
theorem finish_numbers (f : Formula) {pending : List ℤ} (hpending : ∀ m ∈ pending, (m == 0) = false) (ns : List ℤ) :
    ((ns.map Item.number).foldlM take ⟨some f, pending⟩).bind finish =
      (groups (· == 0) (pending ++ ns)).foldlM add f := by
  rw [take_numbers f hpending, groups, List.foldlM_append, Option.bind_map]
  refine Option.bind_congr fun g _ => ?_
  show (if (rest (· == 0) (pending ++ ns)).isEmpty then some g else add g (rest (· == 0) (pending ++ ns))) = _
  split_ifs
  · rfl
  · rw [List.foldlM_cons]
    exact (bind_pure _).symm

/-- the formula of a header and numbers -/
theorem finish_header {state : Reading} (hpending : ∀ m ∈ state.pending, (m == 0) = false) (n : ℕ) (ns : List ℤ) :
    ((Item.header n :: ns.map .number).foldlM take state).bind finish =
      (Formula.ofClauses n (groups (· == 0) (state.pending ++ ns))).toOption :=
  calc ((Item.header n :: ns.map .number).foldlM take state).bind finish
      = ((ns.map Item.number).foldlM take ⟨some (Formula.empty n), state.pending⟩).bind finish := rfl
    _ = (groups (· == 0) (state.pending ++ ns)).foldlM add (Formula.empty n) :=
        finish_numbers (Formula.empty n) hpending ns
    _ = (Formula.ofClauses n (groups (· == 0) (state.pending ++ ns))).toOption := (ofClauses_eq n _).symm

/-! ## Layouts -/

/-- Apart from blank lines and comments, the text is one header line for `n` variables and then lines with the given
words. -/
def Laid (text : String) (n : ℕ) (tokens : List (List Char)) : Prop :=
  ∃ header body first count total, content text = header :: body ∧ header.head? = some 'p' ∧
    words header = [first, "cnf".toList, count, total] ∧ readNat 4294967295 count = .ok n ∧
    (∀ line ∈ body, line.head? ≠ some 'p') ∧ body.flatMap words = tokens

theorem numbersOf_append (tokens more : List (List Char)) :
    numbersOf (tokens ++ more) = (numbersOf tokens).bind fun ns => (numbersOf more).map (ns ++ ·) := by
  induction tokens with
  | nil =>
    show numbersOf more = (numbersOf more).map id
    rw [Option.map_id_fun, id]
  | cons token tokens ih =>
    rw [List.cons_append, numbersOf_cons, numbersOf_cons, ih]
    cases (readInt 2147483648 token).toOption with
    | none => rfl
    | some m => cases numbersOf tokens <;> cases numbersOf more <;> rfl

/-- lines without a header are read as one row of words -/
theorem itemsOf_body {body : List (List Char)} (h : ∀ line ∈ body, line.head? ≠ some 'p') :
    itemsOf body = (numbersOf (body.flatMap words)).map (List.map .number) := by
  induction body with
  | nil => rfl
  | cons line body ih =>
    rw [itemsOf_cons, ih fun l hl => h l (List.mem_cons_of_mem _ hl), lineItems, if_neg (h line List.mem_cons_self),
      List.flatMap_cons, numbersOf_append]
    cases numbersOf (words line) with
    | none => rfl
    | some ns => cases numbersOf (body.flatMap words) <;> simp

theorem Laid.items_eq {text : String} {n : ℕ} {tokens : List (List Char)} (h : Laid text n tokens) :
    items text = (numbersOf tokens).map fun ns => .header n :: ns.map .number := by
  obtain ⟨header, body, first, count, total, hcontent, hp, hwords, hn, hbody, rfl⟩ := h
  have hheader : lineItems header = some [.header n] := by
    rw [lineItems, if_pos hp, headerCount, hwords]
    simp only [if_true, hn]
    rfl
  rw [items, hcontent, itemsOf_cons, hheader, itemsOf_body hbody]
  cases numbersOf (body.flatMap words) <;> rfl

/-- a text of one header is read as the groups of its numbers -/
theorem Laid.read_eq {text : String} {n : ℕ} {tokens : List (List Char)} (h : Laid text n tokens) :
    (read text).toOption =
      (numbersOf tokens).bind fun ns => (Formula.ofClauses n (groups (· == 0) ns)).toOption := by
  rw [Dimacs.read_eq, h.items_eq, Option.bind_map]
  refine Option.bind_congr fun ns _ => ?_
  exact finish_header (by simp [begin]) n ns

/-! ## Printing -/

def numeral (m : ℤ) : List Char := (toString m).toList

/-- the words of a printed formula, line by line: its header, and a line for each clause -/
def printWords (n : ℕ) (clauses : List (List ℤ)) : List (List (List Char)) :=
  ["p".toList, "cnf".toList, numeral n, numeral clauses.length] ::
    clauses.map fun clause => (clause ++ [0]).map numeral

def print (n : ℕ) (clauses : List (List ℤ)) : String :=
  String.ofList ((printWords n clauses).flatMap fun ws => [' '].intercalate ws ++ ['\n'])

theorem numeral_cons (m : ℤ) : ∃ c w, numeral m = c :: w ∧ c ≠ 'c' ∧ c ≠ '%' ∧ c ≠ 'p' := by
  obtain ⟨c, w, hw⟩ := List.exists_cons_of_ne_nil (isWord_toString m).1
  refine ⟨c, w, hw, ?_, ?_, ?_⟩ <;>
  · rintro rfl
    rcases mem_toString (hw ▸ List.mem_cons_self) with hc | hc <;> cases hc

/-- printed lines are the content of the printed text, unless one of them starts like a comment -/
theorem content_ofList {rows : List (List (List Char))}
    (h : ∀ ws ∈ rows, (∀ w ∈ ws, IsWord w) ∧ ∃ c w more, ws = (c :: w) :: more ∧ c ≠ 'c' ∧ c ≠ '%') :
    content (String.ofList (rows.flatMap fun ws => [' '].intercalate ws ++ ['\n'])) =
      rows.map fun ws => trim ([' '].intercalate ws) := by
  have hlines : lines (rows.flatMap fun ws => [' '].intercalate ws ++ ['\n']) = rows.map [' '].intercalate := by
    have hfree : ∀ line ∈ rows.map [' '].intercalate, ∀ c ∈ line, (c == '\n') = false := by
      intro line hline c hc
      obtain ⟨ws, hws, rfl⟩ := List.mem_map.1 hline
      obtain ⟨hwords, d, w, more, rfl, -⟩ := h ws hws
      exact beq_eq_false_iff_ne.2 fun hnl => (printed_line hwords).1 (hnl ▸ hc)
    rw [lines_eq, ← groups_flatMap (a := '\n') (by rfl) hfree, List.flatMap_map]
  rw [content, String.toList_ofList, hlines, List.map_map, List.filter_eq_self.2]
  · rfl
  · intro line hline
    obtain ⟨ws, hws, rfl⟩ := List.mem_map.1 hline
    obtain ⟨hwords, c, w, more, rfl, hcomment, hpercent⟩ := h ws hws
    obtain ⟨t, ht⟩ := List.head?_eq_some_iff.1 (printed_line hwords).2.1
    show (!skipped (trim ([' '].intercalate ((c :: w) :: more)))) = true
    rw [ht]
    simp [skipped, hcomment, hpercent]

theorem isWord_header (n k : ℕ) : ∀ w ∈ ["p".toList, "cnf".toList, numeral n, numeral k], IsWord w := by
  simp only [List.forall_mem_cons]
  exact ⟨by decide, by decide, isWord_toString n, isWord_toString k, by simp⟩

/-- the words of a printed clause; the first of them starts neither a comment nor a header -/
theorem printed_clause (clause : List ℤ) : (∀ w ∈ (clause ++ [0]).map numeral, IsWord w) ∧
    ∃ c w more, (clause ++ [0]).map numeral = (c :: w) :: more ∧ c ≠ 'c' ∧ c ≠ '%' ∧ c ≠ 'p' := by
  constructor
  · intro w hw
    obtain ⟨m, -, rfl⟩ := List.mem_map.1 hw
    exact isWord_toString m
  · have hne : clause ++ [0] ≠ [] := by simp
    obtain ⟨m, ms, hms⟩ := List.exists_cons_of_ne_nil hne
    obtain ⟨c, w, hw, hcw⟩ := numeral_cons m
    exact ⟨c, w, ms.map numeral, by rw [hms, List.map_cons, hw], hcw⟩

/-- a printed formula is a header for its variables and the numbers of its clauses, each closed by 0 -/
theorem laid_print {n : ℕ} (hn : n ≤ 4294967295) (clauses : List (List ℤ)) :
    Laid (print n clauses) n ((clauses.flatMap fun clause => clause ++ [0]).map numeral) := by
  have hcontent : content (print n clauses) = (printWords n clauses).map fun ws => trim ([' '].intercalate ws) := by
    refine content_ofList fun ws hws => ?_
    rcases List.mem_cons.1 hws with rfl | hws
    · exact ⟨isWord_header n clauses.length, 'p', [], _, rfl, by decide, by decide⟩
    · obtain ⟨clause, -, rfl⟩ := List.mem_map.1 hws
      obtain ⟨hwords, c, w, more, heq, hcomment, hpercent, -⟩ := printed_clause clause
      exact ⟨hwords, c, w, more, heq, hcomment, hpercent⟩
  have hheader := printed_line (isWord_header n clauses.length)
  refine ⟨_, _, _, _, _, hcontent, hheader.2.1, hheader.2.2, readNat_repr hn, ?_, ?_⟩
  · intro line hline
    simp only [List.map_map, List.mem_map] at hline
    obtain ⟨clause, -, rfl⟩ := hline
    obtain ⟨hwords, c, w, more, heq, -, -, hp⟩ := printed_clause clause
    rw [heq] at hwords
    show (trim ([' '].intercalate ((clause ++ [0]).map numeral))).head? ≠ some 'p'
    rw [heq, (printed_line hwords).2.1]
    exact fun hc => hp (Option.some.inj hc)
  · rw [List.map_map, List.flatMap_map, List.map_flatMap]
    refine List.flatMap_congr fun clause _ => ?_
    show words (trim ([' '].intercalate ((clause ++ [0]).map numeral))) = _
    rw [words_trim, words_intercalate (printed_clause clause).1]

example : print 3 [[1, -2], [3]] = "p cnf 3 2\n1 -2 0\n3 0\n" := by decide

theorem numbersOf_numeral {ns : List ℤ} (h : ∀ m ∈ ns, m.natAbs < 2147483648) :
    numbersOf (ns.map numeral) = some ns := by
  refine numbersOf_eq_some.2 (List.forall₂_map_left_iff.2 (List.forall₂_same.2 fun m hm => ?_))
  have := h m hm
  exact readInt_toString (by omega) (by omega)

/-- a formula that is printed is read back -/
theorem read_print {n : ℕ} (hn : n < 2147483648) {clauses : List (List ℤ)} {f : Formula}
    (hf : Formula.ofClauses n clauses = .ok f) : read (print n clauses) = .ok f := by
  have hwithin := Formula.within_of_ofClauses hf
  have hnumbers : ∀ m ∈ clauses.flatMap fun clause => clause ++ [0], m.natAbs < 2147483648 := by
    intro m hm
    obtain ⟨clause, hclause, hm⟩ := List.mem_flatMap.1 hm
    rcases List.mem_append.1 hm with hm | hm
    · have := (hwithin clause hclause m hm).2
      omega
    · rw [List.mem_singleton.1 hm]
      decide
  have hgroups : groups (· == 0) (clauses.flatMap fun clause => clause ++ [0]) = clauses :=
    groups_flatMap (by rfl) fun clause hclause m hm => beq_eq_false_iff_ne.2 (hwithin clause hclause m hm).1
  refine Except.eq_ok_of_toOption ?_
  rw [(laid_print (by omega) clauses).read_eq, numbersOf_numeral hnumbers, Option.bind_some, hgroups, hf]
  rfl

/-! ## Independence of the layout -/

/-- **Reading is independent of the layout.** A text of one header for `n` variables and numbers is read exactly if
its words are numbers of 32 bits and their groups are clauses that make a formula over `n` variables, and then as that
formula. So texts of the same words are read alike, and a printed formula is read back. -/
theorem read_laid :
    (∀ text n tokens, Laid text n tokens → ∀ f, read text = .ok f ↔
      ∃ ns, List.Forall₂ (fun token m => readInt 2147483648 token = .ok m) tokens ns ∧
        Formula.ofClauses n (groups (· == 0) ns) = .ok f) ∧
      (∀ text other n tokens, Laid text n tokens → Laid other n tokens → ∀ f,
        read text = .ok f ↔ read other = .ok f) ∧
      ∀ n clauses f, n < 2147483648 → Formula.ofClauses n clauses = .ok f → read (print n clauses) = .ok f := by
  refine ⟨fun text n tokens h f => ?_, fun text other n tokens h hother f => ?_, fun n clauses f hn hf =>
    read_print hn hf⟩
  · rw [← Except.toOption_eq_some, h.read_eq, Option.bind_eq_some_iff]
    simp only [numbersOf_eq_some, Except.toOption_eq_some]
  · rw [← Except.toOption_eq_some, ← Except.toOption_eq_some, h.read_eq, hother.read_eq]

/-- Two clauses whose numbers are spread over lines, with comments, a blank line and the last 0 missing, are read as
the same clauses on one line. -/
theorem read_laid_scattered :
    ∃ f tokens, Formula.ofClauses 3 [[1, -2, 3], [-1, 2]] = .ok f ∧
      Laid "c two clauses\np cnf 3 2\n 1 -2\nc in between\n\n3 0 -1\n%\n2" 3 tokens ∧
      Laid "p cnf 3 2\n1 -2 3 0 -1 2\n" 3 tokens ∧
      read "c two clauses\np cnf 3 2\n 1 -2\nc in between\n\n3 0 -1\n%\n2" = .ok f ∧
      read "p cnf 3 2\n1 -2 3 0 -1 2\n" = .ok f ∧ read (print 3 [[1, -2, 3], [-1, 2]]) = .ok f := by
  obtain ⟨f, hf⟩ : ∃ f, Formula.ofClauses 3 [[1, -2, 3], [-1, 2]] = .ok f := ⟨_, rfl⟩
  have hscattered : Laid "c two clauses\np cnf 3 2\n 1 -2\nc in between\n\n3 0 -1\n%\n2" 3
      (["1", "-2", "3", "0", "-1", "2"].map String.toList) :=
    ⟨"p cnf 3 2".toList, ["1 -2".toList, "3 0 -1".toList, "2".toList], ['p'], ['3'], ['2'], by decide, by decide,
      by decide, rfl, by decide, by decide⟩
  have hline : Laid "p cnf 3 2\n1 -2 3 0 -1 2\n" 3 (["1", "-2", "3", "0", "-1", "2"].map String.toList) :=
    ⟨"p cnf 3 2".toList, ["1 -2 3 0 -1 2".toList], ['p'], ['3'], ['2'], by decide, by decide, by decide, rfl,
      by decide, by decide⟩
  have hgroups : groups (· == 0) [1, -2, 3, 0, -1, 2] = [[1, -2, 3], [-1, 2]] := by decide
  have hread := (read_laid.1 _ _ _ hscattered f).2
    ⟨[1, -2, 3, 0, -1, 2], numbersOf_eq_some.1 (by rfl), by rw [hgroups]; exact hf⟩
  exact ⟨f, _, hf, hscattered, hline, hread, (read_laid.2.1 _ _ _ _ hscattered hline f).1 hread,
    read_laid.2.2 3 _ f (by decide) hf⟩

end ModelCount.Dimacs
