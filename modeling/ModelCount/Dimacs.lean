/-
The DIMACS format for formulas.

A header line `p cnf <variables> <clauses>` is followed by clauses: signed numbers, each clause
ended by 0. Clauses may share lines or spread over several. Blank lines and lines that start with
`c` or `%` are skipped, wherever they stand. A last clause need not be ended.

A line that starts with `p` is a header wherever it stands; it begins a new formula, but a clause
that is still open stays open.
-/
import ModelCount.Formula.Basic
import ModelCount.Text.Blank
import ModelCount.Text.Number

namespace ModelCount.Dimacs

open Text

/-! ## Errors -/

/-- what is wrong with a text; lines count from 1 -/
inductive Error where
  | malformedHeader (line : Nat) (text : String)
  | badVariableCount (line : Nat) (why : NumberError)
  | clauseBeforeHeader (line : Nat)
  | badLiteral (line : Nat) (token : String) (why : NumberError)
  | badClause (line : Nat) (clause : List Int) (why : Formula.Error)
  /-- the clause that the text leaves open -/
  | badLastClause (why : Formula.Error)
  | missingHeader
  deriving DecidableEq, Repr

def bracketed {α : Type} [ToString α] (ns : List α) : String :=
  "[" ++ String.intercalate ", " (ns.map toString) ++ "]"

/-- the texts of an error, from the outside in -/
def Error.chain : Error → List String
  | malformedHeader line text => [s!"line {line}: malformed header '{text}'"]
  | badVariableCount line why => [s!"line {line}: bad variable count", why.message]
  | clauseBeforeHeader line => [s!"line {line}: clause before the 'p cnf' header"]
  | badLiteral line token why => [s!"line {line}: bad literal '{token}'", why.message]
  | badClause line clause why => [s!"line {line}: bad clause {bracketed clause}", why.message]
  | badLastClause why => [why.message]
  | missingHeader => ["missing 'p cnf' header"]

def Error.message (e : Error) : String := String.intercalate ": " e.chain

/-! ## Reading -/

/-- what has been read: the formula since the last header, and the literals of the open clause -/
structure Reading where
  formula : Option Formula
  pending : List Int

/-- read a header line; the numbers of the format have 32 bits -/
def readHeader (line : Nat) (text : List Char) : Except Error Formula :=
  match words text with
  | [_, kind, count, _] =>
    if kind = "cnf".toList then
      match readNat 4294967295 count with
      | .ok n => .ok (Formula.empty n)
      | .error why => .error (.badVariableCount line why)
    else .error (.malformedHeader line (String.ofList text))
  | _ => .error (.malformedHeader line (String.ofList text))

/-- read the words of a clause line into the formula and the open clause -/
def readTokens (line : Nat) :
    Formula → List Int → List (List Char) → Except Error (Formula × List Int)
  | f, pending, [] => .ok (f, pending)
  | f, pending, token :: rest =>
    match readInt 2147483648 token with
    | .error why => .error (.badLiteral line (String.ofList token) why)
    | .ok n =>
      if n = 0 then
        match f.addClause pending with
        | .error why => .error (.badClause line pending why)
        | .ok (f, _) => readTokens line f [] rest
      else readTokens line f (pending ++ [n]) rest

def readLine (state : Reading) (line : Nat) (text : List Char) : Except Error Reading :=
  let text := trim text
  match text with
  | [] => .ok state
  | 'c' :: _ => .ok state
  | '%' :: _ => .ok state
  | 'p' :: _ => do return { state with formula := some (← readHeader line text) }
  | _ =>
    match state.formula with
    | none => .error (.clauseBeforeHeader line)
    | some f => do
      let (f, pending) ← readTokens line f state.pending (words text)
      return ⟨some f, pending⟩

/-- read lines, the first of which has the given number -/
def readLines (state : Reading) (line : Nat) : List (List Char) → Except Error Reading
  | [] => .ok state
  | text :: rest => do readLines (← readLine state line text) (line + 1) rest

def read (text : String) : Except Error Formula := do
  let state ← readLines ⟨none, []⟩ 1 (lines text.toList)
  match state.formula with
  | none => .error .missingHeader
  | some f =>
    if state.pending.isEmpty then return f
    else match f.addClause state.pending with
      | .ok (f, _) => return f
      | .error why => .error (.badLastClause why)

end ModelCount.Dimacs
