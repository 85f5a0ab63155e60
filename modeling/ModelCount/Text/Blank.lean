/-
White space, and cutting a text at it.

A character is blank if Unicode gives it the property White_Space. A text is cut into lines at line
feeds, and a line into words at blanks.
-/

namespace ModelCount.Text

/-- the characters with the property White_Space -/
def isBlank (c : Char) : Bool :=
  let n := c.toNat
  (decide (0x9 ≤ n) && decide (n ≤ 0xD)) || n == 0x20 || n == 0x85 || n == 0xA0 || n == 0x1680 ||
    (decide (0x2000 ≤ n) && decide (n ≤ 0x200A)) || n == 0x2028 || n == 0x2029 || n == 0x202F ||
    n == 0x205F || n == 0x3000

/-- one more character in front of a cut text -/
def cutStep (separates : Char → Bool) (c : Char) : List (List Char) → List (List Char)
  | [] => if separates c then [[], []] else [[c]]
  | piece :: rest => if separates c then [] :: piece :: rest else (c :: piece) :: rest

/-- the pieces between the characters that separate; always one more than there are of those -/
def cut (separates : Char → Bool) (s : List Char) : List (List Char) :=
  s.foldr (cutStep separates) [[]]

def lines (s : List Char) : List (List Char) :=
  let pieces := cut (· == '\n') s
  if pieces.getLast? = some [] then pieces.dropLast else pieces

def words (s : List Char) : List (List Char) :=
  (cut isBlank s).filter fun w => !w.isEmpty

def trim (s : List Char) : List Char :=
  ((s.dropWhile isBlank).reverse.dropWhile isBlank).reverse

end ModelCount.Text
