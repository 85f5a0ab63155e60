/-
Reading decimal numbers of bounded size.

A number is a row of decimal digits, with a plus sign in front if wanted, and with a minus sign if
the number may be negative. The first character that is no digit, or the first digit that takes the
number out of its bounds, settles what is wrong.
-/

namespace ModelCount.Text

/-- why a text is no number of the wanted kind -/
inductive NumberError where
  | empty
  | invalidDigit
  | tooLarge
  | tooSmall
  deriving DecidableEq, Repr

def NumberError.message : NumberError → String
  | empty => "cannot parse integer from empty string"
  | invalidDigit => "invalid digit found in string"
  | tooLarge => "number too large to fit in target type"
  | tooSmall => "number too small to fit in target type"

/-- the number that digits make after the digits read so far, up to a limit -/
def readDigits (limit : Nat) (beyond : NumberError) : Nat → List Char → Except NumberError Nat
  | n, [] => .ok n
  | n, c :: rest =>
    if c.isDigit then
      let next := 10 * n + (c.toNat - '0'.toNat)
      if next ≤ limit then readDigits limit beyond next rest else .error beyond
    else .error .invalidDigit

/-- the number that at least one digit makes, the sign being read -/
def readMagnitude (limit : Nat) (beyond : NumberError) (digits : List Char) :
    Except NumberError Nat :=
  if digits.isEmpty then .error .invalidDigit else readDigits limit beyond 0 digits

/-- a number from 0 to `limit` -/
def readNat (limit : Nat) : List Char → Except NumberError Nat
  | [] => .error .empty
  | '+' :: digits => readMagnitude limit .tooLarge digits
  | digits => readMagnitude limit .tooLarge digits

/-- a number from `-limit` to `limit - 1` -/
def readInt (limit : Nat) : List Char → Except NumberError Int
  | '-' :: digits => return -((← readMagnitude limit .tooSmall digits : Nat) : Int)
  | digits => return ((← readNat (limit - 1) digits : Nat) : Int)

end ModelCount.Text
