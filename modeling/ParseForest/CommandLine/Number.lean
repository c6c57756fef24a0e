/-! # Numbers on the command line

Counts are written in decimal digits, with a plus sign in front if one likes.  Leading zeros do
not matter, and a number that does not fit its width is refused.  Where a minus sign is read as
well, only zero may follow it. -/

namespace ParseForest.CommandLine

/-- The number that some digits write, most significant first, behind those read so far. -/
def readDigits : (soFar : Nat) → List Char → Option Nat
  | soFar, [] => some soFar
  | soFar, c :: cs => if c.isDigit then readDigits (10 * soFar + (c.toNat - '0'.toNat)) cs else none

/-- The number that one or more digits write. -/
def readDecimal : List Char → Option Nat
  | [] => none
  | c :: cs => readDigits 0 (c :: cs)

/-- The number that a value writes, if it is below `2 ^ bits`.  A minus sign is allowed before zero
where numbers are read as signed. -/
def readNumber (bits : Nat) (signed : Bool) (value : String) : Option Nat :=
  let number :=
    match value.toList with
    | '+' :: digits => readDecimal digits
    | '-' :: digits => if signed then (readDecimal digits).filter (· = 0) else none
    | digits => readDecimal digits
  number.filter (· < Nat.pow 2 bits)

end ParseForest.CommandLine
