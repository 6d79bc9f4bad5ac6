/-!
# Decimal integers

Integers are read from and written as decimal digits.  A numeral of more than
{lit}`maxDigits` digits is neither read nor written; arithmetic itself has no limit.
-/

namespace LetPoly
namespace Text

/-- The greatest number of digits that is read or written. -/
def maxDigits : Nat :=
  4300

/-- A numeral that is too long. -/
inductive DigitError where
  /-- A numeral of the given number of digits was to be read. -/
  | reading (digits : Nat)
  /-- An integer with too many digits was to be written. -/
  | writing
deriving DecidableEq

/-- The wording of a digit error. -/
def DigitError.message : DigitError → String
  | .reading digits =>
      "Exceeds the limit (4300 digits) for integer string conversion: value has " ++
        toString digits ++ " digits; use sys.set_int_max_str_digits() to increase the limit"
  | .writing =>
      "Exceeds the limit (4300 digits) for integer string conversion; " ++
        "use sys.set_int_max_str_digits() to increase the limit"

/-- The decimal text of an integer, whatever its length. -/
def decimal (n : Int) : String :=
  toString n

/-- Writes an integer of at most {lit}`maxDigits` digits. -/
def writeInt (n : Int) : Except DigitError String :=
  if n.natAbs < Nat.pow 10 maxDigits then .ok (decimal n) else .error .writing

/-- Reads a sign and at most {lit}`maxDigits` digits, leading zeros included. -/
def readInt (negative : Bool) (digits : List Char) : Except DigitError Int :=
  if digits.length ≤ maxDigits then
    let n : Int := Nat.ofDigitChars 10 digits 0
    .ok (if negative then -n else n)
  else
    .error (.reading digits.length)

end Text
end LetPoly
