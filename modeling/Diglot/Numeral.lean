/-! # Integer numerals

An integer literal is an optional sign and at least one decimal digit, and its value has to fit
into 64 bits with a sign. The text is read from left to right and the first fault decides: a
character that is no digit is reported before an overflow at the same place.
-/

set_option autoImplicit false

namespace Diglot.Numeral

/-- The least and greatest representable integers. -/
def minInt : Int := -9223372036854775808

@[inherit_doc minInt] def maxInt : Int := 9223372036854775807

/-- The value fits into 64 bits with a sign. -/
def fits (v : Int) : Bool := decide (minInt ≤ v) && decide (v ≤ maxInt)

/-- Why a text is no integer. -/
inductive Fault where
  | malformed
  | overflow
  deriving DecidableEq, Inhabited

/-- The value of a decimal digit. -/
def digit? (c : Char) : Option Nat :=
  if '0' ≤ c ∧ c ≤ '9' then some (c.toNat - 48) else none

/-- Reads digits into a running value, away from zero on the side that the sign gives. -/
def readDigits (negative : Bool) : Int → List Char → Except Fault Int
  | value, [] => .ok value
  | value, c :: rest =>
    match digit? c with
    | none => .error .malformed
    | some d =>
      let shifted := value * 10
      let next := if negative then shifted - d else shifted + d
      if fits shifted && fits next then readDigits negative next rest else .error .overflow

/-- The sign of a numeral and the characters behind it. -/
def splitSign : List Char → Bool × List Char
  | '-' :: rest => (true, rest)
  | '+' :: rest => (false, rest)
  | chars => (false, chars)

/-- Reads an integer literal. -/
def read (chars : List Char) : Except Fault Int :=
  let (negative, digits) := splitSign chars
  if digits.isEmpty then .error .malformed else readDigits negative 0 digits

end Diglot.Numeral
