import Diglot.Binary.Rounding
import Diglot.Numeral

/-! # Double literals

A `Double` is a 64-bit binary number with its sign, an infinity, or no number at all.

- `Double.read` reads a decimal literal, correctly rounded.
- `Double.text` writes the shortest decimal that reads back.
- `Double.truncate` and `Double.ofInt` convert from and to integers.
-/

set_option autoImplicit false

/-! ## Shortest decimals

`shortest d` is the decimal with the fewest digits that rounds back to the 64-bit number `d`, and of
those the one nearest to it; of two that are equally near, the greater. The number is recovered from
every decimal between the midpoints to its neighbours, and from the midpoints themselves if its
mantissa is even.
-/

namespace Diglot.Binary

/-- The decimal `digits * 10 ^ exponent`. -/
structure Decimal where
  digits : Nat
  exponent : Int
  deriving DecidableEq, Inhabited

/-- The fraction `num / den`, its distance to the midpoints below and above over the same `den`, and
whether the midpoints belong to it. -/
structure Neighbourhood where
  num : Nat
  den : Nat
  below : Nat
  above : Nat
  closed : Bool

namespace Neighbourhood

/-- What rounds to the number. Below a power of two the neighbours are twice as dense. -/
def of (d : Fraction) : Neighbourhood :=
  let narrow := d.mantissa == Nat.pow 2 52 && decide (Format.double.minExponent < d.exponent)
  let unit := Nat.pow 2 d.exponent.toNat
  { num := 4 * d.num
    den := 4 * d.den
    below := if narrow then unit else 2 * unit
    above := 2 * unit
    closed := d.mantissa % 2 == 0 }

/-- The neighbourhood in units of `10 ^ k`. -/
def scale (n : Neighbourhood) (k : Int) : Neighbourhood :=
  let up := Nat.pow 10 (-k).toNat
  { n with
    num := n.num * up, below := n.below * up, above := n.above * up
    den := n.den * Nat.pow 10 k.toNat }

/-- The whole number `c` rounds to the number. -/
def holds (n : Neighbourhood) (c : Nat) : Bool :=
  let low := n.num - n.below
  let high := n.num + n.above
  let at' := c * n.den
  if n.closed then decide (low ≤ at') && decide (at' ≤ high)
  else decide (low < at') && decide (at' < high)

/-- The whole number nearest to the number among its two neighbours that round to it. -/
def candidate (n : Neighbourhood) : Option Nat :=
  let q := n.num / n.den
  let r := n.num % n.den
  match n.holds q, n.holds (q + 1) with
  | true, true => some (if 2 * r < n.den then q else q + 1)
  | true, false => some q
  | false, true => some (q + 1)
  | false, false => none

end Neighbourhood

/-- The number of decimal digits of a natural number below `10 ^ fuel`. -/
def digitCount : Nat → Nat → Nat
  | 0, _ => 0
  | fuel + 1, n => if n = 0 then 0 else digitCount fuel (n / 10) + 1

/-- The power of ten `k` with `10 ^ k ≤ num / den < 10 ^ (k + 1)`. -/
def magnitude (num den : Nat) : Int :=
  if den ≤ num then (digitCount 400 (num / den) : Int) - 1
  else
    -- Scaling by `10 ^ 400` moves every 64-bit number above one.
    (digitCount 800 (num * Nat.pow 10 400 / den) : Int) - 401

/-- Tries grids of falling coarseness, from the leading digit on. -/
def search (n : Neighbourhood) : Nat → Int → Decimal
  | 0, k => ⟨n.num / n.den, k⟩
  | fuel + 1, k =>
    match (n.scale k).candidate with
    | some digits => ⟨digits, k⟩
    | none => search n fuel (k - 1)

/-- Moves the zeros at the end into the exponent. -/
def Decimal.trim : Nat → Decimal → Decimal
  | 0, d => d
  | fuel + 1, d =>
    if d.digits % 10 = 0 ∧ d.digits ≠ 0 then trim fuel ⟨d.digits / 10, d.exponent + 1⟩ else d

/-- The shortest decimal that rounds back to a positive number of 64 bits. Seventeen digits are
always enough. -/
def shortest (d : Fraction) : Decimal :=
  let n := Neighbourhood.of d
  (search n 20 (magnitude n.num n.den)).trim 20

end Diglot.Binary

/-! ## Doubles -/

namespace Diglot.Binary

/-- A floating-point number of 64 bits. -/
inductive Double where
  | nan
  | infinite (negative : Bool)
  | finite (negative : Bool) (magnitude : Fraction)
  deriving DecidableEq, Inhabited

namespace Double

/-- The zero of the given sign. -/
def zero (negative : Bool) : Double := .finite negative ⟨0, Format.double.minExponent⟩

/-- The quotient of two naturals, rounded; infinite from `2 ^ 1024` on. -/
def ofQuotient (negative : Bool) (num den : Nat) : Double :=
  let d := Format.double.round num den
  if 971 < d.exponent then .infinite negative else .finite negative d

/-- An integer, rounded. -/
def ofInt (v : Int) : Double := ofQuotient (decide (v < 0)) v.natAbs 1

/-- The number without its fraction, if it lies between the least and the greatest integer. -/
def truncate : Double → Option Int
  | .nan => none
  | .infinite _ => none
  | .finite negative d =>
    let n : Int := d.floor
    let v := if negative then -n else n
    if Numeral.fits v then some v else none

/-! ## Writing -/

/-- Decimal digits of a number. -/
def digitsOf (n : Nat) : List Char := (toString n).toList

/-- The least exponent of ten written with a mark, and the least one above it again. Between them a
number is written with all its places. -/
def positional (power : Int) : Bool := decide (-4 ≤ power) && decide (power < 16)

/-- A decimal with at least one place on each side of the point. -/
def places (digits : List Char) (point : Int) : List Char :=
  if point ≤ 0 then '0' :: '.' :: (List.replicate (-point).toNat '0' ++ digits)
  else
    let whole := digits.take point.toNat
    let missing := point.toNat - whole.length
    let rest := digits.drop point.toNat
    whole ++ List.replicate missing '0' ++ '.' :: (if rest.isEmpty then ['0'] else rest)

/-- One digit, the others behind a point, and the power of ten. -/
def scientific (digits : List Char) (power : Int) : List Char :=
  match digits with
  | [] => []
  | [d] => d :: 'e' :: (toString power).toList
  | d :: rest => d :: '.' :: rest ++ 'e' :: (toString power).toList

/-- The magnitude of a finite number. -/
def magnitudeText (d : Fraction) : List Char :=
  if d.mantissa = 0 then ['0', '.', '0']
  else
    let dec := shortest d
    let digits := digitsOf dec.digits
    let power := dec.exponent + digits.length - 1
    if positional power then places digits (power + 1) else scientific digits power

/-- The shortest decimal that reads back to the number. -/
def text : Double → String
  | .nan => "NaN"
  | .infinite negative => if negative then "-inf" else "inf"
  | .finite negative d =>
    String.ofList (if negative then '-' :: magnitudeText d else magnitudeText d)

/-! ## Reading -/

/-- Leading digits, their value appended to `value`, their number, and what follows. -/
def takeDigits : Nat → Nat → List Char → Nat × Nat × List Char
  | value, count, [] => (value, count, [])
  | value, count, c :: rest =>
    match Numeral.digit? c with
    | none => (value, count, c :: rest)
    | some d => takeDigits (value * 10 + d) (count + 1) rest

/-- The exponent mark and what stands behind it; nothing at all is the exponent zero. -/
def readExponent : List Char → Option Int
  | [] => some 0
  | c :: rest =>
    if c = 'e' ∨ c = 'E' then
      let (negative, digits) := Numeral.splitSign rest
      match takeDigits 0 0 digits with
      | (value, count, []) => if count = 0 then none else some (if negative then -value else value)
      | _ => none
    else none

/-- `value * 10 ^ power`, rounded. Powers far outside the range of the format are settled by the
number of digits alone. -/
def ofDecimal (negative : Bool) (value : Nat) (power : Int) : Double :=
  if value = 0 then zero negative
  else
    let leading : Int := (toString value).length + power
    if 310 < leading then .infinite negative
    else if leading < -330 then zero negative
    else ofQuotient negative (value * Nat.pow 10 power.toNat) (Nat.pow 10 (-power).toNat)

/-- A literal without its sign: digits with at most one point, at least one of them, and maybe an
exponent. -/
def readMagnitude (negative : Bool) (chars : List Char) : Option Double :=
  let (whole, wholeCount, rest) := takeDigits 0 0 chars
  let (value, fraction, rest) :=
    match rest with
    | '.' :: rest => takeDigits whole 0 rest
    | rest => (whole, 0, rest)
  if wholeCount + fraction = 0 then none
  else (readExponent rest).map fun power => ofDecimal negative value (power - fraction)

/-- Reads a double literal. The words for infinity and for no number may be in any case. -/
def read (chars : List Char) : Option Double :=
  let (negative, body) := Numeral.splitSign chars
  let word := String.ofList (body.map Char.toLower)
  if word = "inf" ∨ word = "infinity" then some (.infinite negative)
  else if word = "nan" then some .nan
  else readMagnitude negative body

end Double

end Diglot.Binary
