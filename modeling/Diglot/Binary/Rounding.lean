/-! # Rounding to binary fractions

A binary format holds numbers `m * 2 ^ e` whose mantissa `m` has at most `precision` bits and whose
exponent is at least `minExponent`. `Format.round` takes a quotient of naturals to the nearest such
number, and a quotient half way between two of them to the one with the even mantissa.
-/

set_option autoImplicit false

namespace Diglot.Binary

/-- The number `mantissa * 2 ^ exponent`. -/
structure Fraction where
  mantissa : Nat
  exponent : Int
  deriving DecidableEq, Inhabited

/-- How many bits a mantissa has, and where the exponents end below. -/
structure Format where
  precision : Nat
  minExponent : Int
  deriving DecidableEq, Inhabited

/-- Numbers of 64 bits. -/
def Format.double : Format := ⟨53, -1074⟩

/-- Numbers of 32 bits. -/
def Format.single : Format := ⟨24, -149⟩

/-- The natural number nearest to a quotient; a tie goes to the even one. -/
def nearest (num den : Nat) : Nat :=
  let q := num / den
  let r := num % den
  if 2 * r < den then q
  else if den < 2 * r then q + 1
  else if q % 2 = 0 then q else q + 1

namespace Fraction

/-- Numerator of the number as a fraction over `den`. -/
def num (d : Fraction) : Nat := d.mantissa * Nat.pow 2 d.exponent.toNat

/-- Denominator of the number as a fraction, a power of two. -/
def den (d : Fraction) : Nat := Nat.pow 2 (-d.exponent).toNat

/-- The integral part. -/
def floor (d : Fraction) : Nat := d.num / d.den

end Fraction

namespace Format

/-- The quotient in units of `2 ^ e`, as numerator and denominator. -/
def scaled (num den : Nat) (e : Int) : Nat × Nat :=
  (num * Nat.pow 2 (-e).toNat, den * Nat.pow 2 e.toNat)

/-- The exponent at which the quotient has a mantissa of full width, or the least exponent. -/
def exponentOf (f : Format) (num den : Nat) : Int :=
  let e : Int := (num.log2 : Int) - (den.log2 : Int) - (f.precision : Int)
  let (n, d) := scaled num den e
  let e := if d * Nat.pow 2 f.precision ≤ n then e + 1 else e
  max e f.minExponent

/-- The nearest number of the format; ties go to the even mantissa. -/
def round (f : Format) (num den : Nat) : Fraction :=
  if num = 0 then ⟨0, f.minExponent⟩
  else
    let e := f.exponentOf num den
    let (n, d) := scaled num den e
    let m := nearest n d
    if m = Nat.pow 2 f.precision then ⟨m / 2, e + 1⟩ else ⟨m, e⟩

/-- The exact quotient of two numbers, rounded. -/
def div (f : Format) (a b : Fraction) : Fraction := f.round (a.num * b.den) (a.den * b.num)

/-- The exact product of two numbers, rounded. -/
def mul (f : Format) (a b : Fraction) : Fraction := f.round (a.num * b.num) (a.den * b.den)

/-- The exact difference of two numbers, rounded; zero if the second is not smaller. -/
def sub (f : Format) (a b : Fraction) : Fraction :=
  f.round (a.num * b.den - b.num * a.den) (a.den * b.den)

/-- A natural number, rounded. -/
def ofNat (f : Format) (n : Nat) : Fraction := f.round n 1

/-- A number of another format, rounded. -/
def convert (f : Format) (a : Fraction) : Fraction := f.round a.num a.den

end Format

end Diglot.Binary
