import Diglot.Binary.Rounding

/-! # Closeness of names

How close two names are, from zero to one in steps of a ten-thousandth, and the suggestion that a
message makes for a name it does not know. The steps are those of 32-bit arithmetic: a closeness is
a multiple of the nearest 32-bit number to a ten-thousandth, and two are compared by dividing by it
again.
-/

set_option autoImplicit false

/-! ## Edit distance

`distance a b` is the least number of single-character insertions, deletions, substitutions and
transpositions that turn one text into the other, where characters may be inserted between two
transposed ones.

The table is filled row by row. A cell looks back past its row only for a transposition: to the cell
before the last earlier row whose character equals the current column's, and before the last earlier
column whose character equals the current row's.
-/

namespace Diglot.Text

/-- The first `n` numbers. -/
def firstRow (n : Nat) : Array Nat := (Array.range (n + 1))

/-- The number of the last row, counted from one, that was filled for a character; zero without
one. -/
def lastRow (c : Char) : List (Char × Nat) → Nat
  | [] => 0
  | (d, row) :: rest => if c = d then row else lastRow c rest

/-- The cost of transposing the characters of rows `k` and `i` with those of columns `l` and `j`. -/
def transposition (rows : Array (Array Nat)) (i k j l : Nat) : Option Nat :=
  if k = 0 ∨ l = 0 then none
  else some ((rows.getD (k - 1) #[]).getD (l - 1) 0 + (i - k - 1) + 1 + (j - l - 1))

/-- Fills the row of character `c`. `row` holds the cells so far, `j` is the current column and `l`
the last column before it whose character is `c`. -/
def fillRow (rows : Array (Array Nat)) (seen : List (Char × Nat)) (i : Nat) (c : Char)
    (above : Array Nat) : List Char → Nat → Nat → Array Nat → Array Nat
  | [], _, _, row => row
  | d :: rest, j, l, row =>
    let diagonal := above.getD (j - 1) 0
    let straight := min (above.getD j 0 + 1) (row.getD (j - 1) 0 + 1)
    let plain := min straight (if c = d then diagonal else diagonal + 1)
    let cost :=
      match transposition rows i (lastRow d seen) j l with
      | some t => min plain t
      | none => plain
    fillRow rows seen i c above rest (j + 1) (if c = d then j else l) (row.push cost)

/-- Fills the remaining rows of the table. -/
def fillRows (columns : List Char) :
    List Char → Nat → List (Char × Nat) → Array (Array Nat) → Array (Array Nat)
  | [], _, _, rows => rows
  | c :: rest, i, seen, rows =>
    let above := rows.getD (i - 1) #[]
    let row := fillRow rows seen i c above columns 1 0 #[i]
    fillRows columns rest (i + 1) ((c, i) :: seen) (rows.push row)

/-- The edit distance of two texts. -/
def distance (a b : List Char) : Nat :=
  let rows := fillRows b a 1 [] #[firstRow b.length]
  (rows.getD a.length #[]).getD b.length 0

end Diglot.Text

/-! ## Closeness -/

namespace Diglot.Text

open Binary (Fraction Format)

/-- How close two texts are: zero if they have nothing in common, one if they are equal. -/
structure Closeness where
  value : Fraction
  deriving DecidableEq, Inhabited

namespace Closeness

/-- The step: a ten-thousandth in 32 bits. -/
def step : Fraction := Format.single.round 1 10000

/-- Nothing in common. -/
def zero : Closeness := ⟨Format.single.ofNat 0⟩

/-- The least closeness that is worth a suggestion. -/
def half : Closeness := ⟨Format.single.round 1 2⟩

/-- Equal texts. -/
def one : Closeness := ⟨Format.single.ofNat 1⟩

/-- The number of steps, by which closenesses are compared. -/
def steps (c : Closeness) : Nat := (Format.single.div c.value step).floor

/-- Closeness in whole percents: rounded to tenths, then cut. -/
def percents (c : Closeness) : Nat :=
  let tenths := Format.single.mul c.value (Format.single.ofNat 1000)
  let whole := (2 * tenths.num + tenths.den) / (2 * tenths.den)
  (Format.single.div (Format.single.ofNat whole) (Format.single.ofNat 10)).floor

/-- The written form. -/
def text (c : Closeness) : String := toString c.percents ++ "%"

/-- Order by the number of steps. -/
def compare (a b : Closeness) : Ordering := Ord.compare a.steps b.steps

end Closeness

/-- One minus the distance over the longer length, in 64 bits; two empty texts are equal. -/
def similarity (a b : List Char) : Fraction :=
  let length := max a.length b.length
  if length = 0 then Format.double.ofNat 1
  else
    Format.double.sub (Format.double.ofNat 1) (Format.double.round (distance a b) length)

/-- The closeness of two texts, cut to whole steps. -/
def estimate (a b : String) : Closeness :=
  let ratio := Format.single.convert (similarity b.toList a.toList)
  let whole := (Format.single.div ratio Closeness.step).floor
  ⟨Format.single.mul (Format.single.ofNat whole) Closeness.step⟩

/-- Names that the compiler makes up begin with this character. -/
def isTemporaryName (name : String) : Bool := name.toList.head? == some '%'

/-- A candidate is considered unless it is the name itself, is made up, or is less than half as
close. -/
def worthSuggesting (name candidate : String) : Bool :=
  candidate != name && !isTemporaryName candidate &&
    decide (Closeness.half.steps ≤ (estimate candidate name).steps)

/-- Keeps the first of the closest candidates. -/
def closest (name : String) : Option String → List String → Option String
  | best, [] => best
  | best, candidate :: rest =>
    if worthSuggesting name candidate then
      match best with
      | none => closest name (some candidate) rest
      | some b =>
        if (estimate b name).steps < (estimate candidate name).steps then
          closest name (some candidate) rest
        else closest name best rest
    else closest name best rest

/-- The name that was probably meant, if one of the candidates is close enough. -/
def suggest (name : String) (candidates : List String) : Option String :=
  closest name none candidates

end Diglot.Text
