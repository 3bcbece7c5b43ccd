import CatalogUi.Number.Double

/-!
Floating-point numbers as decimal digits. Reading takes a coefficient of at most 64 bits and a power
of ten; it rounds the coefficient, and rounds again when it is scaled. Writing takes the fewest
digits whose nearest number is the given one, and of several such digits the nearest; a style says
how they are laid out.
-/

namespace CatalogUi

/-- The digit value of a character, which is zero for anything but a decimal digit. -/
def digitValue (c : Char) : Nat :=
  if c.isDigit then c.toNat - '0'.toNat else 0

/-- Reads digits into a coefficient while it stays below `2 ^ 64`, and returns the digits left. -/
def readCoefficient (start : Nat) : List Char → Nat × List Char
  | [] => (start, [])
  | c :: rest =>
    let next := start * 10 + digitValue c
    if next < Nat.pow 2 64 then readCoefficient next rest else (start, c :: rest)

namespace Double

/-- The number nearest to a power of ten; past the largest finite power it is the largest finite
number. -/
def tenTo (e : Nat) : Double := ofInt (Nat.pow 10 e)

/-- The number divided by a power of ten, rounded once. -/
def divTen (d : Double) (e : Nat) : Option Double :=
  nearest? d.negative (d.magnitude.div (tenTo e).magnitude)

/-- Divides by `10 ^ 308` a number of times, rounding each time, until zero is reached. -/
def divLargestTen : Nat → Double → Option Double
  | 0, d => some d
  | n + 1, d => if d.rank = 0 then some d else (d.divTen 308).bind (divLargestTen n)

/-- Scales a magnitude by a power of ten, with one rounding for each factor of at most `10 ^ 308`.
There is no result when it is too large to be finite. -/
def scaleTen? (d : Double) : Int → Option Double
  | .ofNat e =>
    if e ≤ 308 then nearest? d.negative (d.magnitude.mul (tenTo e).magnitude)
    else if d.rank = 0 then some d else none
  | .negSucc e => (divLargestTen (e / 308) d).bind fun small => small.divTen (e % 308 + 1)

/-- Reads a sign, a coefficient and a power of ten. -/
def ofDecimal? (negative : Bool) (coefficient : Nat) (e : Int) : Option Double :=
  scaleTen? ⟨negative, (ofInt coefficient).rank, (ofInt coefficient).rank_lt⟩ e

end Double

/-- Decimal digits: a coefficient scaled by a power of ten. -/
structure Decimal where
  coefficient : Nat
  exponent : Int
deriving DecidableEq

namespace Decimal

def ratio (d : Decimal) : Ratio := (Ratio.ofNat d.coefficient).scaleTen d.exponent

/-- Moves the zeros at the end of the coefficient into the exponent. -/
def strip (d : Decimal) : Decimal :=
  if h : d.coefficient ≠ 0 ∧ d.coefficient % 10 = 0 then
    strip ⟨d.coefficient / 10, d.exponent + 1⟩
  else d
termination_by d.coefficient
decreasing_by omega

/-- How many digits a ratio has in front of the decimal point; for a ratio below one tenth it is
minus the number of zeros that follow the point. -/
def pointPlace (r : Ratio) : Int :=
  if r.den ≤ r.num then (Nat.toDigits 10 r.floor).length
  else 1 - (Nat.toDigits 10 ((r.den - 1) / r.num)).length

/-- How an exact tie between two decimals of the same length is broken. -/
inductive Tie where
  | toEven
  | up
deriving DecidableEq

/-- The decimal with the given number of digits that is nearest to the ratio, if one of the two
around the ratio has the given rank. -/
def candidate (tie : Tie) (rank : Nat) (r : Ratio) (digits : Nat) : Option Decimal :=
  let e := pointPlace r - digits
  let scaled := r.scaleTen (-e)
  let low : Decimal := ⟨scaled.floor, e⟩
  let high : Decimal := ⟨scaled.floor + 1, e⟩
  let reads (d : Decimal) : Bool := d.ratio.nearestRank = rank
  let twice := 2 * (scaled.num % scaled.den)
  let lowIsNearer : Bool := twice < scaled.den ||
    twice = scaled.den && tie = .toEven && low.coefficient % 2 = 0
  if reads low && (lowIsNearer || !reads high) then some low
  else if reads high then some high
  else none

/-- The fewest digits whose nearest magnitude is the given one. Seventeen digits are always enough;
the exact value stands in for the case that cannot arise. -/
def shortest (tie : Tie) (d : Double) : Decimal :=
  let r := d.magnitude
  match (List.range 17).findSome? fun n => candidate tie d.rank r (n + 1) with
  | some found => found.strip
  | none => ⟨(r.scaleTen 1100).floor, -1100⟩

end Decimal

/-- A way to lay out floating-point numbers. -/
structure NumeralStyle where
  /-- The decimal exponents, first and last, that are written without an exponent part; all of
  them when there are no limits. -/
  plain : Option (Int × Int)
  /-- Whether a whole number still gets a fractional digit. -/
  keepsPoint : Bool
  tie : Decimal.Tie

namespace NumeralStyle

/-- Numbers in documents: plain from `0.00001` up to sixteen digits in front of the point, always
with a fractional digit, and with a signed exponent beyond. -/
def document : NumeralStyle := ⟨some (-5, 15), true, .toEven⟩

/-- Bounds in descriptions: never an exponent, and no fractional digit for whole numbers. -/
def bound : NumeralStyle := ⟨none, false, .up⟩

/-- Digits with the decimal point at the given place. -/
def plainText (style : NumeralStyle) (digits : List Char) (place : Int) : List Char :=
  if place ≤ 0 then '0' :: '.' :: List.replicate place.natAbs '0' ++ digits
  else if digits.length ≤ place.natAbs then
    digits ++ List.replicate (place.natAbs - digits.length) '0' ++
      if style.keepsPoint then ['.', '0'] else []
  else digits.take place.natAbs ++ '.' :: digits.drop place.natAbs

/-- One digit, the point and the other digits if there are any, and the exponent with its sign. -/
def scientificText (digits : List Char) (e : Int) : List Char :=
  let mantissa := match digits with
    | first :: second :: rest => first :: '.' :: second :: rest
    | short => short
  mantissa ++ 'e' :: (if e < 0 then '-' else '+') :: Nat.toDigits 10 e.natAbs

/-- The text of a magnitude. -/
def magnitudeText (style : NumeralStyle) (d : Double) : List Char :=
  if d.rank = 0 then if style.keepsPoint then ['0', '.', '0'] else ['0']
  else
    let decimal := Decimal.shortest style.tie d
    let digits := Nat.toDigits 10 decimal.coefficient
    let place : Int := decimal.exponent + digits.length
    match style.plain with
    | none => style.plainText digits place
    | some (first, last) =>
      if first ≤ place - 1 ∧ place - 1 ≤ last then style.plainText digits place
      else scientificText digits (place - 1)

/-- The text of a number. -/
def text (style : NumeralStyle) (d : Double) : List Char :=
  if d.negative then '-' :: style.magnitudeText d else style.magnitudeText d

end NumeralStyle

end CatalogUi
