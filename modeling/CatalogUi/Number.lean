import CatalogUi.Number.Decimal

/-!
The numbers of a document. A numeral without point and exponent that fits 64 bits, with or without
sign, is an exact integer, except for minus zero; every other numeral is a floating-point number.
The two kinds are never equal.
-/

namespace CatalogUi

inductive Number where
  | int (n : Int)
  | double (d : Double)
deriving DecidableEq

/-- A numeral as it is spelled: sign, digits before and after the point, and exponent. -/
structure Numeral where
  negative : Bool
  whole : List Char
  fraction : List Char
  exponent : Option Int
deriving DecidableEq

namespace Numeral

/-- Whether there is neither a point nor an exponent. -/
def isWhole (n : Numeral) : Bool := n.fraction.isEmpty && n.exponent.isNone

/-- The coefficient that is kept and the power of ten that scales it. Digits of the whole part
that do not fit are counted; those of the fraction are dropped. -/
def decimal (n : Numeral) : Decimal :=
  let whole := readCoefficient 0 n.whole
  let all := readCoefficient whole.1 n.fraction
  ⟨all.1, whole.2.length - (n.fraction.length - all.2.length : Nat) + n.exponent.getD 0⟩

/-- The number that a numeral stands for, unless it is too large. -/
def number? (n : Numeral) : Option Number :=
  let whole := readCoefficient 0 n.whole
  let isInteger : Bool := n.isWhole && whole.2.isEmpty &&
    (!n.negative || 0 < whole.1 && whole.1 ≤ Nat.pow 2 63)
  if isInteger then some (.int (if n.negative then -(whole.1 : Int) else whole.1))
  else (Double.ofDecimal? n.negative n.decimal.coefficient n.decimal.exponent).map .double

end Numeral

namespace Number

/-- The integers that a document can hold exactly. -/
def InRange (n : Int) : Prop := -(Nat.pow 2 63 : Int) ≤ n ∧ n < (Nat.pow 2 64 : Int)

instance (n : Int) : Decidable (InRange n) := inferInstanceAs (Decidable (_ ∧ _))

/-- The number as a floating-point number, rounded to the nearest one. -/
def toDouble : Number → Double
  | .int n => .ofInt n
  | .double d => d

/-- Equality of numbers: integers by value, floating-point numbers by their place in the order, so
that both zeros are one, and an integer never equals a floating-point number. -/
def same : Number → Number → Bool
  | .int m, .int n => m = n
  | .double a, .double b => a.place = b.place
  | _, _ => false

/-- The digits of an integer, after its sign. -/
def intText (n : Int) : List Char :=
  if n < 0 then '-' :: Nat.toDigits 10 n.natAbs else Nat.toDigits 10 n.natAbs

/-- The text of a number in a document. -/
def text : Number → List Char
  | .int n => intText n
  | .double d => NumeralStyle.document.text d

end Number

end CatalogUi
