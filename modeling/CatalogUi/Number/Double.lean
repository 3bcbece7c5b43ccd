/-!
Binary floating-point numbers of 64 bits, without infinities. A number is a sign and a rank: the
place of its magnitude among all finite magnitudes in increasing order. Comparing two magnitudes is
comparing ranks, and rounding an exact ratio is finding the rank of the nearest magnitude.
-/

namespace CatalogUi

/-- An exact nonnegative ratio, not necessarily in lowest terms. -/
structure Ratio where
  num : Nat
  den : Nat
  den_pos : 0 < den
deriving DecidableEq

namespace Ratio

def ofNat (n : Nat) : Ratio := ⟨n, 1, Nat.one_pos⟩

/-- The ratio times `base ^ e`, where the exponent may be negative. -/
def scale (r : Ratio) (base : Nat) (h : 0 < base) : Int → Ratio
  | .ofNat e => ⟨r.num * Nat.pow base e, r.den, r.den_pos⟩
  | .negSucc e => ⟨r.num, r.den * Nat.pow base (e + 1), Nat.mul_pos r.den_pos (Nat.pow_pos h)⟩

def scaleTwo (r : Ratio) (e : Int) : Ratio := r.scale 2 (by decide) e

def scaleTen (r : Ratio) (e : Int) : Ratio := r.scale 10 (by decide) e

def mul (r s : Ratio) : Ratio := ⟨r.num * s.num, r.den * s.den, Nat.mul_pos r.den_pos s.den_pos⟩

/-- The quotient of two ratios; a quotient by zero is zero. -/
def div (r s : Ratio) : Ratio :=
  if h : 0 < s.num then ⟨r.num * s.den, r.den * s.num, Nat.mul_pos r.den_pos h⟩ else ofNat 0

/-- The greatest whole number that is not above the ratio. -/
def floor (r : Ratio) : Nat := r.num / r.den

/-- The nearest whole number; halfway between two of them the even one is taken. -/
def round (r : Ratio) : Nat :=
  let low := r.num / r.den
  let twice := 2 * (r.num % r.den)
  if twice < r.den then low else if r.den < twice then low + 1 else low + low % 2

/-- The exponent of the binary grid on which the ratio is rounded: it leaves a whole part of 53
bits, and does not go below the finest grid there is. -/
def gridExponent (r : Ratio) : Int :=
  let e : Int := (Nat.log2 r.num : Int) - Nat.log2 r.den - 53
  max (if (r.scaleTwo (-e)).floor < Nat.pow 2 53 then e else e + 1) (-1074)

/-- The rank of the magnitude nearest to the ratio, counted on past the largest finite one. -/
def nearestRank (r : Ratio) : Nat :=
  if r.num = 0 then 0
  else
    let e := r.gridExponent
    (e + 1074).toNat * Nat.pow 2 52 + (r.scaleTwo (-e)).round

end Ratio

/-- How many finite magnitudes there are. -/
def Double.rankCount : Nat := 2047 * Nat.pow 2 52

/-- A finite floating-point number: its sign and the rank of its magnitude. Zero has rank zero and
either sign. -/
structure Double where
  negative : Bool
  rank : Nat
  rank_lt : rank < Double.rankCount
deriving DecidableEq

namespace Double

/-- The whole number that, scaled by the exponent, is the magnitude. -/
def significand (d : Double) : Nat :=
  if d.rank < Nat.pow 2 52 then d.rank else Nat.pow 2 52 + d.rank % Nat.pow 2 52

/-- The power of two by which the significand is scaled. -/
def exponent (d : Double) : Int :=
  if d.rank < Nat.pow 2 52 then -1074 else (d.rank / Nat.pow 2 52 : Nat) - 1075

/-- The exact magnitude. -/
def magnitude (d : Double) : Ratio := (Ratio.ofNat d.significand).scaleTwo d.exponent

def ofRank? (negative : Bool) (rank : Nat) : Option Double :=
  if h : rank < rankCount then some ⟨negative, rank, h⟩ else none

/-- The number nearest to a signed ratio, if it is finite. -/
def nearest? (negative : Bool) (r : Ratio) : Option Double :=
  ofRank? negative r.nearestRank

/-- The number nearest to a whole number; past the finite ones it is the largest of them. -/
def ofInt (n : Int) : Double :=
  ⟨n < 0, min (Ratio.ofNat n.natAbs).nearestRank (rankCount - 1),
    Nat.lt_of_le_of_lt (Nat.min_le_right ..) (by decide)⟩

def zero : Double := ⟨false, 0, by decide⟩

/-- The place of a number in the numerical order; both zeros share one place. -/
def place (d : Double) : Int :=
  if d.negative then -(d.rank : Int) else d.rank

instance : LE Double := ⟨fun a b => a.place ≤ b.place⟩

instance : LT Double := ⟨fun a b => a.place < b.place⟩

instance (a b : Double) : Decidable (a ≤ b) := inferInstanceAs (Decidable (a.place ≤ b.place))

instance (a b : Double) : Decidable (a < b) := inferInstanceAs (Decidable (a.place < b.place))

end Double

end CatalogUi
