import CatalogUi.Number.Double

/-!
The bounds of numbers. A document can only give a finite one, but a program can give any
floating-point number of 64 bits: an infinity, or what is no number at all. They are compared as
floating-point numbers are, so that what is no number is neither below nor above anything, and not
equal to anything, itself included.
-/

namespace CatalogUi

inductive Bound where
  | finite (d : Double)
  | infinite (negative : Bool)
  /-- No number. It has no sign or payload here, since no comparison and no text tells them apart. -/
  | nan
deriving DecidableEq

namespace Bound

def finite? : Bound → Option Double
  | .finite d => some d
  | _ => none

/-- Whether a bound is at most another one. -/
def le : Bound → Bound → Bool
  | .nan, _ | _, .nan => false
  | .infinite true, _ | _, .infinite false => true
  | .infinite false, _ | _, .infinite true => false
  | .finite a, .finite b => a ≤ b

instance : LE Bound := ⟨fun a b => a.le b = true⟩

instance : LT Bound := ⟨fun a b => a ≤ b ∧ ¬ b ≤ a⟩

instance (a b : Bound) : Decidable (a ≤ b) := inferInstanceAs (Decidable (a.le b = true))

instance (a b : Bound) : Decidable (a < b) := inferInstanceAs (Decidable (_ ∧ _))

/-- Equality of floating-point numbers. Both zeros are one. -/
def same (a b : Bound) : Bool := a ≤ b && b ≤ a

end Bound

end CatalogUi
