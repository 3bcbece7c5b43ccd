import CatalogUi.Schema.Check
import CatalogUi.Proofs.Outcome

/-!
A check that refuses a value gives at least one error. This holds for every shape, strict or not, so
that nothing is ever refused without a reason.
-/

namespace CatalogUi

namespace Checked

variable {α β γ : Type}

/-- When there is no result, there is an error. -/
def Justified (x : Checked α) : Prop :=
  ∀ errors, x = .error errors → errors ≠ []

theorem justified_ok (a : α) : Justified (.ok a) :=
  fun _ h => nomatch h

theorem justified_error {e : SchemaError} {errors : List SchemaError} :
    Justified (.error (e :: errors) : Checked α) := by
  intro errors' h
  cases h
  exact List.cons_ne_nil _ _

theorem Justified.map {f : α → β} {x : Checked α} (hx : Justified x) : Justified (x.map f) :=
  fun errors h => hx errors (Outcome.map_error_iff.1 h)

theorem Justified.both {f : α → β → γ} {x : Checked α} {y : Checked β} (hx : Justified x)
    (hy : Justified y) : Justified (both f x y) := by
  intro errors h
  cases x with
  | ok a =>
    cases y with
    | ok b => cases h
    | error e =>
      cases h
      exact hy _ rfl
  | error e =>
    cases y with
    | ok b =>
      cases h
      exact hx _ rfl
    | error e' =>
      cases h
      exact List.append_ne_nil_of_left_ne_nil (hx _ rfl) _

theorem Justified.withErrors {x : Checked α} (hx : Justified x) (errors : List SchemaError) :
    Justified (x.withErrors errors) := by
  cases errors with
  | nil => exact hx
  | cons e rest => exact hx.both justified_error

end Checked

namespace Schema

open Checked

theorem justified_mismatch {α : Type} (place : Place) (s : Schema) (value : Option Value) :
    Justified (mismatch place s value : Checked α) :=
  justified_error

theorem justified_checkScalar (place : Place) (s : Schema) (value : Value) :
    Justified (checkScalar place s value) := by
  fun_cases checkScalar place s value
  all_goals first
    | exact justified_ok _
    | exact justified_error

theorem justified_checkItems {check : Place → Value → Checked (Option Value)}
    (hcheck : ∀ place v, Justified (check place v)) (place : Place) (index : Nat)
    (given : List Value) : Justified (checkItems check place index given) := by
  induction given generalizing index with
  | nil => exact justified_ok _
  | cons v rest ih => exact (hcheck _ v).both (ih (index + 1))

mutual

theorem justified_checkAt (strict : Bool) : ∀ (place : Place) (s : Schema) (value : Option Value),
    Justified (checkAt strict place s value)
  | place, .optional inner default, value => by
    cases value with
    | none => exact justified_ok _
    | some v => exact justified_checkAt strict place inner (some v)
  | place, .nullable inner, value => by
    rw [checkAt.eq_def]
    dsimp only
    split
    · exact justified_ok _
    · exact justified_checkAt strict place inner _
    · split
      · exact justified_checkAt strict place inner none
      · exact justified_mismatch _ _ _
  | place, .array items, value => by
    rw [checkAt.eq_def]
    dsimp only
    split
    · exact (justified_checkItems (fun place v => justified_checkAt strict place items (some v))
        place 0 _).map
    · exact justified_mismatch _ _ _
  | place, .object fields, value => by
    rw [checkAt.eq_def]
    dsimp only
    split
    · exact ((justified_checkFields strict place _ fields).withErrors _).map
    · exact justified_mismatch _ _ _
  | place, .string, value | place, .number _ _, value | place, .boolean, value
  | place, .oneOf _, value | place, .path, value => by
    cases value with
    | none => exact justified_mismatch _ _ _
    | some v => exact justified_checkScalar place _ v

theorem justified_checkFields (strict : Bool) (place : Place) (given : List (String × Value)) :
    ∀ fields : List (String × Schema), Justified (checkFields strict place given fields)
  | [] => justified_ok _
  | (_, s) :: rest =>
    (justified_checkAt strict _ s _).both (justified_checkFields strict place given rest)

end

theorem justified_validate (s : Schema) (strict : Bool) (value : Option Value) :
    Justified (s.validate strict value) :=
  (justified_checkAt strict [] s value).map

end Schema

end CatalogUi
