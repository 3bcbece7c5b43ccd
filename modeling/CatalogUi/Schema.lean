import CatalogUi.Number.Bound
import CatalogUi.Path
import CatalogUi.Value.Printer

/-!
Shapes of values. A shape says what a value may be, whether it may be absent, and what stands in for
an absent one; the same shape is checked, described in words, and written to a document.
-/

namespace CatalogUi

inductive Schema where
  | string
  /-- A number between two bounds, both included. -/
  | number (min max : Option Bound)
  | boolean
  /-- One of the listed strings. -/
  | oneOf (values : List String)
  | array (items : Schema)
  /-- A string that is a binding path. -/
  | path
  | object (fields : List (String × Schema))
  /-- A value that may be absent, and what stands in for it then. -/
  | optional (inner : Schema) (default : Option Value)
  /-- A value or null. Whether it may be absent is up to the inner shape. -/
  | nullable (inner : Schema)

namespace Schema

def anyNumber : Schema := .number none none

def emptyObject : Schema := .object []

/-- The declared fields of an object shape. -/
def fields? : Schema → Option (List (String × Schema))
  | .object fields => some fields
  | _ => none

/-- Whether a value may be absent. -/
def isOptional : Schema → Bool
  | .optional _ _ => true
  | .nullable inner => inner.isOptional
  | _ => false

/-- What stands in for an absent value. -/
def default? : Schema → Option Value
  | .optional inner default => default.or inner.default?
  | .nullable inner => inner.default?
  | _ => none

/-- Whether the values address the data store. -/
def isBinding : Schema → Bool
  | .path => true
  | .optional inner _ => inner.isBinding
  | .nullable inner => inner.isBinding
  | _ => false

def boundText : Bound → String
  | .finite d => String.ofList (NumeralStyle.bound.text d)
  | .infinite negative => if negative then "-inf" else "inf"
  | .nan => "NaN"

mutual

/-- The shape in words. -/
def describe : Schema → String
  | .string => "string"
  | .number (some min) (some max) =>
    "number between " ++ boundText min ++ " and " ++ boundText max
  | .number (some min) none => "number >= " ++ boundText min
  | .number none (some max) => "number <= " ++ boundText max
  | .number none none => "number"
  | .boolean => "boolean"
  | .oneOf values => " | ".intercalate (values.map fun v => "\"" ++ v ++ "\"")
  | .array items => "array of " ++ describe items
  | .path => "binding path (e.g. \"/server/cpu\")"
  | .object [] => "\x7b\x7d"
  | .object fields => "\x7b " ++ ", ".intercalate (describeFields fields) ++ " \x7d"
  | .optional inner _ => describe inner
  | .nullable inner => describe inner ++ " | null"

/-- Each field with its name, marked when it may be absent. -/
def describeFields : List (String × Schema) → List String
  | [] => []
  | (name, s) :: rest =>
    (name ++ (if s.isOptional then "?" else "") ++ ": " ++ describe s) :: describeFields rest

end

/-! ## Equality -/

/-- Equality of what may be missing. -/
def sameIfAny {α : Type} (same : α → α → Bool) : Option α → Option α → Bool
  | some a, some b => same a b
  | none, none => true
  | _, _ => false

mutual

/-- Equality of shapes. Bounds are compared as floating-point numbers, defaults as values, and the
fields of an object in any order. -/
def same : Schema → Schema → Bool
  | .string, .string | .boolean, .boolean | .path, .path => true
  | .number min max, .number min' max' =>
    sameIfAny Bound.same min min' && sameIfAny Bound.same max max'
  | .oneOf values, .oneOf values' => values = values'
  | .array items, .array items' => same items items'
  | .object fields, .object fields' => fields.length = fields'.length && sameFields fields fields'
  | .optional inner default, .optional inner' default' =>
    same inner inner' && sameIfAny Value.same default default'
  | .nullable inner, .nullable inner' => same inner inner'
  | _, _ => false

/-- Whether every field on the left stands on the right, with an equal shape. -/
def sameFields : List (String × Schema) → List (String × Schema) → Bool
  | [], _ => true
  | (name, s) :: rest, fields =>
    (match Entries.get? fields name with
      | some t => same s t
      | none => false) && sameFields rest fields

end

/-! ## Well-formed shapes -/

mutual

/-- No object shape declares a field twice. -/
def WellFormed : Schema → Prop
  | .array items => WellFormed items
  | .object fields => Entries.Distinct fields ∧ WellFormedFields fields
  | .optional inner default => WellFormed inner ∧ ∀ v ∈ default, v.WellFormed
  | .nullable inner => WellFormed inner
  | _ => True

def WellFormedFields : List (String × Schema) → Prop
  | [] => True
  | (_, s) :: rest => WellFormed s ∧ WellFormedFields rest

end

end Schema

end CatalogUi
