import CatalogUi.Condition
import CatalogUi.Json.Reading

/-!
Conditions in documents. A condition is an object with one member, whose name says what kind of
condition it is; unknown fields of what stands under the name are skipped.
-/

namespace CatalogUi.Condition

open Json

def kinds : List String := ["exists", "equals", "not_equals", "not", "all", "any"]

/-! ## Writing -/

mutual

def toValue : Condition → Value
  | .present path => .object [("exists", .object [("path", .string path)])]
  | .equals path value =>
    .object [("equals", .object [("path", .string path), ("value", value)])]
  | .differs path value =>
    .object [("not_equals", .object [("path", .string path), ("value", value)])]
  | .not inner => .object [("not", toValue inner)]
  | .all items => .object [("all", .array (toValues items))]
  | .any items => .object [("any", .array (toValues items))]

def toValues : List Condition → List Value
  | [] => []
  | c :: rest => toValue c :: toValues rest

end

/-! ## Reading -/

/-- A path alone. -/
def presenceFormat : RecordFormat (Option String) where
  expected := "struct variant VisibilityCondition::Exists"
  start := none
  field
    | path, "path", nesting, d => readOnce "path" path readString nesting d
    | path, _, _, d => skipField path d
  fields := ["path"]
  required := 1

/-- A path and a value to compare with. -/
def comparisonFormat (kind : String) : RecordFormat (Option String × Option Value) where
  expected := "struct variant VisibilityCondition::" ++ kind
  start := (none, none)
  field
    | (path, value), "path", nesting, d => do
      return (← readOnce "path" path readString nesting d, value)
    | (path, value), "value", nesting, d => do
      return (path, ← readOnce "value" value readValue nesting d)
    | given, _, _, d => skipField given d
  fields := ["path", "value"]
  required := 2

def readPresence (nesting : Nat) (d : Draft) : Except ReadError Condition := do
  return .present (← required "path" (← presenceFormat.read nesting d))

def readComparison (kind : String) (make : String → Value → Condition) (nesting : Nat)
    (d : Draft) : Except ReadError Condition := do
  let (path, value) ← (comparisonFormat kind).read nesting d
  return make (← required "path" path) (← required "value" value)

/-- A kind of condition without anything to go with it. -/
def bareKind {α : Type} (name : String) : Except ReadError α :=
  if name ∈ ["exists", "equals", "not_equals"] then
    .error (.shape (.invalidType .unitVariant "struct variant"))
  else if name ∈ kinds then
    .error (.shape (.invalidType .unitVariant "newtype variant"))
  else .error (.shape (.unknownVariant name kinds))

mutual

/-- Reads a condition. -/
def read (nesting : Nat) : Draft → Except ReadError Condition
  | .string name => bareKind name
  | .object [] ending => do
    let _ ← enter nesting
    noChoice ending
  | .object ((none, _) :: _) _ => .error (.text .malformed)
  | .object ((some name, d) :: more) ending => do
    let nesting ← enter nesting
    let c ← match name with
      | "exists" => readPresence nesting d
      | "equals" => readComparison "Equals" .equals nesting d
      | "not_equals" => readComparison "NotEquals" .differs nesting d
      | "not" => (read nesting d).map .not
      | "all" => (readSequence nesting d).map .all
      | "any" => (readSequence nesting d).map .any
      | name => .error (.shape (.unknownVariant name kinds))
    endChoice more ending
    return c
  | d => notAChoice d

def readSequence (nesting : Nat) : Draft → Except ReadError (List Condition)
  | .array items ending => do
    let nesting ← enter nesting
    readConditions nesting items ending
  | d => .error (d.misfit "a sequence")

def readConditions (nesting : Nat) : List Draft → Ending → Except ReadError (List Condition)
  | [], ending => do
    ending.reach
    return []
  | d :: rest, ending => do
    let c ← read nesting d
    return c :: (← readConditions nesting rest ending)

end

end CatalogUi.Condition
