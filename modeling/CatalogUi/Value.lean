import CatalogUi.Entries
import CatalogUi.Number

/-!
The values that documents hold. An object keeps its fields in the order in which they came, and a
value that was read has no field twice; equality of values disregards the order of fields.
-/

namespace CatalogUi

inductive Value where
  | null
  | bool (b : Bool)
  | number (n : Number)
  | string (s : String)
  | array (items : List Value)
  | object (fields : List (String × Value))

namespace Value

instance : Inhabited Value := ⟨null⟩

mutual

/-- Equality of values. Arrays are compared item by item, objects field by field in any order. -/
def same : Value → Value → Bool
  | .null, .null => true
  | .bool a, .bool b => a = b
  | .number m, .number n => m.same n
  | .string s, .string t => s = t
  | .array a, .array b => sameItems a b
  | .object a, .object b => a.length = b.length && sameFields a b
  | _, _ => false

def sameItems : List Value → List Value → Bool
  | [], [] => true
  | v :: a, w :: b => same v w && sameItems a b
  | _, _ => false

/-- Whether every field on the left stands on the right, with an equal value. -/
def sameFields : List (String × Value) → List (String × Value) → Bool
  | [], _ => true
  | (name, v) :: a, b =>
    (match Entries.get? b name with
      | some w => same v w
      | none => false) && sameFields a b

end

mutual

/-- Merges repeated fields at every depth: the last value counts, at the first place. -/
def merged : Value → Value
  | .array items => .array (mergedItems items)
  | .object fields => .object (Entries.ofPairs (mergedFields fields))
  | v => v

def mergedItems : List Value → List Value
  | [] => []
  | v :: rest => merged v :: mergedItems rest

def mergedFields : List (String × Value) → List (String × Value)
  | [] => []
  | (name, v) :: rest => (name, merged v) :: mergedFields rest

end

mutual

/-- What every value from a document satisfies: integers are in range, and no object has a field
twice. -/
def WellFormed : Value → Prop
  | .number (.int n) => Number.InRange n
  | .array items => WellFormedItems items
  | .object fields => Entries.Distinct fields ∧ WellFormedFields fields
  | _ => True

def WellFormedItems : List Value → Prop
  | [] => True
  | v :: rest => WellFormed v ∧ WellFormedItems rest

def WellFormedFields : List (String × Value) → Prop
  | [] => True
  | (_, v) :: rest => WellFormed v ∧ WellFormedFields rest

end

def emptyObject : Value := .object []

def asString? : Value → Option String
  | .string s => some s
  | _ => none

end Value

end CatalogUi
