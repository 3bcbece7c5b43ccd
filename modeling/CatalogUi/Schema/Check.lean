import CatalogUi.Schema

/-!
Checking values against shapes. A check goes through the whole value: it gives the value with the
declared defaults filled in, or one error for every place that does not fit, declared fields in
their order, items by index, and the undeclared fields of an object after its declared ones.
-/

namespace CatalogUi

/-- A step from a value, or from its shape, to a part of it. -/
inductive Step where
  | field (name : String)
  | item (index : Nat)
  /-- All items of a sequence at once. -/
  | items
deriving DecidableEq

/-- A place inside a value or a shape, from the outside in. -/
abbrev Place := List Step

namespace Place

/-- The text of a place. Names are joined by points; there is none in front of the first name. -/
def text (place : Place) : String :=
  place.foldl
    (fun before step =>
      match step with
      | .field name => if before = "" then name else before ++ "." ++ name
      | .item index => before ++ "[" ++ toString index ++ "]"
      | .items => before ++ "[]")
    ""

end Place

/-- Why a value does not fit at a place. -/
inductive SchemaFault where
  /-- The value has not the declared shape, or is absent although it may not be. -/
  | mismatch (schema : Schema) (received : Option Value)
  | badPath (error : BindingError) (received : Value)
  /-- The shape declares no such field. -/
  | undeclared (received : Value)

structure SchemaError where
  place : Place
  fault : SchemaFault

namespace SchemaError

def path (e : SchemaError) : String := e.place.text

def expected (e : SchemaError) : String :=
  match e.fault with
  | .mismatch schema _ => schema.describe
  | .badPath error _ => "binding path (" ++ error.message ++ ")"
  | .undeclared _ => "no such field"

/-- A short text for a value: arrays and objects are only named. -/
def receivedText : Option Value → String
  | none => "undefined"
  | some (.object _) => "object"
  | some (.array _) => "array"
  | some scalar => scalar.compact

def received (e : SchemaError) : String :=
  match e.fault with
  | .mismatch _ value => receivedText value
  | .badPath _ value => receivedText (some value)
  | .undeclared value => receivedText (some value)

def message (e : SchemaError) : String :=
  (if e.path = "" then "<value>" else e.path) ++ ": expected " ++ e.expected ++ ", received " ++
    e.received

/-- Several errors in one line. -/
def joined (errors : List SchemaError) : String :=
  "; ".intercalate (errors.map message)

end SchemaError

/-- The outcome of a check: all errors, of which there is at least one, or a result. -/
abbrev Checked (α : Type) := Except (List SchemaError) α

namespace Checked

/-- Puts two outcomes together; the errors of both are kept. -/
def both {α β γ : Type} (f : α → β → γ) : Checked α → Checked β → Checked γ
  | .ok a, .ok b => .ok (f a b)
  | .error e, .ok _ => .error e
  | .ok _, .error e => .error e
  | .error e, .error e' => .error (e ++ e')

/-- Adds errors that do not affect the result. -/
def withErrors {α : Type} (errors : List SchemaError) (result : Checked α) : Checked α :=
  match errors with
  | [] => result
  | errors => both (fun a (_ : Unit) => a) result (.error errors)

end Checked

namespace Schema

/-- Whether a number lies between the bounds. Its floating-point value counts. -/
def inBounds (min max : Option Bound) (n : Number) : Bool :=
  (min.all fun least => least ≤ .finite n.toDouble) && max.all fun most => .finite n.toDouble ≤ most

def mismatch {α : Type} (place : Place) (s : Schema) (value : Option Value) : Checked α :=
  .error [⟨place, .mismatch s value⟩]

/-- Checks a value against a shape without parts. -/
def checkScalar (place : Place) (s : Schema) (value : Value) : Checked (Option Value) :=
  match s, value with
  | .string, .string _ => .ok (some value)
  | .boolean, .bool _ => .ok (some value)
  | .number min max, .number n =>
    if inBounds min max n then .ok (some value) else mismatch place s (some value)
  | .oneOf values, .string t =>
    if t ∈ values then .ok (some value) else mismatch place s (some value)
  | .path, .string t =>
    match Path.parse t with
    | .ok _ => .ok (some value)
    | .error e => .error [⟨place, .badPath e value⟩]
  | _, _ => mismatch place s (some value)

/-- Checks items one after the other and keeps what they give. -/
def checkItems (check : Place → Value → Checked (Option Value)) (place : Place) (index : Nat) :
    List Value → Checked (List Value)
  | [] => .ok []
  | v :: rest =>
    Checked.both (fun v out => v.toList ++ out) (check (place ++ [.item index]) v)
      (checkItems check place (index + 1) rest)

/-- The errors for given fields that are not declared. -/
def undeclared (place : Place) (fields : List (String × Schema)) (given : List (String × Value)) :
    List SchemaError :=
  (given.filter fun entry => !Entries.has fields entry.1).map fun entry =>
    ⟨place ++ [.field entry.1], .undeclared entry.2⟩

mutual

/-- Checks a value, or its absence, at a place. A result without value stands for a field that is
left out. When `strict`, undeclared fields are errors; otherwise they are dropped. -/
def checkAt (strict : Bool) (place : Place) : Schema → Option Value → Checked (Option Value)
  | .optional inner default, value =>
    match value with
    | none => .ok default
    | some v => checkAt strict place inner (some v)
  | .nullable inner, value =>
    match value with
    | some .null => .ok (some .null)
    | some v => checkAt strict place inner (some v)
    | none =>
      if inner.isOptional then checkAt strict place inner none
      else mismatch place (.nullable inner) none
  | .array items, value =>
    match value with
    | some (.array given) =>
      (checkItems (fun place v => checkAt strict place items (some v)) place 0 given).map
        (some ∘ .array)
    | value => mismatch place (.array items) value
  | .object fields, value =>
    match value with
    | some (.object given) =>
      ((checkFields strict place given fields).withErrors
        (if strict then undeclared place fields given else [])).map (some ∘ .object)
    | value => mismatch place (.object fields) value
  | s, some value => checkScalar place s value
  | s, none => mismatch place s none

/-- Checks the declared fields in their order. -/
def checkFields (strict : Bool) (place : Place) (given : List (String × Value)) :
    List (String × Schema) → Checked (List (String × Value))
  | [] => .ok []
  | (name, s) :: rest =>
    Checked.both (fun v out => (v.toList.map fun v => (name, v)) ++ out)
      (checkAt strict (place ++ [.field name]) s (Entries.get? given name))
      (checkFields strict place given rest)

end

/-- Checks a value that may be absent, and gives it with defaults filled in. An absent value without
default is null. -/
def validate (s : Schema) (strict : Bool) (value : Option Value) : Checked Value :=
  (checkAt strict [] s value).map (·.getD .null)

/-! ## Defects of the shape itself -/

/-- What can be wrong with a shape. -/
inductive Defect where
  | emptyEnum
  | invalidBounds (min max : Bound)
  | invalidDefault (errors : List SchemaError)

mutual

/-- The first defect of a shape, with its place. The shape inside an optional one comes before its
default, which is checked strictly. -/
def lint (place : Place) : Schema → Except (Place × Defect) Unit
  | .oneOf values => if values.isEmpty then .error (place, .emptyEnum) else .ok ()
  | .number (some min) (some max) =>
    if max < min then .error (place, .invalidBounds min max) else .ok ()
  | .array items => lint (place ++ [.items]) items
  | .object fields => lintFields place fields
  | .optional inner default =>
    match lint place inner with
    | .error e => .error e
    | .ok () =>
      match default with
      | none => .ok ()
      | some v =>
        match inner.validate true (some v) with
        | .ok _ => .ok ()
        | .error errors => .error (place, .invalidDefault errors)
  | .nullable inner => lint place inner
  | _ => .ok ()

def lintFields (place : Place) : List (String × Schema) → Except (Place × Defect) Unit
  | [] => .ok ()
  | (name, s) :: rest =>
    match lint (place ++ [.field name]) s with
    | .error e => .error e
    | .ok () => lintFields place rest

end

end Schema

end CatalogUi
