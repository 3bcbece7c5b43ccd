import CatalogUi.Json.Reading
import CatalogUi.Schema

/-!
Shapes in documents. A descriptor is an object whose `type` names the kind of shape, next to what
that kind takes; or an array of the kind and what it takes, in order. It is read as a value first,
in which only the kind is looked at, and interpreted when it is complete.
-/

namespace CatalogUi.Schema

open Json

/-! ## Writing -/

/-- A bound in a document, where only a finite one can be said; any other is null. -/
def boundValue : Bound → Value
  | .finite d => .number (.double d)
  | _ => .null

mutual

/-- The descriptor of a shape: the kind first, and no bounds or default that are missing. -/
def toValue : Schema → Value
  | .string => .object [("type", .string "string")]
  | .number min max =>
    .object (("type", .string "number") ::
      (min.toList.map fun bound => ("min", boundValue bound)) ++
      (max.toList.map fun bound => ("max", boundValue bound)))
  | .boolean => .object [("type", .string "boolean")]
  | .oneOf values =>
    .object [("type", .string "enum"), ("values", .array (values.map .string))]
  | .array items => .object [("type", .string "array"), ("items", toValue items)]
  | .path => .object [("type", .string "path")]
  | .object fields =>
    .object [("type", .string "object"), ("fields", .object (toValueFields fields))]
  | .optional inner default =>
    .object ([("type", .string "optional"), ("inner", toValue inner)] ++
      default.toList.map fun v => ("default", v))
  | .nullable inner => .object [("type", .string "nullable"), ("inner", toValue inner)]

def toValueFields : List (String × Schema) → List (String × Value)
  | [] => []
  | (name, s) :: rest => (name, toValue s) :: toValueFields rest

end

/-! ## Reading -/

def kinds : List String :=
  ["string", "number", "boolean", "enum", "array", "path", "object", "optional", "nullable"]

/-- What a value is in a complaint. -/
def found : Value → Found
  | .null => .null
  | .bool b => .bool b
  | .number n => .number n
  | .string s => .string s
  | .array _ => .sequence
  | .object _ => .map

def misfit {α : Type} (v : Value) (expected : String) : Except ShapeError α :=
  .error (.invalidType (found v) expected)

/-- The kind that a value names. A whole number stands for the kind at its place in the list. -/
def kindOf : Value → Except ShapeError String
  | .string kind => if kind ∈ kinds then .ok kind else .error (.unknownVariant kind kinds)
  | .number (.int (.ofNat place)) =>
    match kinds[place]? with
    | some kind => .ok kind
    | none => .error (.invalidValue (.number (.int place)) "variant index 0 <= i < 9")
  | v => misfit v "variant identifier"

/-- Looks for the kind among members; it may be given only once. -/
def kindAmong (seen : Option String) : List (String × Value) → Except ShapeError String
  | [] =>
    match seen with
    | some kind => .ok kind
    | none => .error (.missingField "type")
  | (name, v) :: rest =>
    if name = "type" then
      if seen.isSome then .error (.duplicateField "type")
      else
        match kindOf v with
        | .ok kind => kindAmong (some kind) rest
        | .error e => .error e
    else kindAmong seen rest

/-- A bound is a number; null stands for none. -/
def boundOf : Value → Except ShapeError (Option Bound)
  | .null => .ok none
  | .number n => .ok (some (.finite n.toDouble))
  | v => misfit v "f64"

def stringOf : Value → Except ShapeError String
  | .string s => .ok s
  | v => misfit v "a string"

def stringsOf : Value → Except ShapeError (List String)
  | .array items => items.mapM stringOf
  | v => misfit v "a sequence"

/-- A default; null stands for none. -/
def defaultOf : Value → Option Value
  | .null => none
  | v => some v.merged

/-- What a field gives if it is given for the first time. -/
def once {α : Type} (name : String) (slot : Option α) (content : Except ShapeError α) :
    Except ShapeError (Option α) :=
  if slot.isSome then .error (.duplicateField name) else content.map some

def needed {α : Type} (name : String) : Option α → Except ShapeError α
  | some v => .ok v
  | none => .error (.missingField name)

/-- Reads both bounds. -/
def boundsAmong (min max : Option (Option Bound)) : List (String × Value) →
    Except ShapeError Schema
  | [] => .ok (.number min.join max.join)
  | (name, v) :: rest =>
    if name = "min" then do boundsAmong (← once "min" min (boundOf v)) max rest
    else if name = "max" then do boundsAmong min (← once "max" max (boundOf v)) rest
    else boundsAmong min max rest

def valuesAmong (values : Option (List String)) : List (String × Value) →
    Except ShapeError Schema
  | [] => do return .oneOf (← needed "values" values)
  | (name, v) :: rest =>
    if name = "values" then do valuesAmong (← once "values" values (stringsOf v)) rest
    else valuesAmong values rest

/-- The complaint about an array form of the wrong length. -/
def wrongLength {α : Type} (length : Nat) (kind : String) (count : Nat) : Except ShapeError α :=
  .error (.invalidLength length
    ("struct variant Schema::" ++ kind ++ " with " ++ toString count ++
      if count = 1 then " element" else " elements"))

/-- The array form has more elements than the kind takes. -/
def tooLong {α : Type} (count : Nat) (rest : List Value) : Except ShapeError α :=
  .error (.invalidLength (count + rest.length)
    (toString count ++ (if count = 1 then " element" else " elements") ++ " in sequence"))

/-- Accepts the result when the array form ends here. -/
def atEnd {α : Type} (count : Nat) (rest : List Value) (result : α) : Except ShapeError α :=
  if rest.isEmpty then .ok result else tooLong count rest

/-- Reads both bounds in order. -/
def boundsOf : List Value → Except ShapeError Schema
  | [] => .ok anyNumber
  | [min] => do return .number (← boundOf min) none
  | min :: max :: rest => do
    let min ← boundOf min
    let max ← boundOf max
    atEnd 2 rest (.number min max)

mutual

/-- Interprets a complete descriptor. -/
def ofValue : Value → Except ShapeError Schema
  | .object members => do
    match ← kindAmong none members with
    | "string" => return .string
    | "number" => boundsAmong none none members
    | "boolean" => return .boolean
    | "enum" => valuesAmong none members
    | "array" => return .array (← innerAmong "items" none members)
    | "path" => return .path
    | "object" => return .object (← fieldsAmong none members)
    | "optional" => optionalAmong none none members
    | _ => return .nullable (← innerAmong "inner" none members)
  | .array [] => .error (.missingField "type")
  | .array (kind :: rest) => do
    match ← kindOf kind with
    | "string" => atEnd 0 rest .string
    | "number" => boundsOf rest
    | "boolean" => atEnd 0 rest .boolean
    | "enum" =>
      match rest with
      | [] => wrongLength 0 "Enum" 1
      | values :: rest => do atEnd 1 rest (.oneOf (← stringsOf values))
    | "array" => return .array (← onlyInner "Array" rest)
    | "path" => atEnd 0 rest .path
    | "object" =>
      match rest with
      | [] => wrongLength 0 "Object" 1
      | .object fields :: rest => do
        let fields ← ofFields fields
        atEnd 1 rest (.object (Entries.ofPairs fields))
      | v :: _ => misfit v "a map"
    | "optional" =>
      match rest with
      | [] => wrongLength 0 "Optional" 2
      | [inner] => return .optional (← ofValue inner) none
      | inner :: default :: rest => do
        let inner ← ofValue inner
        atEnd 2 rest (.optional inner (defaultOf default))
    | _ => return .nullable (← onlyInner "Nullable" rest)
  | v => misfit v "internally tagged enum Schema"

/-- Reads the one shape that an array form takes. -/
def onlyInner (kind : String) : List Value → Except ShapeError Schema
  | [] => wrongLength 0 kind 1
  | inner :: rest => do
    let inner ← ofValue inner
    atEnd 1 rest inner

/-- Looks for the one shape that a kind takes. -/
def innerAmong (field : String) (inner : Option Schema) : List (String × Value) →
    Except ShapeError Schema
  | [] => needed field inner
  | (name, v) :: rest =>
    if name = field then
      if inner.isSome then .error (.duplicateField field)
      else do
        let s ← ofValue v
        innerAmong field (some s) rest
    else innerAmong field inner rest

/-- Looks for a shape and its default. -/
def optionalAmong (inner : Option Schema) (default : Option (Option Value)) :
    List (String × Value) → Except ShapeError Schema
  | [] => do return .optional (← needed "inner" inner) default.join
  | (name, v) :: rest =>
    if name = "inner" then
      if inner.isSome then .error (.duplicateField "inner")
      else do
        let s ← ofValue v
        optionalAmong (some s) default rest
    else if name = "default" then
      if default.isSome then .error (.duplicateField "default")
      else optionalAmong inner (some (defaultOf v)) rest
    else optionalAmong inner default rest

/-- Looks for the fields of an object shape. -/
def fieldsAmong (fields : Option (List (String × Schema))) : List (String × Value) →
    Except ShapeError (List (String × Schema))
  | [] => needed "fields" fields
  | (name, .object members) :: rest =>
    if name = "fields" then
      if fields.isSome then .error (.duplicateField "fields")
      else do
        let found ← ofFields members
        fieldsAmong (some (Entries.ofPairs found)) rest
    else fieldsAmong fields rest
  | (name, v) :: rest =>
    if name = "fields" then
      if fields.isSome then .error (.duplicateField "fields") else misfit v "a map"
    else fieldsAmong fields rest

/-- Interprets named shapes one after the other. -/
def ofFields : List (String × Value) → Except ShapeError (List (String × Schema))
  | [] => .ok []
  | (name, v) :: rest => do
    let s ← ofValue v
    return (name, s) :: (← ofFields rest)

end

/-! ## Descriptors in texts -/

/-- Reads the kind of the outermost shape, which must be given by its name. -/
def readKind : Draft → Except ReadError Value
  | .string kind =>
    if kind ∈ kinds then .ok (.string kind)
    else .error (.shape (.unknownVariant kind kinds))
  | d => .error (d.misfit "variant identifier")

/-- Reads the members of a descriptor: the kind is looked at as soon as it comes, and everything
else is taken as it stands. -/
def readMembers (nesting : Nat) (seen : Bool) : List (Option String × Draft) → Ending →
    Except ReadError (List (String × Value))
  | [], ending => do
    ending.reach
    if seen then return [] else .error (.shape (.missingField "type"))
  | (none, _) :: _, _ => .error (.text .malformed)
  | (some name, d) :: rest, ending =>
    if name = "type" then
      if seen then .error (.shape (.duplicateField "type"))
      else do
        let kind ← readKind d
        return (name, kind) :: (← readMembers nesting true rest ending)
    else do
      let v ← readVerbatim nesting d
      return (name, v) :: (← readMembers nesting seen rest ending)

/-- Reads a descriptor up to its end, without interpreting it. -/
def readDescriptor : Reader Value
  | nesting, .object members ending => do
    let nesting ← enter nesting
    return .object (← readMembers nesting false members ending)
  | nesting, .array items ending => do
    let nesting ← enter nesting
    match items with
    | [] =>
      ending.reach
      .error (.shape (.missingField "type"))
    | kind :: rest =>
      let kind ← readKind kind
      return .array (kind :: (← readVerbatimItems nesting rest ending))
  | _, d => .error (d.misfit "internally tagged enum Schema")

/-- Reads a shape. -/
def read : Reader Schema := fun nesting d => do
  match ofValue (← readDescriptor nesting d) with
  | .ok s => return s
  | .error e => .error (.shape e)

end CatalogUi.Schema
