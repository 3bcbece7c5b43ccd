import CatalogUi.Json.Draft
import CatalogUi.Path
import CatalogUi.Value

/-!
Reading typed content out of a JSON text. A reader goes through the draft in the order of the text
and stops at the first problem, be it a defect of the text or content that does not fit. Arrays and
objects may be nested 127 deep; what is only skipped may be nested deeper.
-/

namespace CatalogUi.Json

/-! ## Problems -/

/-- What was found in the place of something else. -/
inductive Found where
  | null
  | bool (b : Bool)
  | number (n : Number)
  | string (s : String)
  | sequence
  | map
  /-- A variant without content. -/
  | unitVariant

/-- How the content of a text can fail to fit. -/
inductive ShapeError where
  | invalidType (found : Found) (expected : String)
  | invalidValue (found : Found) (expected : String)
  | invalidLength (length : Nat) (expected : String)
  | missingField (name : String)
  | duplicateField (name : String)
  | unknownField (name : String) (known : List String)
  | unknownVariant (name : String) (known : List String)
  /-- A name that may be given only once stands for a second element. -/
  | repeatedElement (key : String)
  | badPath (error : BindingError)

inductive ReadError where
  | text (fault : Fault)
  | shape (error : ShapeError)

def Found.text : Found → String
  | .null => "null"
  | .bool b => "boolean `" ++ toString b ++ "`"
  | .number (.int n) => "integer `" ++ toString n ++ "`"
  | .number (.double d) =>
    "floating point `" ++ String.ofList (NumeralStyle.document.text d) ++ "`"
  | .string s => "string " ++ Text.quoted s
  | .sequence => "sequence"
  | .map => "map"
  | .unitVariant => "unit variant"

/-- The names that would have been right. -/
def expectedNames (known : List String) : String :=
  let ticked (name : String) : String := "`" ++ name ++ "`"
  match known with
  | [a] => "expected " ++ ticked a
  | [a, b] => "expected " ++ ticked a ++ " or " ++ ticked b
  | known => "expected one of " ++ ", ".intercalate (known.map ticked)

def ShapeError.message : ShapeError → String
  | .invalidType found expected => "invalid type: " ++ found.text ++ ", expected " ++ expected
  | .invalidValue found expected => "invalid value: " ++ found.text ++ ", expected " ++ expected
  | .invalidLength length expected =>
    "invalid length " ++ toString length ++ ", expected " ++ expected
  | .missingField name => "missing field `" ++ name ++ "`"
  | .duplicateField name => "duplicate field `" ++ name ++ "`"
  | .unknownField name known => "unknown field `" ++ name ++ "`, " ++ expectedNames known
  | .unknownVariant name known => "unknown variant `" ++ name ++ "`, " ++ expectedNames known
  | .repeatedElement key => "duplicate element key '" ++ key ++ "'"
  | .badPath error => error.message

def ReadError.message : ReadError → String
  | .text .malformed => "the text is malformed"
  | .text .truncated => "the text ends too early"
  | .shape error => error.message

/-- A reader of type `α` takes what is found and how deep arrays and objects may still be nested
there. -/
abbrev Reader (α : Type) := Nat → Draft → Except ReadError α

def maxNesting : Nat := 127

/-- A container may be entered while the nesting allows it. -/
def enter (nesting : Nat) : Except ReadError Nat :=
  match nesting with
  | 0 => .error (.text .malformed)
  | n + 1 => .ok n

/-- A reader for something else meets this draft. Scalars are read first, and may be defective. -/
def Draft.misfit (expected : String) : Draft → ReadError
  | .null => .shape (.invalidType .null expected)
  | .bool b => .shape (.invalidType (.bool b) expected)
  | .number n => .shape (.invalidType (.number n) expected)
  | .string s => .shape (.invalidType (.string s) expected)
  | .hugeNumber | .unpairedString => .text .malformed
  | .broken defect | .brokenNull defect | .brokenScalar defect => .text defect.strict
  | .array _ _ => .shape (.invalidType .sequence expected)
  | .object _ _ => .shape (.invalidType .map expected)

/-- Where a reader expects one more item or member, or the end. -/
def Ending.reach (ending : Ending) : Except ReadError Unit :=
  match ending with
  | .closed => .ok ()
  | .cut defect => .error (.text defect.strict)
  | .afterComma defect => .error (.text defect.strict)

/-- Where a reader expects the end and nothing else. -/
def Ending.close (ending : Ending) : Except ReadError Unit :=
  match ending with
  | .closed => .ok ()
  | .cut defect => .error (.text defect.strict)
  | .afterComma _ => .error (.text .malformed)

/-! ## Scalars -/

def readString : Reader String
  | _, .string s => .ok s
  | _, d => .error (d.misfit "a string")

def readBool : Reader Bool
  | _, .bool b => .ok b
  | _, d => .error (d.misfit "a boolean")

/-- Reads a whole number from zero up to the largest of 64 bits. -/
def readCount : Reader Nat
  | _, .number (.int n) =>
    if n < 0 then .error (.shape (.invalidValue (.number (.int n)) "usize")) else .ok n.toNat
  | _, d => .error (d.misfit "usize")

/-- Null stands for absence. -/
def readOptional {α : Type} (read : Reader α) : Reader (Option α)
  | _, .null => .ok none
  | _, .brokenNull defect => .error (.text defect.strict)
  | nesting, d => (read nesting d).map some

/-! ## Skipping -/

mutual

/-- Goes through a draft whose content does not matter. -/
def skip : Draft → Except ReadError Unit
  | .broken defect | .brokenNull defect | .brokenScalar defect => .error (.text defect.skipped)
  | .array items ending => skipItems items ending
  | .object members ending => skipMembers members ending
  | _ => .ok ()

def skipItems : List Draft → Ending → Except ReadError Unit
  | [], ending => skipEnding ending
  | d :: rest, ending => do
    skip d
    skipItems rest ending

def skipMembers : List (Option String × Draft) → Ending → Except ReadError Unit
  | [], ending => skipEnding ending
  | (_, d) :: rest, ending => do
    skip d
    skipMembers rest ending

def skipEnding : Ending → Except ReadError Unit
  | .closed => .ok ()
  | .cut defect => .error (.text defect.skipped)
  | .afterComma defect => .error (.text defect.skipped)

end

/-! ## Values -/

mutual

/-- Reads any value, with repeated fields as they stand. -/
def readVerbatim (nesting : Nat) : Draft → Except ReadError Value
  | .null => .ok .null
  | .bool b => .ok (.bool b)
  | .number n => .ok (.number n)
  | .string s => .ok (.string s)
  | .hugeNumber | .unpairedString => .error (.text .malformed)
  | .broken defect | .brokenNull defect | .brokenScalar defect => .error (.text defect.strict)
  | .array items ending => do
    let nesting ← enter nesting
    return .array (← readVerbatimItems nesting items ending)
  | .object members ending => do
    let nesting ← enter nesting
    return .object (← readVerbatimMembers nesting members ending)

def readVerbatimItems (nesting : Nat) : List Draft → Ending → Except ReadError (List Value)
  | [], ending => do
    ending.reach
    return []
  | d :: rest, ending => do
    let v ← readVerbatim nesting d
    return v :: (← readVerbatimItems nesting rest ending)

def readVerbatimMembers (nesting : Nat) : List (Option String × Draft) → Ending →
    Except ReadError (List (String × Value))
  | [], ending => do
    ending.reach
    return []
  | (none, _) :: _, _ => .error (.text .malformed)
  | (some name, d) :: rest, ending => do
    let v ← readVerbatim nesting d
    return (name, v) :: (← readVerbatimMembers nesting rest ending)

end

/-- Reads any value. A repeated field has its last value. -/
def readValue : Reader Value := fun nesting d =>
  (readVerbatim nesting d).map Value.merged

/-! ## Sequences and maps -/

/-- Reads items one after the other. -/
def readItems {α : Type} (read : Reader α) (nesting : Nat) : List Draft → Ending →
    Except ReadError (List α)
  | [], ending => do
    ending.reach
    return []
  | d :: rest, ending => do
    let item ← read nesting d
    return item :: (← readItems read nesting rest ending)

def readList {α : Type} (read : Reader α) : Reader (List α)
  | nesting, .array items ending => do
    let nesting ← enter nesting
    readItems read nesting items ending
  | _, d => .error (d.misfit "a sequence")

/-- Reads members one after the other, with repeated names as they stand. -/
def readPairs {α : Type} (read : Reader α) (nesting : Nat) : List (Option String × Draft) →
    Ending → Except ReadError (List (String × α))
  | [], ending => do
    ending.reach
    return []
  | (none, _) :: _, _ => .error (.text .malformed)
  | (some name, d) :: rest, ending => do
    let v ← read nesting d
    return (name, v) :: (← readPairs read nesting rest ending)

/-- Reads a map in which the last value of a name counts, at its first place. -/
def readMap {α : Type} (read : Reader α) : Reader (List (String × α))
  | nesting, .object members ending => do
    let nesting ← enter nesting
    return Entries.ofPairs (← readPairs read nesting members ending)
  | _, d => .error (d.misfit "a map")

/-! ## Records -/

/-- A record can be written as an object, field by field in any order, or as an array of its fields
in order. -/
structure RecordFormat (ρ : Type) where
  /-- What a reader expects here, in words. -/
  expected : String
  /-- The record before any field was read. -/
  start : ρ
  /-- Reads the content of a named field into the record. -/
  field : ρ → String → Nat → Draft → Except ReadError ρ
  /-- The fields in the order of the array form. -/
  fields : List String
  /-- How many leading fields the array form cannot leave out. -/
  required : Nat

/-- Reads a field that may be given only once. -/
def readOnce {α : Type} (name : String) (slot : Option α) (read : Reader α) (nesting : Nat)
    (d : Draft) : Except ReadError (Option α) :=
  if slot.isSome then .error (.shape (.duplicateField name)) else (read nesting d).map some

/-- The field must have been given. -/
def required {α : Type} (name : String) : Option α → Except ReadError α
  | some v => .ok v
  | none => .error (.shape (.missingField name))

/-- Skips the content of a field that the record does not have. -/
def skipField {ρ : Type} (record : ρ) (d : Draft) : Except ReadError ρ := do
  skip d
  return record

def refuseField {ρ : Type} (name : String) (known : List String) : Except ReadError ρ :=
  .error (.shape (.unknownField name known))

namespace RecordFormat

variable {ρ : Type}

/-- How an array form of the right length is described. -/
def lengthText (format : RecordFormat ρ) : String :=
  let count := format.fields.length
  format.expected ++ " with " ++ toString count ++ (if count = 1 then " element" else " elements")

def readMembers (format : RecordFormat ρ) (nesting : Nat) (record : ρ) :
    List (Option String × Draft) → Ending → Except ReadError ρ
  | [], ending => do
    ending.reach
    return record
  | (none, _) :: _, _ => .error (.text .malformed)
  | (some name, d) :: rest, ending => do
    let record ← format.field record name nesting d
    format.readMembers nesting record rest ending

/-- Reads fields in order. Past the required ones the array may end. -/
def readInOrder (format : RecordFormat ρ) (nesting : Nat) (position : Nat) (record : ρ) :
    List String → List Draft → Ending → Except ReadError ρ
  | [], [], ending => do
    ending.close
    return record
  | [], _ :: _, _ => .error (.text .malformed)
  | _ :: _, [], ending => do
    ending.reach
    if position < format.required then
      .error (.shape (.invalidLength position format.lengthText))
    else return record
  | name :: names, d :: rest, ending => do
    let record ← format.field record name nesting d
    format.readInOrder nesting (position + 1) record names rest ending

def read (format : RecordFormat ρ) : Reader ρ
  | nesting, .object members ending => do
    let nesting ← enter nesting
    format.readMembers nesting format.start members ending
  | nesting, .array items ending => do
    let nesting ← enter nesting
    format.readInOrder nesting 0 format.start format.fields items ending
  | _, d => .error (d.misfit format.expected)

end RecordFormat

/-! ## Choices -/

/-- A choice is an object with one member, whose name says which of several alternatives it is.
Without a name there is no choice. -/
def noChoice {α : Type} (ending : Ending) : Except ReadError α := do
  ending.reach
  .error (.text .malformed)

/-- Nothing may follow the one member of a choice. -/
def endChoice (more : List (Option String × Draft)) (ending : Ending) : Except ReadError Unit :=
  if more.isEmpty then ending.close else .error (.text .malformed)

/-- Any other draft in the place of a choice is a defect of the text. -/
def notAChoice {α : Type} : Draft → Except ReadError α
  | .broken defect => .error (.text defect.strict)
  | _ => .error (.text .malformed)

/-! ## Paths -/

/-- Reads a string that is a binding path. -/
def readPath : Reader Path := fun nesting d => do
  match Path.parse (← readString nesting d) with
  | .ok path => return path
  | .error e => .error (.shape (.badPath e))

/-! ## Texts -/

/-- Reads a whole text. Nothing may follow the value. -/
def readText {α : Type} (read : Reader α) (text : String) : Except ReadError α := do
  let document := Document.ofText text
  let content ← read maxNesting document.body
  if document.trailing then .error (.text .malformed) else return content

end CatalogUi.Json
