import CatalogUi.Json.Reading

/-!
Limits and policies of the engine. Every field of a configuration document can be left out, and no
limit may be zero.
-/

namespace CatalogUi

open Json

/-- What happens when the registered renderers and the catalog do not match. -/
inductive RegistryMode where
  | strict
  /-- Placeholders stand in for missing renderers, and mismatches are reported as warnings. -/
  | lenient
deriving DecidableEq

structure Config where
  maxNodes : Nat
  maxConditionDepth : Nat
  registryMode : RegistryMode
  rejectUnknownProps : Bool
deriving DecidableEq

/-- Why a document makes no configuration. -/
inductive ConfigError where
  | unreadable (error : ReadError)
  /-- The named limit is zero. -/
  | zeroLimit (name : String)

def ConfigError.message : ConfigError → String
  | .unreadable error => "invalid configuration: " ++ error.message
  | .zeroLimit name => name ++ " must be at least 1"

namespace RegistryMode

def name : RegistryMode → String
  | .strict => "strict"
  | .lenient => "lenient"

def ofName : String → Except ReadError RegistryMode
  | "strict" => .ok .strict
  | "lenient" => .ok .lenient
  | name => .error (.shape (.unknownVariant name ["strict", "lenient"]))

/-- A mode is its name, or an object in which null stands under the name. -/
def read : Reader RegistryMode
  | _, .string name => ofName name
  | nesting, .object members ending => do
    let _ ← enter nesting
    match members with
    | [] => noChoice ending
    | (none, _) :: _ => .error (.text .malformed)
    | (some name, d) :: more =>
      let mode ← ofName name
      match d with
      | .null =>
        endChoice more ending
        return mode
      | d => .error (d.misfit "unit")
  | _, d => notAChoice d

end RegistryMode

namespace Config

def default : Config := ⟨500, 16, .strict, true⟩

def fieldNames : List String :=
  ["maxNodes", "maxConditionDepth", "registryMode", "rejectUnknownProps"]

/-- The fields that a document gives. -/
structure Given where
  maxNodes : Option Nat
  maxConditionDepth : Option Nat
  registryMode : Option RegistryMode
  rejectUnknownProps : Option Bool

def format : RecordFormat Given where
  expected := "struct EngineConfig"
  start := ⟨none, none, none, none⟩
  field
    | given, "maxNodes", nesting, d => do
      return { given with maxNodes := ← readOnce "maxNodes" given.maxNodes readCount nesting d }
    | given, "maxConditionDepth", nesting, d => do
      return { given with
        maxConditionDepth :=
          ← readOnce "maxConditionDepth" given.maxConditionDepth readCount nesting d }
    | given, "registryMode", nesting, d => do
      return { given with
        registryMode := ← readOnce "registryMode" given.registryMode RegistryMode.read nesting d }
    | given, "rejectUnknownProps", nesting, d => do
      return { given with
        rejectUnknownProps :=
          ← readOnce "rejectUnknownProps" given.rejectUnknownProps readBool nesting d }
    | _, name, _, _ => refuseField name fieldNames
  fields := fieldNames
  required := 0

def read : Reader Config := fun nesting d => do
  let given ← format.read nesting d
  return {
    maxNodes := given.maxNodes.getD default.maxNodes
    maxConditionDepth := given.maxConditionDepth.getD default.maxConditionDepth
    registryMode := given.registryMode.getD default.registryMode
    rejectUnknownProps := given.rejectUnknownProps.getD default.rejectUnknownProps }

/-- Reads a configuration document. -/
def ofText (text : String) : Except ConfigError Config :=
  match readText read text with
  | .error e => .error (.unreadable e)
  | .ok config =>
    if config.maxNodes = 0 then .error (.zeroLimit "maxNodes")
    else if config.maxConditionDepth = 0 then .error (.zeroLimit "maxConditionDepth")
    else .ok config

def toValue (config : Config) : Value :=
  .object [
    ("maxNodes", .number (.int config.maxNodes)),
    ("maxConditionDepth", .number (.int config.maxConditionDepth)),
    ("registryMode", .string config.registryMode.name),
    ("rejectUnknownProps", .bool config.rejectUnknownProps)]

end Config

end CatalogUi
