import CatalogUi.Schema.Check

/-!
Catalogs: the component types and actions that a tree may use, in the order of their definition. A
catalog is made once, from definitions without defects; the place of a component type in it is the
kind of that type.
-/

namespace CatalogUi

structure ComponentSpec where
  name : String
  /-- The shape of an element's props, which is an object shape. -/
  props : Schema
  acceptsChildren : Bool

/-- The props that address the data store, in the order of their declaration. -/
def ComponentSpec.bindingProps (spec : ComponentSpec) : List String :=
  Entries.names ((spec.props.fields?.getD []).filter fun entry => entry.2.isBinding)

structure ActionSpec where
  name : String
  description : String
  params : Schema

/-- The place of a component type in its catalog. -/
structure ComponentKind where
  index : Nat
deriving DecidableEq

structure Catalog where
  components : List ComponentSpec
  actions : List ActionSpec

/-- Why definitions make no catalog. -/
inductive CatalogError where
  | duplicateComponent (name : String)
  | duplicateAction (name : String)
  | propsNotObject (name : String)
  /-- A shape of the named component or action has a defect at a place. -/
  | defectiveShape (owner : String) (place : Place) (defect : Schema.Defect)

def CatalogError.message : CatalogError → String
  | .duplicateComponent name => "component type '" ++ name ++ "' is defined more than once"
  | .duplicateAction name => "action '" ++ name ++ "' is defined more than once"
  | .propsNotObject name => "props schema of component '" ++ name ++ "' must be an object"
  | .defectiveShape owner place defect =>
    "'" ++ owner ++ "' field '" ++ place.text ++ "': " ++
      match defect with
      | .emptyEnum => "enum has no values"
      | .invalidBounds min max =>
        "min " ++ Schema.boundText min ++ " is greater than max " ++ Schema.boundText max
      | .invalidDefault errors =>
        "default does not satisfy its schema (" ++ SchemaError.joined errors ++ ")"

/-- Why props do not fit. -/
inductive PropsError where
  | unknownComponent (name : String)
  | invalid (errors : List SchemaError)

def PropsError.message : PropsError → String
  | .unknownComponent name => "component type '" ++ name ++ "' is not in the catalog"
  | .invalid errors =>
    toString errors.length ++ " prop error(s): " ++ SchemaError.joined errors

namespace Catalog

/-- Looks for a defect of a shape, on behalf of a component or an action. -/
def checkShape (owner : String) (s : Schema) : Except CatalogError Unit :=
  match s.lint [] with
  | .ok () => .ok ()
  | .error (place, defect) => .error (.defectiveShape owner place defect)

/-- Looks for the first mistake among component types, given the names in front of them. -/
def checkComponents (earlier : List String) : List ComponentSpec → Except CatalogError Unit
  | [] => .ok ()
  | spec :: rest =>
    if spec.props.fields?.isNone then .error (.propsNotObject spec.name)
    else do
      checkShape spec.name spec.props
      if spec.name ∈ earlier then .error (.duplicateComponent spec.name)
      else checkComponents (spec.name :: earlier) rest

/-- Looks for the first mistake among actions, given the names in front of them. -/
def checkActions (earlier : List String) : List ActionSpec → Except CatalogError Unit
  | [] => .ok ()
  | spec :: rest => do
    checkShape spec.name spec.params
    if spec.name ∈ earlier then .error (.duplicateAction spec.name)
    else checkActions (spec.name :: earlier) rest

/-- Makes a catalog, or gives the first mistake of the definitions. -/
def create (components : List ComponentSpec) (actions : List ActionSpec) :
    Except CatalogError Catalog := do
  checkComponents [] components
  checkActions [] actions
  return ⟨components, actions⟩

def component? (c : Catalog) (name : String) : Option ComponentSpec :=
  c.components.find? (·.name = name)

def kind? (c : Catalog) (name : String) : Option ComponentKind :=
  (c.components.findIdx? (·.name = name)).map ComponentKind.mk

def componentOfKind? (c : Catalog) (kind : ComponentKind) : Option ComponentSpec :=
  c.components[kind.index]?

def action? (c : Catalog) (name : String) : Option ActionSpec :=
  c.actions.find? (·.name = name)

/-- Checks the props of an element of the given type, and gives them with defaults filled in. -/
def validateProps (c : Catalog) (strict : Bool) (type : String) (props : Value) :
    Except PropsError (List (String × Value)) :=
  match c.component? type with
  | none => .error (.unknownComponent type)
  | some spec =>
    match spec.props.validate strict (some props) with
    | .ok (.object fields) => .ok fields
    | .ok _ => .ok []
    | .error errors => .error (.invalid errors)

end Catalog

/-! ## Equality -/

def ComponentSpec.same (a b : ComponentSpec) : Bool :=
  a.name = b.name && a.props.same b.props && a.acceptsChildren = b.acceptsChildren

def ActionSpec.same (a b : ActionSpec) : Bool :=
  a.name = b.name && a.description = b.description && a.params.same b.params

/-- Equality of catalogs. Components and actions are looked up by their names, so that their order
does not count. -/
def Catalog.same (c d : Catalog) : Bool :=
  c.components.length = d.components.length &&
    (c.components.all fun spec => (d.component? spec.name).any spec.same) &&
    c.actions.length = d.actions.length &&
    c.actions.all fun spec => (d.action? spec.name).any spec.same

end CatalogUi
