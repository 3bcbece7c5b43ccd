import CatalogUi.Catalog
import CatalogUi.Schema.Descriptor

/-!
Catalogs in documents. A definition maps names to component types and to actions; the order of the
names is the order of the catalog. What a component type or an action can leave out has a default
when it is read, and is always written.
-/

namespace CatalogUi

open Json

structure ComponentDefinition where
  props : Schema
  hasChildren : Bool

structure ActionDefinition where
  description : String
  params : Schema

structure CatalogDefinition where
  components : List (String × ComponentDefinition)
  actions : List (String × ActionDefinition)

/-! ## Reading -/

namespace ComponentDefinition

def format : RecordFormat (Option Schema × Option Bool) where
  expected := "struct ComponentDefinition"
  start := (none, none)
  field
    | (props, children), "props", nesting, d => do
      return (← readOnce "props" props Schema.read nesting d, children)
    | (props, children), "hasChildren", nesting, d => do
      return (props, ← readOnce "hasChildren" children readBool nesting d)
    | _, name, _, _ => refuseField name ["props", "hasChildren"]
  fields := ["props", "hasChildren"]
  required := 1

def read : Reader ComponentDefinition := fun nesting d => do
  let (props, children) ← format.read nesting d
  return ⟨← required "props" props, children.getD false⟩

end ComponentDefinition

namespace ActionDefinition

def format : RecordFormat (Option String × Option Schema) where
  expected := "struct ActionDefinition"
  start := (none, none)
  field
    | (description, params), "description", nesting, d => do
      return (← readOnce "description" description readString nesting d, params)
    | (description, params), "params", nesting, d => do
      return (description, ← readOnce "params" params Schema.read nesting d)
    | _, name, _, _ => refuseField name ["description", "params"]
  fields := ["description", "params"]
  required := 0

def read : Reader ActionDefinition := fun nesting d => do
  let (description, params) ← format.read nesting d
  return ⟨description.getD "", params.getD .emptyObject⟩

end ActionDefinition

namespace CatalogDefinition

def format : RecordFormat
    (Option (List (String × ComponentDefinition)) × Option (List (String × ActionDefinition))) where
  expected := "struct CatalogDefinition"
  start := (none, none)
  field
    | (components, actions), "components", nesting, d => do
      return (← readOnce "components" components (readMap ComponentDefinition.read) nesting d,
        actions)
    | (components, actions), "actions", nesting, d => do
      return (components,
        ← readOnce "actions" actions (readMap ActionDefinition.read) nesting d)
    | _, name, _, _ => refuseField name ["components", "actions"]
  fields := ["components", "actions"]
  required := 0

def read : Reader CatalogDefinition := fun nesting d => do
  let (components, actions) ← format.read nesting d
  return ⟨components.getD [], actions.getD []⟩

/-! ## Writing -/

def toValue (definition : CatalogDefinition) : Value :=
  .object [
    ("components", .object (definition.components.map fun (name, component) =>
      (name, .object [("props", component.props.toValue),
        ("hasChildren", .bool component.hasChildren)]))),
    ("actions", .object (definition.actions.map fun (name, action) =>
      (name, .object [("description", .string action.description),
        ("params", action.params.toValue)])))]

end CatalogDefinition

/-! ## Catalogs and definitions -/

/-- Why a document makes no catalog. -/
inductive CatalogReadError where
  | unreadable (error : ReadError)
  | rejected (error : CatalogError)

namespace Catalog

def toDefinition (c : Catalog) : CatalogDefinition where
  components := c.components.map fun spec => (spec.name, ⟨spec.props, spec.acceptsChildren⟩)
  actions := c.actions.map fun spec => (spec.name, ⟨spec.description, spec.params⟩)

def ofDefinition (definition : CatalogDefinition) : Except CatalogError Catalog :=
  create
    (definition.components.map fun (name, component) =>
      ⟨name, component.props, component.hasChildren⟩)
    (definition.actions.map fun (name, action) => ⟨name, action.description, action.params⟩)

/-- The definition document of a catalog, over several lines and with a line break at its end. -/
def dump (c : Catalog) : String :=
  c.toDefinition.toValue.pretty ++ "\n"

/-- Reads a definition document. -/
def ofText (text : String) : Except CatalogReadError Catalog :=
  match readText CatalogDefinition.read text with
  | .error e => .error (.unreadable e)
  | .ok definition =>
    match ofDefinition definition with
    | .error e => .error (.rejected e)
    | .ok c => .ok c

end Catalog

end CatalogUi
