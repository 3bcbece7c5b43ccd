import CatalogUi.Validation

/-!
What a renderer sees of a node: its props, and for every prop that addresses the data store the
value that is stored there now.
-/

namespace CatalogUi

/-- A prop that addresses the data store, with the value behind it. -/
structure BoundValue where
  prop : String
  path : Path
  /-- Nothing when nothing is stored at the path. -/
  value : Option Value

structure View where
  key : String
  type : String
  kind : ComponentKind
  props : List (String × Value)
  bindings : List BoundValue

/-- Makes the output of a node from what it sees and from the outputs of its children. -/
abbrev Renderer (O : Type) := View → List O → O

namespace View

def prop? (v : View) (name : String) : Option Value := Entries.get? v.props name

def propString? (v : View) (name : String) : Option String :=
  (v.prop? name).bind Value.asString?

/-- The stored value behind a prop. -/
def bound? (v : View) (name : String) : Option Value :=
  (v.bindings.find? (·.prop = name)).bind (·.value)

end View

namespace Node

/-- Reads the store for every binding of a node. -/
def readBindings (n : Node) (data : Value) : List BoundValue :=
  n.bindings.map fun binding => ⟨binding.1, binding.2, data.read? binding.2⟩

/-- The view of a node that stands under a key. -/
def view (n : Node) (key : String) (data : Value) : View :=
  ⟨key, n.type, n.kind, n.props, n.readBindings data⟩

end Node

end CatalogUi
