import CatalogUi.Catalog
import CatalogUi.Config
import CatalogUi.Validation.Finding
import CatalogUi.Validation.Walk

/-!
Validation of a received tree against a catalog. A tree without findings becomes a validated tree,
whose nodes stand in depth-first order; otherwise all findings are reported: first elements whose
keys differ, then the root, then everything that is met on the walk from the root, and at last the
elements that the root does not reach.
-/

namespace CatalogUi

/-- An element without findings. -/
structure Node where
  key : String
  type : String
  kind : ComponentKind
  /-- The props with defaults filled in. -/
  props : List (String × Value)
  children : List String
  parent : Option String
  visibility : Option Visibility
  /-- The props that address the data store, in the order of their declaration. -/
  bindings : List (String × Path)
  /-- The action that the element names. -/
  action : Option String

/-- Whether the condition of a node holds, on its own. -/
def Node.isVisible (n : Node) (data : Value) : Bool :=
  match n.visibility with
  | some v => v.evaluate data
  | none => true

/-- The nodes of a tree under their keys, in depth-first order. -/
structure ValidatedTree where
  root : String
  nodes : List (String × Node)

namespace ValidatedTree

def node? (t : ValidatedTree) (key : String) : Option Node := Entries.get? t.nodes key

/-- The node at the root, which is the first one. -/
def rootNode? (t : ValidatedTree) : Option Node := t.nodes.head?.map (·.2)

def keys (t : ValidatedTree) : List String := Entries.names t.nodes

/-- The node under a key, followed by its ancestors among the given nodes. -/
def lineageAmong (nodes : List (String × Node)) (key : String) : List Node :=
  match _ : Entries.get? nodes key with
  | none => []
  | some node =>
    node :: match node.parent with
      | none => []
      | some parent => lineageAmong (Entries.erase nodes key) parent
termination_by nodes.length
decreasing_by exact Entries.length_erase_lt ‹_›

/-- The node under a key, followed by its ancestors up to the root. -/
def lineage (t : ValidatedTree) (key : String) : List Node := lineageAmong t.nodes key

end ValidatedTree

namespace Validation

variable (catalog : Catalog) (config : Config)

/-! ## Single elements -/

/-- The findings about a condition. -/
def conditionFindings (key : String) (issues : List ConditionIssue) : List Finding :=
  issues.map fun
    | .binding error => .binding key error
    | .tooDeep => .structural (.conditionTooDeep key config.maxConditionDepth)

/-- The compiled condition of an element, if it has one. -/
def checkCondition (e : Element) : Except (List Finding) (Option Visibility) :=
  match e.visible with
  | none => .ok none
  | some c =>
    match c.compile config.maxConditionDepth with
    | .ok v => .ok (some v)
    | .error issues => .error (conditionFindings config e.key issues)

/-- Children are for types that accept them. -/
def childrenFindings (spec : ComponentSpec) (e : Element) : List Finding :=
  if !spec.acceptsChildren && !e.children.isEmpty then
    [.structural (.childrenNotAllowed e.key e.type e.children.length)]
  else []

/-- The props of an element with defaults filled in, if they fit its type. That there is no such
type is not a finding about the props. -/
def checkProps (e : Element) : Except (List Finding) (List (String × Value)) :=
  match catalog.validateProps config.rejectUnknownProps e.type e.props with
  | .ok props => .ok props
  | .error (.invalid errors) => .error (errors.map (.props e.key))
  | .error (.unknownComponent _) => .error []

/-- The paths under which binding props address the data store. -/
def bindingsOf (spec : ComponentSpec) (props : List (String × Value)) : List (String × Path) :=
  spec.bindingProps.filterMap fun name =>
    match Entries.get? props name with
    | some (.string text) =>
      match Path.parse text with
      | .ok p => some (name, p)
      | .error _ => none
    | _ => none

/-- The node of an element, once its parts are checked. -/
def nodeOf (e : Element) (kind : ComponentKind) (spec : ComponentSpec)
    (props : List (String × Value)) (visibility : Option Visibility) : Node where
  key := e.key
  type := e.type
  kind := kind
  props := props
  children := e.children
  parent := e.parentKey
  visibility := visibility
  bindings := bindingsOf spec props
  action := (Entries.get? props "action").bind Value.asString?

/-- The node that an element makes on its own, or all findings about the element. Nothing else is
looked at when its type is unknown. -/
def checkElement (e : Element) : Except (List Finding) Node :=
  match catalog.kind? e.type with
  | none => .error [.structural (.unknownType e.key e.type)]
  | some kind =>
    match catalog.componentOfKind? kind with
    | none => .error []
    | some spec =>
      let children := childrenFindings spec e
      match checkProps catalog config e, checkCondition config e with
      | .ok props, .ok visibility =>
        if children.isEmpty then .ok (nodeOf e kind spec props visibility) else .error children
      | .error props, .ok _ => .error (props ++ children)
      | .ok _, .error condition => .error (children ++ condition)
      | .error props, .error condition => .error (props ++ children ++ condition)

/-- The findings about an element on its own. -/
def elementFindings (e : Element) : List Finding :=
  match checkElement catalog config e with
  | .ok _ => []
  | .error findings => findings

/-! ## Whole trees -/

/-- Every element must stand under the key that it declares. -/
def keyFindings (t : Tree) : List Finding :=
  t.elements.filterMap fun entry =>
    if entry.2.key = entry.1 then none
    else some (.structural (.keyMismatch entry.1 entry.2.key))

/-- The root must not have a parent. -/
def rootFindings (t : Tree) (root : Element) : List Finding :=
  match root.parentKey with
  | some parent => [.structural (.rootHasParent t.root parent)]
  | none => []

/-- An element must declare the parent that lists it. -/
def parentFindings (parent : Option String) (key : String) (e : Element) : List Finding :=
  match parent with
  | some lister =>
    if e.parentKey = some lister then []
    else [.structural (.parentMismatch lister key e.parentKey)]
  | none => []

/-- The findings at one visit on the walk from the root. -/
def reachedFindings (t : Tree) : Walk.Visit → List Finding
  | .cycle parent key => [.structural (.cycle (parent.getD "") key)]
  | .again parent key => [.structural (.sharedChild (parent.getD "") key)]
  | .missing parent key => [.structural (.missingChild (parent.getD "") key)]
  | .first parent key =>
    match t.element? key with
    | none => []
    | some e => parentFindings parent key e ++ elementFindings catalog config e

/-- The findings at one visit among elements that the root does not reach. -/
def detachedFindings : Walk.Visit → List Finding
  | .first _ key => [.structural (.orphan key)]
  | .cycle parent key => [.structural (.cycle (parent.getD "") key)]
  | .again _ _ => []
  | .missing _ _ => []

/-- The node at a visit, if the visit is the first one and there is nothing wrong with the
element. -/
def nodeAt (t : Tree) : Walk.Visit → Option (String × Node)
  | .first _ key =>
    match t.element? key with
    | none => none
    | some e =>
      match checkElement catalog config e with
      | .ok node => some (key, node)
      | .error _ => none
  | _ => none

/-- All findings about a tree whose walks are known. -/
def findings (t : Tree) (survey : Walk.Survey) : List Finding :=
  if config.maxNodes < t.elements.length then
    [.structural (.nodeCountExceeded t.elements.length config.maxNodes)]
  else
    keyFindings t ++
      match t.element? t.root with
      | none => [.structural (.missingRoot t.root)]
      | some root =>
        rootFindings t root ++ survey.reached.flatMap (reachedFindings catalog config t) ++
          survey.detached.flatMap detachedFindings

end Validation

/-- Validates a tree. -/
def Tree.validate (t : Tree) (catalog : Catalog) (config : Config) :
    Except Report ValidatedTree :=
  let survey := Walk.survey t.links t.root
  match Validation.findings catalog config t survey with
  | [] => .ok ⟨t.root, survey.reached.filterMap (Validation.nodeAt catalog config t)⟩
  | findings => .error ⟨findings⟩

end CatalogUi
