import CatalogUi.Catalog.Definition
import CatalogUi.Config

/-!
The text that tells a generator of trees what a catalog offers. It depends only on the catalog and
on the limit it states, and goes through everything in the order of definition.
-/

namespace CatalogUi

namespace Prompt

def lines (items : List String) : String :=
  String.join (items.map (· ++ "\n"))

def intro : String :=
  lines [
    "# UI Component Catalog",
    "",
    "Describe the user interface as a JSON UI tree. Use only the component types",
    "and actions listed below; anything else is rejected before rendering.",
    ""]

def treeFormat : String :=
  lines [
    "## Tree Format",
    "",
    "\x7b",
    "  \"root\": \"<key of the root element>\",",
    "  \"elements\": \x7b",
    "    \"<key>\": \x7b",
    "      \"key\": \"<same key>\",",
    "      \"type\": \"<component type>\",",
    "      \"props\": \x7b ... \x7d,",
    "      \"children\": [\"<child key>\", ...],",
    "      \"parentKey\": \"<parent key or null>\"",
    "    \x7d",
    "  \x7d",
    "\x7d",
    ""]

def rules (maxNodes : Nat) : String :=
  lines [
    "Rules:",
    "- Keys are unique. Every element is reachable from the root exactly once.",
    "- \"children\" lists child keys in display order; each child's \"parentKey\" names the " ++
      "element listing it.",
    "- The root's \"parentKey\" is null.",
    "- Only component types that accept children may list children.",
    "- At most " ++ toString maxNodes ++ " elements per tree.",
    ""]

def visibility : String :=
  lines [
    "## Visibility",
    "",
    "An element may carry a \"visible\" condition over the session data. When it is",
    "false the element and its children are not shown. Conditions:",
    "- \x7b\"exists\": \x7b\"path\": \"/a/b\"\x7d\x7d",
    "- \x7b\"equals\": \x7b\"path\": \"/a/b\", \"value\": <json>\x7d\x7d",
    "- \x7b\"not_equals\": \x7b\"path\": \"/a/b\", \"value\": <json>\x7d\x7d",
    "- \x7b\"not\": <condition>\x7d, \x7b\"all\": [<condition>, ...]\x7d, " ++
      "\x7b\"any\": [<condition>, ...]\x7d",
    ""]

/-- One declared field: its shape, whether it may be absent, and its default if it has one. -/
def fieldLine (name : String) (s : Schema) : String :=
  "- " ++ name ++ ": " ++ s.describe ++ " (" ++
    (if s.isOptional then "optional" else "required") ++
    (match s.default? with
      | some v => ", default " ++ v.compact
      | none => "") ++
    ")\n"

/-- The fields of an object shape, one in a line, or any other shape in words. -/
def fields (title : String) (s : Schema) : String :=
  match s with
  | .object [] => title ++ ": none\n"
  | .object declared =>
    title ++ ":\n" ++ String.join (declared.map fun (name, s) => fieldLine name s)
  | s => title ++ ": " ++ s.describe ++ "\n"

def component (spec : ComponentSpec) : String :=
  "### " ++ spec.name ++ "\n" ++
    "Accepts children: " ++ (if spec.acceptsChildren then "yes" else "no") ++ "\n" ++
    fields "Props" spec.props ++ "\n"

/-- An action. An empty description is left out. -/
def action (spec : ActionSpec) : String :=
  "### " ++ spec.name ++ "\n" ++
    (if spec.description = "" then "" else "Description: " ++ spec.description ++ "\n") ++
    fields "Params" spec.params ++ "\n"

def components (specs : List ComponentSpec) : String :=
  "## Components (" ++ toString specs.length ++ ")\n\n" ++ String.join (specs.map component)

def actions (specs : List ActionSpec) : String :=
  "## Actions (" ++ toString specs.length ++ ")\n\n" ++
    if specs.isEmpty then "No actions are available.\n"
    else
      "Trigger an action by giving an element an \"action\" prop naming it.\n\n" ++
        String.join (specs.map action)

end Prompt

/-- The text for a catalog, stating how many elements a tree may have. -/
def Catalog.prompt (c : Catalog) (maxNodes : Nat) : String :=
  Prompt.intro ++ Prompt.treeFormat ++ Prompt.rules maxNodes ++ Prompt.visibility ++
    Prompt.components c.components ++ Prompt.actions c.actions

/-- What a generator of trees is given: the text, and the catalog as a document. -/
structure Grounding where
  text : String
  catalogDocument : String
deriving DecidableEq

/-- Everything a generator needs to know about a catalog and the limits of a configuration. -/
def Catalog.ground (c : Catalog) (config : Config) : Grounding :=
  ⟨c.prompt config.maxNodes, c.dump⟩

end CatalogUi
