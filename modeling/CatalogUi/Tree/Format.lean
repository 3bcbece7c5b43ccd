import CatalogUi.Condition.Format
import CatalogUi.Tree
import CatalogUi.Value.Printer

/-!
Trees in documents. The elements of a tree keep their order, and no key may stand twice. Fields that
an element does not have are skipped.
-/

namespace CatalogUi

open Json

namespace Element

/-- The fields that a document gives. -/
structure Given where
  key : Option String
  type : Option String
  props : Option Value
  children : Option (List String)
  parentKey : Option (Option String)
  visible : Option (Option Condition)

def format : RecordFormat Given where
  expected := "struct ElementNode"
  start := ⟨none, none, none, none, none, none⟩
  field
    | given, "key", nesting, d => do
      return { given with key := ← readOnce "key" given.key readString nesting d }
    | given, "type", nesting, d => do
      return { given with type := ← readOnce "type" given.type readString nesting d }
    | given, "props", nesting, d => do
      return { given with props := ← readOnce "props" given.props readValue nesting d }
    | given, "children", nesting, d => do
      return { given with
        children := ← readOnce "children" given.children (readList readString) nesting d }
    | given, "parentKey", nesting, d => do
      return { given with
        parentKey := ← readOnce "parentKey" given.parentKey (readOptional readString) nesting d }
    | given, "visible", nesting, d => do
      return { given with
        visible := ← readOnce "visible" given.visible (readOptional Condition.read) nesting d }
    | given, _, _, d => skipField given d
  fields := ["key", "type", "props", "children", "parentKey", "visible"]
  required := 2

/-- Reads an element. Props that are missing are an empty object. -/
def read : Reader Element := fun nesting d => do
  let given ← format.read nesting d
  return {
    key := ← required "key" given.key
    type := ← required "type" given.type
    props := given.props.getD .emptyObject
    children := given.children.getD []
    parentKey := given.parentKey.join
    visible := given.visible.join }

/-- Children are left out when there are none, and a condition when there is none. -/
def toValue (e : Element) : Value :=
  .object (
    [("key", .string e.key), ("type", .string e.type), ("props", e.props)] ++
    (if e.children.isEmpty then [] else [("children", .array (e.children.map .string))]) ++
    [("parentKey", match e.parentKey with
      | some parent => .string parent
      | none => .null)] ++
    e.visible.toList.map fun c => ("visible", c.toValue))

end Element

namespace Tree

/-- Reads elements one after the other. A repeated key is noticed behind its second element. -/
def readMembers (nesting : Nat) (earlier : List String) : List (Option String × Draft) →
    Ending → Except ReadError (List (String × Element))
  | [], ending => do
    ending.reach
    return []
  | (none, _) :: _, _ => .error (.text .malformed)
  | (some key, d) :: rest, ending => do
    let e ← Element.read nesting d
    if key ∈ earlier then .error (.shape (.repeatedElement key))
    else return (key, e) :: (← readMembers nesting (key :: earlier) rest ending)

/-- Elements that were read stand under different keys, and under none of the earlier ones. -/
theorem readMembers_distinct {nesting : Nat} {earlier : List String}
    {members : List (Option String × Draft)} {ending : Ending}
    {elements : List (String × Element)}
    (h : readMembers nesting earlier members ending = .ok elements) :
    Entries.Distinct elements ∧ ∀ key ∈ earlier, key ∉ Entries.names elements := by
  fun_induction readMembers nesting earlier members ending generalizing elements with
  | case1 earlier ending =>
    cases hend : ending.reach with
    | error e => simp [hend, bind, Except.bind] at h
    | ok _ =>
      rw [hend] at h
      cases h
      exact ⟨List.nodup_nil, fun _ _ => List.not_mem_nil⟩
  | case2 => cases h
  | case3 earlier key d rest ending ih =>
    cases he : Element.read nesting d with
    | error e => simp [he, bind, Except.bind] at h
    | ok e =>
      rw [he] at h
      by_cases hkey : key ∈ earlier
      · simp [bind, Except.bind, hkey] at h
      · cases hrest : readMembers nesting (key :: earlier) rest ending with
        | error e => simp [bind, Except.bind, hkey, hrest] at h
        | ok others =>
          simp only [bind, Except.bind, hkey, if_false, hrest] at h
          cases h
          obtain ⟨hdistinct, hnew⟩ := ih hrest
          refine ⟨List.nodup_cons.2 ⟨hnew key List.mem_cons_self, hdistinct⟩, ?_⟩
          intro other hother hmem
          rcases List.mem_cons.1 hmem with rfl | hmem
          · exact hkey hother
          · exact hnew other (List.mem_cons_of_mem _ hother) hmem

def readElements : Reader {elements : List (String × Element) // Entries.Distinct elements}
  | nesting, .object members ending => do
    let nesting ← enter nesting
    match h : readMembers nesting [] members ending with
    | .ok elements => return ⟨elements, (readMembers_distinct h).1⟩
    | .error e => .error e
  | _, d => .error (d.misfit "a map from element key to element")

def format : RecordFormat
    (Option String × Option {elements : List (String × Element) // Entries.Distinct elements}) where
  expected := "struct UITree"
  start := (none, none)
  field
    | (root, elements), "root", nesting, d => do
      return (← readOnce "root" root readString nesting d, elements)
    | (root, elements), "elements", nesting, d => do
      return (root, ← readOnce "elements" elements readElements nesting d)
    | given, _, _, d => skipField given d
  fields := ["root", "elements"]
  required := 2

def read : Reader Tree := fun nesting d => do
  let (root, elements) ← format.read nesting d
  let root ← required "root" root
  let elements ← required "elements" elements
  return ⟨root, elements.1, elements.2⟩

def toValue (t : Tree) : Value :=
  .object [("root", .string t.root),
    ("elements", .object (t.elements.map fun (key, e) => (key, e.toValue)))]

/-- The document of a tree, over several lines. -/
def pretty (t : Tree) : String := t.toValue.pretty

/-- Reads the document of a tree. -/
def ofText (text : String) : Except ReadError Tree := readText read text

end Tree

end CatalogUi
