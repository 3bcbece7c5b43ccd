import CatalogUi.Path
import CatalogUi.Schema.Check

/-!
What validation can find wrong with a tree: defects of its structure, props that do not fit, and
conditions with paths that cannot be read. A report holds all findings, in the order of validation.
-/

namespace CatalogUi

/-- A defect of the structure of a tree. -/
inductive StructureError where
  | missingRoot (root : String)
  | rootHasParent (root : String) (parent : String)
  | keyMismatch (key : String) (declared : String)
  | missingChild (parent : String) (child : String)
  | parentMismatch (parent : String) (child : String) (declared : Option String)
  | cycle (parent : String) (child : String)
  | sharedChild (parent : String) (child : String)
  | orphan (key : String)
  | unknownType (key : String) (type : String)
  | childrenNotAllowed (key : String) (type : String) (count : Nat)
  | nodeCountExceeded (count : Nat) (max : Nat)
  | conditionTooDeep (key : String) (max : Nat)
deriving DecidableEq

inductive Finding where
  | structural (error : StructureError)
  | props (key : String) (error : SchemaError)
  | binding (key : String) (error : BindingError)

def StructureError.message : StructureError → String
  | .missingRoot root => "root element '" ++ root ++ "' does not exist"
  | .rootHasParent root parent =>
    "root element '" ++ root ++ "' must not have a parent (found '" ++ parent ++ "')"
  | .keyMismatch key declared =>
    "element stored under '" ++ key ++ "' declares key '" ++ declared ++ "'"
  | .missingChild parent child =>
    "element '" ++ parent ++ "' lists missing child '" ++ child ++ "'"
  | .parentMismatch parent child declared =>
    "element '" ++ child ++ "' is listed by '" ++ parent ++ "' but declares parent " ++
      Text.quotedOption declared
  | .cycle parent child =>
    "cycle: element '" ++ parent ++ "' lists its ancestor '" ++ child ++ "'"
  | .sharedChild parent child =>
    "element '" ++ child ++ "' is reached more than once (again from '" ++ parent ++ "')"
  | .orphan key => "element '" ++ key ++ "' is not reachable from the root"
  | .unknownType key type => "element '" ++ key ++ "' has unregistered type '" ++ type ++ "'"
  | .childrenNotAllowed key type count =>
    "element '" ++ key ++ "' of type '" ++ type ++ "' cannot have children (" ++
      toString count ++ " listed)"
  | .nodeCountExceeded count max =>
    "tree has " ++ toString count ++ " elements, more than the limit of " ++ toString max
  | .conditionTooDeep key max =>
    "visibility condition on '" ++ key ++ "' nests deeper than " ++ toString max

namespace Finding

def message : Finding → String
  | .structural error => error.message
  | .props key error => "element '" ++ key ++ "' prop " ++ error.message
  | .binding key error => "element '" ++ key ++ "' visibility: " ++ error.message

def schemaError? : Finding → Option (String × SchemaError)
  | .props key error => some (key, error)
  | _ => none

def structureError? : Finding → Option StructureError
  | .structural error => some error
  | _ => none

end Finding

/-- All findings about a tree that was rejected. -/
structure Report where
  findings : List Finding

namespace Report

def schemaErrors (r : Report) : List (String × SchemaError) :=
  r.findings.filterMap Finding.schemaError?

def structureErrors (r : Report) : List StructureError :=
  r.findings.filterMap Finding.structureError?

def message (r : Report) : String :=
  "tree validation failed with " ++ toString r.findings.length ++ " diagnostic(s)"

end Report

end CatalogUi
