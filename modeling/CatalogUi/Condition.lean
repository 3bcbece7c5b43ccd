import CatalogUi.Value.Access

/-!
Conditions on the session data. A condition names paths by their texts; compiling reads these, and
bounds how deep the condition is nested. A compiled condition can be evaluated on any data.
-/

namespace CatalogUi

/-- A condition as a tree carries it. -/
inductive Condition where
  /-- Something is stored at the path; null counts. -/
  | present (path : String)
  | equals (path : String) (value : Value)
  | differs (path : String) (value : Value)
  | not (inner : Condition)
  | all (items : List Condition)
  | any (items : List Condition)

/-- A condition with its paths read. -/
inductive Visibility where
  | present (path : Path)
  | equals (path : Path) (value : Value)
  | not (inner : Visibility)
  | all (items : List Visibility)
  | any (items : List Visibility)

/-- Why a condition cannot be compiled. -/
inductive ConditionIssue where
  | binding (error : BindingError)
  | tooDeep
deriving DecidableEq

namespace Visibility

mutual

/-- Whether the condition holds. What is absent equals nothing. -/
def evaluate (data : Value) : Visibility → Bool
  | .present path => (data.read? path).isSome
  | .equals path value =>
    match data.read? path with
    | some v => v.same value
    | none => false
  | .not inner => !evaluate data inner
  | .all items => evaluateAll data items
  | .any items => evaluateAny data items

def evaluateAll (data : Value) : List Visibility → Bool
  | [] => true
  | v :: rest => evaluate data v && evaluateAll data rest

def evaluateAny (data : Value) : List Visibility → Bool
  | [] => false
  | v :: rest => evaluate data v || evaluateAny data rest

end

end Visibility

namespace Condition

/-- Reads a path of a condition. -/
def compilePath (path : String) : Except (List ConditionIssue) Path :=
  match Path.parse path with
  | .ok p => .ok p
  | .error e => .error [.binding e]

mutual

/-- Reads every path of a condition that may be nested so many levels deep, itself included. All
issues are collected, from left to right; what lies too deep is not looked into. -/
def compile (levels : Nat) (c : Condition) : Except (List ConditionIssue) Visibility :=
  match levels with
  | 0 => .error [.tooDeep]
  | levels + 1 =>
    match c with
    | .present path => (compilePath path).map .present
    | .equals path value => (compilePath path).map fun p => .equals p value
    | .differs path value => (compilePath path).map fun p => .not (.equals p value)
    | .not inner => (compile levels inner).map .not
    | .all items => (compileItems levels items).map .all
    | .any items => (compileItems levels items).map .any
termination_by structural c

def compileItems (levels : Nat) (items : List Condition) :
    Except (List ConditionIssue) (List Visibility) :=
  match items with
  | [] => .ok []
  | c :: rest =>
    match compile levels c, compileItems levels rest with
    | .ok v, .ok more => .ok (v :: more)
    | .error issues, .ok _ => .error issues
    | .ok _, .error issues => .error issues
    | .error issues, .error more => .error (issues ++ more)
termination_by structural items

end

end Condition

end CatalogUi
