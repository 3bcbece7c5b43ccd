import CatalogUi.Validation

/-!
Activating an element calls at most one handler: the one registered for the action that the element
names. Everything has to be in order before the call: the element can be seen, the catalog has the
action, and the params fit it.
-/

namespace CatalogUi

/-- One call of a handler. -/
structure Invocation where
  action : String
  /-- The params with defaults filled in. -/
  params : Value
  /-- The key of the activated element. -/
  source : String

/-- Handlers share a memory, which they read and change when they are called. A handler can fail
for a reason. -/
abbrev Handler (τ : Type) := Invocation → τ → Except String Unit × τ

/-- Handlers under the names of actions. -/
structure Handlers (τ : Type) where
  entries : List (String × Handler τ)

namespace Handlers

variable {τ : Type}

def empty : Handlers τ := ⟨[]⟩

/-- Registers the handler of an action, in place of an earlier one. -/
def register (h : Handlers τ) (action : String) (handler : Handler τ) : Handlers τ :=
  ⟨Entries.set h.entries action handler⟩

def handler? (h : Handlers τ) (action : String) : Option (Handler τ) :=
  Entries.get? h.entries action

def has (h : Handlers τ) (action : String) : Bool := Entries.has h.entries action

/-- The names of the actions that can be handled, in alphabetical order. -/
def actions (h : Handlers τ) : List String :=
  (Entries.names h.entries).mergeSort fun a b => !(b < a)

def summary (h : Handlers τ) : String :=
  "ActionHandlers \x7b actions: " ++ Text.quotedList h.actions ++ " \x7d"

end Handlers

/-- Why an activation comes to nothing. -/
inductive ActivationError where
  | unknownElement (key : String)
  | notEligible (key : String)
  | noAction (key : String)
  | unknownAction (key : String) (action : String)
  | invalidParams (action : String) (errors : List SchemaError)
  | missingHandler (action : String)
  | handlerFailed (action : String) (reason : String)

def ActivationError.message : ActivationError → String
  | .unknownElement key => "no element '" ++ key ++ "' in the tree"
  | .notEligible key => "element '" ++ key ++ "' is hidden and cannot be activated"
  | .noAction key => "element '" ++ key ++ "' does not declare an action"
  | .unknownAction key action =>
    "element '" ++ key ++ "' declares unknown action '" ++ action ++ "'"
  | .invalidParams action errors =>
    "invalid params for action '" ++ action ++ "': " ++ SchemaError.joined errors
  | .missingHandler action => "no handler registered for action '" ++ action ++ "'"
  | .handlerFailed action reason => "handler for action '" ++ action ++ "' failed: " ++ reason

namespace ValidatedTree

/-- Whether the conditions of a node and of all its ancestors hold. -/
def isVisible (t : ValidatedTree) (key : String) (data : Value) : Bool :=
  (t.lineage key).all (·.isVisible data)

variable {τ : Type}

/-- The handler that activating an element calls, and what it is called with. Params that are not
given count as an object without fields. -/
def invocation (t : ValidatedTree) (catalog : Catalog) (config : Config) (data : Value)
    (handlers : Handlers τ) (key : String) (params : Option Value) :
    Except ActivationError (Handler τ × Invocation) :=
  match t.node? key with
  | none => .error (.unknownElement key)
  | some node =>
    if !t.isVisible key data then .error (.notEligible key)
    else
      match node.action with
      | none => .error (.noAction key)
      | some action =>
        match catalog.action? action with
        | none => .error (.unknownAction key action)
        | some spec =>
          match spec.params.validate config.rejectUnknownProps
              (some (params.getD .emptyObject)) with
          | .error errors => .error (.invalidParams action errors)
          | .ok params =>
            match handlers.handler? action with
            | none => .error (.missingHandler action)
            | some handler => .ok (handler, ⟨action, params, key⟩)

/-- Activates an element, given the memory of the handlers. -/
def activate (t : ValidatedTree) (catalog : Catalog) (config : Config) (data : Value)
    (handlers : Handlers τ) (key : String) (params : Option Value) (memory : τ) :
    Except ActivationError Unit × τ :=
  match t.invocation catalog config data handlers key params with
  | .error e => (.error e, memory)
  | .ok (handler, call) =>
    match handler call memory with
    | (.ok (), memory) => (.ok (), memory)
    | (.error reason, memory) => (.error (.handlerFailed call.action reason), memory)

end ValidatedTree

end CatalogUi
