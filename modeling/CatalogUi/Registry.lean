import CatalogUi.View

/-!
Renderers by component type. Renderers are registered under the names of types; verifying them
against a catalog moves them to a table with one renderer for each type of the catalog, in its order,
so that the kind of a type is its place in the table.
-/

namespace CatalogUi

/-- How renderers and a catalog can differ. -/
inductive RegistryError where
  /-- Types of the catalog without a renderer, and renderers of types that the catalog does not
  have. -/
  | drift (missing : List String) (unknown : List String)
  | missingRenderer (type : String)
  | missingFallback
deriving DecidableEq

def RegistryError.message : RegistryError → String
  | .drift missing unknown =>
    "registry out of sync with catalog (missing renderers: " ++ Text.quotedList missing ++
      ", unknown types: " ++ Text.quotedList unknown ++ ")"
  | .missingRenderer type =>
    "no renderer registered for component type '" ++ type ++ "', using placeholder"
  | .missingFallback => "lenient registry mode requires a fallback renderer"

/-- Renderers under the names of types, not yet compared with a catalog. -/
structure Registry (O : Type) where
  /-- The renderers in the order in which their types were registered first. -/
  renderers : List (String × Renderer O)
  /-- The renderer of types without one. -/
  fallback : Option (Renderer O)
  distinct : Entries.Distinct renderers

/-- Renderers that were verified against a catalog. -/
structure VerifiedRegistry (O : Type) where
  /-- The types of the catalog with their renderers, in the order of the catalog. -/
  table : List (String × Renderer O)
  /-- Differences that were let pass. -/
  warnings : List RegistryError

namespace Registry

variable {O : Type}

def empty : Registry O := ⟨[], none, List.nodup_nil⟩

/-- Registers the renderer of a type, in place of an earlier one. -/
def register (r : Registry O) (type : String) (render : Renderer O) : Registry O :=
  { r with
    renderers := Entries.set r.renderers type render
    distinct := r.distinct.set type render }

def withFallback (r : Registry O) (render : Renderer O) : Registry O :=
  { r with fallback := some render }

/-- The types of a catalog that have no renderer. -/
def missing (r : Registry O) (c : Catalog) : List String :=
  (c.components.map (·.name)).filter fun name => !Entries.has r.renderers name

/-- The registered types that a catalog does not have. -/
def unknown (r : Registry O) (c : Catalog) : List String :=
  (Entries.names r.renderers).filter fun name => (c.component? name).isNone

/-- The differences from a catalog as warnings. -/
def warnings (r : Registry O) (c : Catalog) : List RegistryError :=
  (r.missing c).map .missingRenderer ++
    if (r.unknown c).isEmpty then [] else [.drift [] (r.unknown c)]

/-- The warnings that remain when differences from a catalog are treated as the mode says. -/
def compare (r : Registry O) (c : Catalog) (mode : RegistryMode) :
    Except RegistryError (List RegistryError) :=
  match mode with
  | .strict =>
    if (r.missing c).isEmpty && (r.unknown c).isEmpty then .ok []
    else .error (.drift (r.missing c) (r.unknown c))
  | .lenient =>
    if !(r.missing c).isEmpty && r.fallback.isNone then .error .missingFallback
    else .ok (r.warnings c)

/-- The renderer of a type, or else the fallback. -/
def rendererOf (r : Registry O) (type : String) : Option (Renderer O) :=
  (Entries.get? r.renderers type).or r.fallback

/-- Takes out the renderer of a type. -/
def without (r : Registry O) (type : String) : Registry O :=
  { r with
    renderers := Entries.swapRemove r.renderers type
    distinct := r.distinct.swapRemove type }

/-- One renderer for each type, in order, unless a type has none. A renderer that goes into the table
is taken out of the registry. -/
def tableOf (r : Registry O) :
    List ComponentSpec → Except RegistryError (List (String × Renderer O))
  | [] => .ok []
  | spec :: rest =>
    match r.rendererOf spec.name with
    | none => .error .missingFallback
    | some render =>
      match (r.without spec.name).tableOf rest with
      | .ok table => .ok ((spec.name, render) :: table)
      | .error e => .error e

/-- Compares the registry with a catalog, and makes the table of its types. -/
def verify (r : Registry O) (c : Catalog) (mode : RegistryMode) :
    Except RegistryError (VerifiedRegistry O) :=
  match r.compare c mode with
  | .error e => .error e
  | .ok warnings =>
    match r.tableOf c.components with
    | .error e => .error e
    | .ok table => .ok ⟨table, warnings⟩

end Registry

/-- The renderer of a kind, if the type at its place in the table has the given name. -/
def VerifiedRegistry.renderer? {O : Type} (r : VerifiedRegistry O) (kind : ComponentKind)
    (type : String) : Option (Renderer O) :=
  match r.table[kind.index]? with
  | some (name, render) => if name = type then some render else none
  | none => none

end CatalogUi
