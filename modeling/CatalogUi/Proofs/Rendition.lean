import CatalogUi.Proofs.Ancestry
import CatalogUi.Proofs.Rendering

/-!
What a pass shows is the rendition of the tree: every node is rendered from its view and from the
renditions of those of its children that are shown, in the order of their list. A validated tree
has one rendition, since the renderers of a verified registry are those of the types of its catalog.
-/

namespace CatalogUi

/-! ## Renderers -/

namespace Registry

variable {O : Type} {r : Registry O}

/-- Taking out the renderer of a type leaves those of the other types. -/
theorem rendererOf_without_of_ne {type other : String} (hne : other ≠ type) :
    (r.without type).rendererOf other = r.rendererOf other := by
  rw [rendererOf, without, r.distinct.get?_swapRemove_of_ne hne, ← rendererOf]

/-- The table has the renderer of each type at the first place of the type. -/
theorem getElem?_tableOf {specs : List ComponentSpec} {table : List (String × Renderer O)}
    (h : r.tableOf specs = .ok table) {index : Nat} {spec : ComponentSpec}
    (hspec : specs[index]? = some spec) (hfirst : spec.name ∉ (specs.take index).map (·.name)) :
    ∃ render, r.rendererOf spec.name = some render ∧ table[index]? = some (spec.name, render) := by
  induction specs generalizing r table index with
  | nil => cases hspec
  | cons first rest ih =>
    rw [tableOf] at h
    cases hrender : r.rendererOf first.name with
    | none =>
      rw [hrender] at h
      cases h
    | some render =>
      cases hrest : (r.without first.name).tableOf rest with
      | error e =>
        simp only [hrender, hrest] at h
        cases h
      | ok below =>
        simp only [hrender, hrest] at h
        cases h
        cases index with
        | zero =>
          cases hspec
          exact ⟨render, hrender, rfl⟩
        | succ index =>
          rw [List.take_succ_cons, List.map_cons, List.mem_cons, not_or] at hfirst
          rw [← rendererOf_without_of_ne hfirst.1]
          exact ih hrest hspec hfirst.2

theorem table_of_verify {catalog : Catalog} {mode : RegistryMode}
    {registry : VerifiedRegistry O} (h : r.verify catalog mode = .ok registry) :
    r.tableOf catalog.components = .ok registry.table := by
  rw [verify] at h
  cases hwarnings : r.compare catalog mode with
  | error e =>
    rw [hwarnings] at h
    cases h
  | ok warnings =>
    cases htable : r.tableOf catalog.components with
    | error e =>
      simp only [hwarnings, htable] at h
      cases h
    | ok table =>
      simp only [hwarnings, htable] at h
      cases h
      rfl

/-- A verified registry renders a type of its catalog with the renderer of the type. -/
theorem exists_renderer {catalog : Catalog} {mode : RegistryMode}
    {registry : VerifiedRegistry O} (h : r.verify catalog mode = .ok registry) {type : String}
    {kind : ComponentKind} (hkind : catalog.kind? type = some kind) :
    ∃ render, r.rendererOf type = some render ∧ registry.renderer? kind type = some render := by
  obtain ⟨spec, hspec, hname⟩ := Catalog.exists_componentOfKind? hkind
  obtain rfl := Catalog.name_of_component? hname
  obtain ⟨render, hrender, htable⟩ :=
    getElem?_tableOf (table_of_verify h) hspec (Catalog.notMem_take_of_kind? hkind)
  refine ⟨render, hrender, ?_⟩
  rw [VerifiedRegistry.renderer?, htable]
  exact if_pos rfl

end Registry

/-! ## Renditions -/

namespace ValidatedTree

variable {O : Type} {v : ValidatedTree} {data : Value}

/-- The children of a key that are shown, in the order of their list. -/
def shownChildren (v : ValidatedTree) (data : Value) (key : String) : List String :=
  (v.links.childrenOf key).filter (v.shows data)

theorem shownChildren_of_node? {key : String} {n : Node} (hn : v.node? key = some n) :
    v.shownChildren data key = n.children.filter (v.shows data) := by
  rw [shownChildren, Links.childrenOf, get?_links, hn]
  rfl

theorem lists_of_mem_shownChildren {key child : String}
    (h : child ∈ v.shownChildren data key) : v.links.Lists key child :=
  Links.mem_childrenOf.1 (List.mem_of_mem_filter h)

/-- Every node is rendered by the renderer of its type, from its view and from the values of those
of its children that are shown. -/
def IsRendition (v : ValidatedTree) (r : Registry O) (data : Value) (value : String → O) : Prop :=
  ∀ key n, v.node? key = some n → ∃ render, r.rendererOf n.type = some render ∧
    value key = render (n.view key data) ((n.children.filter (v.shows data)).map value)

/-- There is at most one rendition. -/
theorem IsRendition.unique {r : Registry O} {value value' : String → O} (hv : v.Sound)
    (h : v.IsRendition r data value) (h' : v.IsRendition r data value') :
    ∀ key ∈ v.keys, value key = value' key := by
  intro key
  induction key using hv.wellFounded.induction with
  | h key ih =>
    intro hkey
    obtain ⟨n, hn⟩ := mem_keys_iff.1 hkey
    obtain ⟨render, hrender, hvalue⟩ := h key n hn
    obtain ⟨render', hrender', hvalue'⟩ := h' key n hn
    cases hrender.symm.trans hrender'
    rw [hvalue, hvalue']
    congr 1
    apply List.map_congr_left
    intro child hchild
    have hlists : v.links.Lists key child :=
      lists_iff.2 ⟨n, hn, List.mem_of_mem_filter hchild⟩
    exact ih child hlists (hv.child_mem hlists)

end ValidatedTree

namespace Rendering

variable {O : Type} {v : ValidatedTree} {registry : VerifiedRegistry O} {data : Value}

/-- There always are outputs, be there renderers or not. -/
theorem exists_areOutputs (hv : v.Sound) (registry : VerifiedRegistry O) (data : Value) :
    ∃ output, AreOutputs v registry data output := by
  obtain ⟨output, houtput⟩ := hv.exists_value (v.shownChildren data)
    (fun key child => ValidatedTree.lists_of_mem_shownChildren)
    fun key outputs => (v.node? key).bind fun n =>
      (registry.renderer? n.kind n.type).map (· (n.view key data) (outputs.filterMap id))
  refine ⟨output, fun key n hn => ?_⟩
  rw [houtput, ValidatedTree.shownChildren_of_node? hn, hn, Option.bind_some, List.filterMap_map]
  rfl

/-- A pass settles every node. -/
theorem exists_settled {σ : Type} (hv : v.Sound) {key : String} (hkey : key ∈ v.keys)
    (registry : VerifiedRegistry O) (store : Store σ) :
    ∃ state, (v.render registry store).state? key = some state ∧
      Settles v registry store.data key state := by
  obtain ⟨output, houtput⟩ := exists_areOutputs hv registry store.data
  obtain ⟨q, -, hrender, hcovers⟩ := exists_final hv store houtput
  rw [hrender]
  exact hcovers.settled key hkey

end Rendering

/-- On a tree of the catalog a verified registry has the renderers of all nodes. -/
theorem Tree.exists_renderer {t : Tree} {catalog : Catalog} {config : Config} {v : ValidatedTree}
    (hvalid : t.validate catalog config = .ok v) {O : Type} {r : Registry O} {mode : RegistryMode}
    {registry : VerifiedRegistry O} (hverified : r.verify catalog mode = .ok registry)
    (key : String) (n : Node) (hn : v.node? key = some n) :
    ∃ render, r.rendererOf n.type = some render ∧
      registry.renderer? n.kind n.type = some render := by
  obtain ⟨e, -, hrepresents⟩ := represents_of_validate hvalid hn
  rw [hrepresents.type]
  exact Registry.exists_renderer hverified hrepresents.kind

namespace Sample

/-- Every element is rendered as its key with what is inside of it. -/
def label (v : View) (inside : List String) : String :=
  v.key ++ "(" ++ String.join inside ++ ")"

def registry : Registry String :=
  (Registry.empty.register "Box" label).register "Button" label

def verified : VerifiedRegistry String := ⟨[("Box", label), ("Button", label)], []⟩

/-- The data on which the side box of the page is closed. -/
def closed : Store Unit := .create (.object []) ()

end Sample

end CatalogUi
