import CatalogUi.Proofs.Rendition
import Mathlib.Data.List.Induction

/-!
What verifying a registry comes to. A registry is put together step by step, and the last renderer
of a type counts. Verifying compares the types that were registered with those of the catalog, and
how it treats differences depends on the mode alone; when it succeeds, each type of the catalog has
its renderer at the place of its kind, so that a pass over a tree of the catalog finds all renderers.
-/

namespace CatalogUi

/-- The types of a catalog, in their order. -/
def Catalog.typeNames (c : Catalog) : List String := c.components.map (·.name)

namespace Registry

variable {O : Type}

/-! ## Registering step by step -/

/-- One step of putting a registry together. -/
inductive Registration (O : Type) where
  | renderer (type : String) (render : Renderer O)
  | fallback (render : Renderer O)

namespace Registration

def type? : Registration O → Option String
  | .renderer type _ => some type
  | .fallback _ => none

/-- The renderer that a step registers for a type. -/
def renderer? (type : String) : Registration O → Option (Renderer O)
  | .renderer name render => if name = type then some render else none
  | .fallback _ => none

def fallback? : Registration O → Option (Renderer O)
  | .renderer _ _ => none
  | .fallback render => some render

end Registration

def apply (r : Registry O) : Registration O → Registry O
  | .renderer type render => r.register type render
  | .fallback render => r.withFallback render

def ofList (steps : List (Registration O)) : Registry O := steps.foldl apply empty

/-- The types that were registered, each once, in the order in which they came first. -/
def registeredTypes (steps : List (Registration O)) : List String :=
  (steps.filterMap Registration.type?).eraseDups

/-- The renderer that was registered last for a type. -/
def lastRenderer? (steps : List (Registration O)) (type : String) : Option (Renderer O) :=
  steps.reverse.findSome? (Registration.renderer? type)

/-- The fallback that was set last. -/
def lastFallback? (steps : List (Registration O)) : Option (Renderer O) :=
  steps.reverse.findSome? Registration.fallback?

variable {steps : List (Registration O)}

theorem ofList_concat (steps : List (Registration O)) (step : Registration O) :
    ofList (steps ++ [step]) = (ofList steps).apply step :=
  List.foldl_concat apply empty step steps

theorem eraseDups_concat {names : List String} {name : String} :
    (names ++ [name]).eraseDups =
      if name ∈ names.eraseDups then names.eraseDups else names.eraseDups ++ [name] := by
  by_cases h : name ∈ names <;>
    simp [List.eraseDups_append, List.eraseDups_cons, List.removeAll, List.mem_eraseDups, h]

theorem names_ofList (steps : List (Registration O)) :
    Entries.names (ofList steps).renderers = registeredTypes steps := by
  induction steps using List.reverseRecOn with
  | nil => rfl
  | append_singleton steps step ih =>
    rw [ofList_concat, registeredTypes, List.filterMap_append]
    cases step with
    | renderer type render =>
      change Entries.names (Entries.set (ofList steps).renderers type render) = _
      rw [Entries.names_set, ih]
      exact eraseDups_concat.symm
    | fallback render =>
      change Entries.names (ofList steps).renderers = _
      rw [ih]
      exact congrArg List.eraseDups (List.append_nil _).symm

theorem findSome?_reverse_concat {α β : Type} (f : α → Option β) (l : List α) (a : α) :
    (l ++ [a]).reverse.findSome? f = (f a).or (l.reverse.findSome? f) := by
  rw [List.reverse_append, List.findSome?_append]
  simp

theorem get?_ofList (steps : List (Registration O)) (type : String) :
    Entries.get? (ofList steps).renderers type = lastRenderer? steps type := by
  induction steps using List.reverseRecOn with
  | nil => rfl
  | append_singleton steps step ih =>
    rw [ofList_concat, lastRenderer?, findSome?_reverse_concat]
    cases step with
    | renderer name render =>
      change Entries.get? (Entries.set (ofList steps).renderers name render) type = _
      by_cases h : name = type
      · subst h
        simp [Registration.renderer?]
      · rw [Entries.get?_set_of_ne _ _ (Ne.symm h), ih]
        simp [Registration.renderer?, h, lastRenderer?]
    | fallback render => exact ih

theorem fallback_ofList (steps : List (Registration O)) :
    (ofList steps).fallback = lastFallback? steps := by
  induction steps using List.reverseRecOn with
  | nil => rfl
  | append_singleton steps step ih =>
    rw [ofList_concat, lastFallback?, findSome?_reverse_concat]
    cases step with
    | renderer => exact ih
    | fallback => rfl

theorem rendererOf_ofList (steps : List (Registration O)) (type : String) :
    (ofList steps).rendererOf type = (lastRenderer? steps type).or (lastFallback? steps) := by
  rw [rendererOf, get?_ofList, fallback_ofList]

/-! ## Differences -/

/-- The types of a catalog that were not registered, in the order of the catalog. -/
def missingTypes (steps : List (Registration O)) (c : Catalog) : List String :=
  c.typeNames.filter (· ∉ registeredTypes steps)

/-- The types that were registered and that a catalog does not have, in the order in which they came
first. -/
def unknownTypes (steps : List (Registration O)) (c : Catalog) : List String :=
  (registeredTypes steps).filter (· ∉ c.typeNames)

theorem missing_ofList (steps : List (Registration O)) (c : Catalog) :
    (ofList steps).missing c = missingTypes steps c := by
  rw [missing, missingTypes]
  congr 1
  funext name
  simp [← names_ofList, ← Entries.has_iff_mem_names]

theorem unknown_ofList (steps : List (Registration O)) (c : Catalog) :
    (ofList steps).unknown c = unknownTypes steps c := by
  rw [unknown, unknownTypes, names_ofList]
  congr 1
  funext name
  rw [Catalog.component?, Catalog.typeNames, Bool.eq_iff_iff, Option.isNone_iff_eq_none,
    List.find?_eq_none]
  simp

theorem filter_not_mem_eq_nil {l l' : List String} :
    l.filter (· ∉ l') = [] ↔ ∀ a ∈ l, a ∈ l' := by
  simp [List.filter_eq_nil_iff]

/-- Nothing is missing and nothing unknown just when the registered types are those of the catalog. -/
theorem no_difference_iff {c : Catalog} :
    missingTypes steps c = [] ∧ unknownTypes steps c = [] ↔
      ∀ type, type ∈ registeredTypes steps ↔ type ∈ c.typeNames := by
  rw [missingTypes, unknownTypes, filter_not_mem_eq_nil, filter_not_mem_eq_nil]
  exact ⟨fun ⟨hmissing, hunknown⟩ type => ⟨hunknown type, hmissing type⟩,
    fun h => ⟨fun type => (h type).2, fun type => (h type).1⟩⟩

/-! ## The table -/

variable {r : Registry O} {c : Catalog} {mode : RegistryMode}

/-- Where names are all different, taking renderers out changes nothing: the table is made of the
renderers of the whole registry. -/
theorem tableOf_ok_iff {specs : List ComponentSpec} {table : List (String × Renderer O)}
    (hnames : (specs.map (·.name)).Nodup) :
    r.tableOf specs = .ok table ↔
      List.Forall₂ (fun spec entry => entry.1 = spec.name ∧ r.rendererOf spec.name = some entry.2)
        specs table := by
  -- What is left of the registry on the way still has the renderers of the types to come.
  suffices h : ∀ left : Registry O,
      (∀ spec ∈ specs, left.rendererOf spec.name = r.rendererOf spec.name) →
        (left.tableOf specs = .ok table ↔ List.Forall₂
          (fun spec entry => entry.1 = spec.name ∧ r.rendererOf spec.name = some entry.2)
            specs table) from
    h r fun _ _ => rfl
  induction specs generalizing table with
  | nil => simp [tableOf, eq_comm]
  | cons spec rest ih =>
    intro left hleft
    obtain ⟨hnew, hrest⟩ := List.nodup_cons.1 hnames
    obtain ⟨hspec, htail⟩ := List.forall_mem_cons.1 hleft
    have hne : ∀ other ∈ rest, other.name ≠ spec.name := fun other hother heq =>
      hnew (List.mem_map.2 ⟨other, hother, heq⟩)
    have hbelow (below : List (String × Renderer O)) := @ih below hrest (left.without spec.name)
      fun other hother =>
        (rendererOf_without_of_ne (hne other hother)).trans (htail other hother)
    rw [tableOf, hspec, List.forall₂_cons_left_iff]
    cases hrender : r.rendererOf spec.name with
    | none => simp
    | some render =>
      simp only [← hbelow]
      cases (left.without spec.name).tableOf rest with
      | error e => simp
      | ok below => simp [eq_comm]

theorem exists_tableOf {specs : List ComponentSpec} (hnames : (specs.map (·.name)).Nodup)
    (h : ∀ spec ∈ specs, r.rendererOf spec.name ≠ none) :
    ∃ table, r.tableOf specs = .ok table := by
  simp only [tableOf_ok_iff hnames]
  clear hnames
  induction specs with
  | nil => exact ⟨[], .nil⟩
  | cons spec rest ih =>
    obtain ⟨hspec, hrest⟩ := List.forall_mem_cons.1 h
    obtain ⟨render, hrender⟩ := Option.ne_none_iff_exists'.1 hspec
    obtain ⟨table, htable⟩ := ih hrest
    exact ⟨(spec.name, render) :: table, .cons ⟨rfl, hrender⟩ htable⟩

/-- A type without a renderer is missing, and there is no fallback. -/
theorem rendererOf_eq_none {spec : ComponentSpec} (hspec : spec ∈ c.components)
    (h : r.rendererOf spec.name = none) : spec.name ∈ r.missing c ∧ r.fallback = none := by
  obtain ⟨hget, hfallback⟩ := Option.or_eq_none_iff.1 h
  refine ⟨List.mem_filter.2 ⟨List.mem_map_of_mem hspec, ?_⟩, hfallback⟩
  rw [Entries.has, hget]
  rfl

/-- Where the differences are let pass there is a renderer for each type. -/
theorem rendererOf_ne_none_of_compare {warnings : List RegistryError}
    (h : r.compare c mode = .ok warnings) {spec : ComponentSpec} (hspec : spec ∈ c.components) :
    r.rendererOf spec.name ≠ none := by
  intro hnone
  obtain ⟨hmissing, hfallback⟩ := rendererOf_eq_none hspec hnone
  have hsome : r.missing c ≠ [] := List.ne_nil_of_mem hmissing
  cases mode <;> simp [compare, hsome, hfallback] at h

section Verify

variable (hc : c.typeNames.Nodup)
include hc

/-- Verifying succeeds or fails as the comparison does. -/
theorem map_warnings_verify (r : Registry O) (mode : RegistryMode) :
    (r.verify c mode).map (·.warnings) = r.compare c mode := by
  rw [verify]
  cases hcompare : r.compare c mode with
  | error e => rfl
  | ok warnings =>
    obtain ⟨table, htable⟩ :=
      exists_tableOf hc fun spec hspec => rendererOf_ne_none_of_compare hcompare hspec
    simp only [htable]
    rfl

theorem compare_of_verify_error {e : RegistryError} (h : r.verify c mode = .error e) :
    r.compare c mode = .error e := by
  rw [← map_warnings_verify hc, h]
  rfl

theorem compare_of_verify {registry : VerifiedRegistry O} (h : r.verify c mode = .ok registry) :
    r.compare c mode = .ok registry.warnings := by
  rw [← map_warnings_verify hc, h]
  rfl

theorem exists_verify_iff :
    (∃ registry, r.verify c mode = .ok registry) ↔ ∃ warnings, r.compare c mode = .ok warnings := by
  constructor
  · intro ⟨registry, hregistry⟩
    exact ⟨registry.warnings, compare_of_verify hc hregistry⟩
  · intro ⟨warnings, hwarnings⟩
    cases hverify : r.verify c mode with
    | ok registry => exact ⟨registry, rfl⟩
    | error e => cases (compare_of_verify_error hc hverify).symm.trans hwarnings

end Verify

theorem compare_strict (r : Registry O) (c : Catalog) :
    r.compare c .strict = if r.missing c = [] ∧ r.unknown c = [] then .ok []
      else .error (.drift (r.missing c) (r.unknown c)) := by
  simp [compare]

theorem compare_lenient (r : Registry O) (c : Catalog) :
    r.compare c .lenient = if r.missing c = [] ∨ r.fallback ≠ none then .ok (r.warnings c)
      else .error .missingFallback := by
  by_cases hmissing : r.missing c = [] <;> cases hfallback : r.fallback <;>
    simp [compare, hmissing, hfallback]

/-- Strict, verifying succeeds without differences, and else tells of all of them. -/
theorem verify_strict (steps : List (Registration O)) (hc : c.typeNames.Nodup) :
    ((∃ registry, (ofList steps).verify c .strict = .ok registry) ↔
      ∀ type, type ∈ registeredTypes steps ↔ type ∈ c.typeNames) ∧
    (∀ e, (ofList steps).verify c .strict = .error e →
      e = .drift (missingTypes steps c) (unknownTypes steps c)) ∧
    ∀ registry, (ofList steps).verify c .strict = .ok registry → registry.warnings = [] := by
  have hstrict := compare_strict (ofList steps) c
  rw [missing_ofList, unknown_ofList] at hstrict
  refine ⟨?_, fun e h => ?_, fun registry h => ?_⟩
  · rw [exists_verify_iff hc, hstrict, ← no_difference_iff]
    split <;> simp_all
  · have hcompare := hstrict.symm.trans (compare_of_verify_error hc h)
    split at hcompare
    · cases hcompare
    · cases hcompare
      rfl
  · have hcompare := hstrict.symm.trans (compare_of_verify hc h)
    split at hcompare
    · exact (Except.ok.inj hcompare).symm
    · cases hcompare

/-- Lenient, verifying fails only for want of a fallback, and warns of the differences. -/
theorem verify_lenient (steps : List (Registration O)) (hc : c.typeNames.Nodup) :
    ((∃ registry, (ofList steps).verify c .lenient = .ok registry) ↔
      missingTypes steps c = [] ∨ lastFallback? steps ≠ none) ∧
    (∀ e, (ofList steps).verify c .lenient = .error e → e = .missingFallback) ∧
    ∀ registry, (ofList steps).verify c .lenient = .ok registry →
      registry.warnings = (missingTypes steps c).map .missingRenderer ++
        if unknownTypes steps c = [] then [] else [.drift [] (unknownTypes steps c)] := by
  have hlenient := compare_lenient (ofList steps) c
  rw [missing_ofList, fallback_ofList, warnings, missing_ofList, unknown_ofList] at hlenient
  refine ⟨?_, fun e h => ?_, fun registry h => ?_⟩
  · rw [exists_verify_iff hc, hlenient]
    split <;> simp_all
  · have hcompare := hlenient.symm.trans (compare_of_verify_error hc h)
    split at hcompare
    · cases hcompare
    · cases hcompare
      rfl
  · have hcompare := hlenient.symm.trans (compare_of_verify hc h)
    split at hcompare
    · rw [← Except.ok.inj hcompare]
      simp only [List.isEmpty_iff]
    · cases hcompare

/-- At the place of a kind there is a renderer for one type only. -/
theorem renderer?_of_ne {registry : VerifiedRegistry O} {kind : ComponentKind} {type : String}
    {render : Renderer O} (h : registry.renderer? kind type = some render) {other : String}
    (hne : other ≠ type) : registry.renderer? kind other = none := by
  rw [VerifiedRegistry.renderer?] at h ⊢
  cases hplace : registry.table[kind.index]? with
  | none => rfl
  | some place =>
    obtain ⟨name, found⟩ := place
    simp only [hplace] at h ⊢
    obtain ⟨rfl, -⟩ := Option.ite_none_right_eq_some.1 h
    exact if_neg (Ne.symm hne)

theorem exists_kind?_of_mem {type : String} (h : type ∈ c.typeNames) :
    ∃ kind, c.kind? type = some kind := by
  obtain ⟨spec, hspec, rfl⟩ := List.mem_map.1 h
  exact Catalog.exists_kind?_name hspec

end Registry

namespace Rendering

variable {O : Type} {v : ValidatedTree} {registry : VerifiedRegistry O} {data : Value}

/-- A node that has a renderer does not stop halfway. -/
theorem Settles.not_halfway {key : String} {state : NodeState}
    (h : Settles v registry data key state)
    (hall : ∀ n, v.node? key = some n → registry.renderer? n.kind n.type ≠ none) :
    state ≠ .validated ∧ state ≠ .bound := by
  cases h with
  | bound _ _ hkey hnone => exact (hall _ hkey hnone).elim
  | pending | hidden | rendered => decide

/-- Where every node has a renderer, a pass adds no warning and leaves no node halfway. -/
theorem render_of_renderers {σ : Type} (hv : v.Sound) (store : Store σ)
    (hall : ∀ key n, v.node? key = some n → registry.renderer? n.kind n.type ≠ none) :
    (v.render registry store).warnings = registry.warnings ∧
      ∀ entry ∈ (v.render registry store).states,
        entry.2 ≠ .validated ∧ entry.2 ≠ .bound := by
  obtain ⟨output, houtput⟩ := exists_areOutputs hv registry store.data
  obtain ⟨q, -, hrender, hcovers⟩ := exists_final hv store houtput
  rw [hrender]
  refine ⟨(hcovers.warnings hall).trans rfl, fun entry hentry => ?_⟩
  exact (hcovers.settles_of_mem hv hentry).not_halfway (hall entry.1)

end Rendering

/-- Verifying a registry that was put together step by step against a catalog, whose types have all
different names. Strict, it succeeds just when the registered types are those of the catalog, and
else tells of all differences; lenient, it fails only when a type is missing and there is no fallback,
and else warns of them. The table it gives has at the place of each kind the renderer registered last
for its type, or the fallback, and nothing for another type; with it a pass over a tree of the catalog
renders all that is shown. -/
theorem Registry.verify_ofList {O : Type} (steps : List (Registration O)) {c : Catalog}
    (hc : c.typeNames.Nodup) :
    ((∃ registry, (ofList steps).verify c .strict = .ok registry) ↔
      ∀ type, type ∈ registeredTypes steps ↔ type ∈ c.typeNames) ∧
    (∀ e, (ofList steps).verify c .strict = .error e →
      e = .drift (missingTypes steps c) (unknownTypes steps c)) ∧
    (∀ registry, (ofList steps).verify c .strict = .ok registry → registry.warnings = []) ∧
    ((∃ registry, (ofList steps).verify c .lenient = .ok registry) ↔
      missingTypes steps c = [] ∨ lastFallback? steps ≠ none) ∧
    (∀ e, (ofList steps).verify c .lenient = .error e → e = .missingFallback) ∧
    (∀ registry, (ofList steps).verify c .lenient = .ok registry →
      registry.warnings = (missingTypes steps c).map .missingRenderer ++
        if unknownTypes steps c = [] then [] else [.drift [] (unknownTypes steps c)]) ∧
    (∀ mode registry, (ofList steps).verify c mode = .ok registry →
      (∀ type ∈ c.typeNames, ∃ kind render, c.kind? type = some kind ∧
        (lastRenderer? steps type).or (lastFallback? steps) = some render ∧
        registry.renderer? kind type = some render ∧
        ∀ other, other ≠ type → registry.renderer? kind other = none) ∧
      (∀ (t : Tree) (config : Config) (v : ValidatedTree), t.validate c config = .ok v →
        ∀ (σ : Type) (store : Store σ),
          (v.render registry store).warnings = registry.warnings ∧
          ∀ entry ∈ (v.render registry store).states,
            entry.2 ≠ .validated ∧ entry.2 ≠ .bound)) := by
  obtain ⟨hstrict, hdrift, hquiet⟩ := verify_strict steps hc
  obtain ⟨hlenient, hfallback, hwarnings⟩ := verify_lenient steps hc
  refine ⟨hstrict, hdrift, hquiet, hlenient, hfallback, hwarnings,
    fun mode registry h => ⟨fun type htype => ?_, fun t config v hvalid σ store => ?_⟩⟩
  · obtain ⟨kind, hkind⟩ := exists_kind?_of_mem htype
    obtain ⟨render, hrender, hfound⟩ := exists_renderer h hkind
    rw [rendererOf_ofList] at hrender
    exact ⟨kind, render, hkind, hrender, hfound, fun other => renderer?_of_ne hfound⟩
  · apply Rendering.render_of_renderers (Tree.sound_of_validate hvalid) store
    intro key n hn
    obtain ⟨render, -, hrender⟩ := Tree.exists_renderer hvalid h key n hn
    rw [hrender]
    exact Option.some_ne_none render

namespace Sample

/-- Every element is rendered as its type. -/
def placeholder (v : View) (_ : List String) : String := v.type

/-- The boxes are registered twice, the buttons not at all, and a type that is not of the catalog. -/
def registrations : List (Registry.Registration String) :=
  [.renderer "Box" placeholder, .renderer "Panel" label, .fallback placeholder,
    .renderer "Box" label]

end Sample

/-- Lenient, the second renderer of boxes counts and buttons have the fallback, with a warning of
each difference. -/
theorem Registry.verify_ofList_page :
    Sample.catalog.typeNames.Nodup ∧
    ∃ registry, (ofList Sample.registrations).verify Sample.catalog .lenient = .ok registry ∧
      registry.warnings = [.missingRenderer "Button", .drift [] ["Panel"]] ∧
      registry.renderer? ⟨0⟩ "Box" = some Sample.label ∧
      registry.renderer? ⟨1⟩ "Button" = some Sample.placeholder ∧
      (Sample.page.render registry Sample.closed).warnings = registry.warnings := by
  have hnames : Sample.catalog.typeNames.Nodup := by decide
  obtain ⟨-, -, -, hok, -, hwarnings, haligned⟩ := verify_ofList Sample.registrations hnames
  obtain ⟨registry, hregistry⟩ := hok.2 (Or.inr (Option.some_ne_none Sample.placeholder))
  obtain ⟨htable, hrender⟩ := haligned .lenient registry hregistry
  obtain ⟨box, render, hbox, hlast, hfound, -⟩ := htable "Box" (by decide)
  obtain ⟨button, render', hbutton, hlast', hfound', -⟩ := htable "Button" (by decide)
  obtain ⟨hadded, -⟩ := hrender Sample.tree Config.default Sample.page Sample.validate_tree
    Unit Sample.closed
  cases hbox
  cases hbutton
  cases hlast
  cases hlast'
  exact ⟨hnames, registry, hregistry, (hwarnings registry hregistry).trans (by decide), hfound,
    hfound', hadded⟩

end CatalogUi
