import CatalogUi.Catalog.Definition
import CatalogUi.Proofs.Absence
import CatalogUi.Proofs.Element

/-!
All mistakes of definitions, in the order in which they are looked for. A shape and the shapes inside
it are its parts, each with its place, and each part can have a defect of its own. Making a catalog
finds the first of all mistakes; when there is none, the kinds of the catalog number its component
types, its definition makes it again, and there is something that each of its shapes accepts, if its
bounds are finite.
-/

namespace CatalogUi

open Outcome

namespace Schema

/-! ## Parts of a shape and their defects -/

mutual

/-- The shapes inside a shape that stands at a place, each with its own place, and last the shape
itself. -/
def parts (place : Place) : Schema → List (Place × Schema)
  | .array items => parts (place ++ [.items]) items ++ [(place, .array items)]
  | .object fields => partsOfFields place fields ++ [(place, .object fields)]
  | .optional inner default => parts place inner ++ [(place, .optional inner default)]
  | .nullable inner => parts place inner ++ [(place, .nullable inner)]
  | s => [(place, s)]

def partsOfFields (place : Place) : List (String × Schema) → List (Place × Schema)
  | [] => []
  | (name, s) :: rest => parts (place ++ [.field name]) s ++ partsOfFields place rest

end

end Schema

namespace Catalog

/-! ## Mistakes of definitions -/

section Family

variable {α : Type} (name : α → String) (own : α → List CatalogError)
  (repeated : String → CatalogError)

variable {name own repeated}

end Family

/-- Where names are all different, the first with the name of a spec is the spec. -/
theorem find?_name_of_nodup {α : Type} {name : α → String} {specs : List α}
    (h : (specs.map name).Nodup) {spec : α} (hmem : spec ∈ specs) :
    specs.find? (fun other => name other = name spec) = some spec := by
  induction specs with
  | nil => cases hmem
  | cons first rest ih =>
    obtain ⟨hnew, hrest⟩ := List.nodup_cons.1 h
    rcases List.mem_cons.1 hmem with rfl | hmem
    · exact List.find?_cons_of_pos (decide_eq_true rfl)
    · have hne : name first ≠ name spec := fun heq => hnew (heq ▸ List.mem_map_of_mem hmem)
      rw [List.find?_cons_of_neg (by simpa using hne), ih hrest hmem]

theorem Sound.component?_name {c : Catalog} (hc : c.Sound) {spec : ComponentSpec}
    (hmem : spec ∈ c.components) : c.component? spec.name = some spec :=
  find?_name_of_nodup hc.component_names hmem

theorem Sound.action?_name {c : Catalog} (hc : c.Sound) {spec : ActionSpec}
    (hmem : spec ∈ c.actions) : c.action? spec.name = some spec :=
  find?_name_of_nodup hc.action_names hmem

/-- A catalog equals itself just when none of its bounds is no number. -/
theorem Sound.same_self_iff {c : Catalog} (hc : c.Sound) (hw : c.WellFormed) :
    c.same c = true ↔ ∀ s ∈ c.shapes, s.EveryBound (· ≠ .nan) := by
  have hcomponent : ∀ spec ∈ c.components,
      (c.component? spec.name).any spec.same = true ↔ spec.props.EveryBound (· ≠ .nan) := by
    intro spec hmem
    rw [hc.component?_name hmem, Option.any_some, ComponentSpec.same,
      ← Schema.same_self_iff (hw _ (List.mem_append_left _ (List.mem_map_of_mem hmem)))]
    simp
  have haction : ∀ spec ∈ c.actions,
      (c.action? spec.name).any spec.same = true ↔ spec.params.EveryBound (· ≠ .nan) := by
    intro spec hmem
    rw [hc.action?_name hmem, Option.any_some, ActionSpec.same,
      ← Schema.same_self_iff (hw _ (List.mem_append_right _ (List.mem_map_of_mem hmem)))]
    simp
  simp only [same, shapes, decide_true, Bool.true_and, Bool.and_true, Bool.and_eq_true,
    List.all_eq_true, List.forall_mem_append, List.forall_mem_map]
  exact and_congr (forall₂_congr hcomponent) (forall₂_congr haction)

/-! ## Making a catalog -/

end Catalog

namespace Sample

/-- A grid has up to four columns, and cells that are full, empty, or not known. -/
def grid : ComponentSpec where
  name := "Grid"
  props := .object [
    ("columns",
      .optional (.number (some (.finite (.ofInt 1))) (some (.finite (.ofInt 4))))
        (some (.number (.int 2)))),
    ("cells", .array (.nullable (.oneOf ["full", "empty"])))]
  acceptsChildren := true

def clearCell : ActionSpec where
  name := "clear"
  description := "Clears a cell"
  params := .object [("cell", .number (some (.finite .zero)) none)]

/-- Grids, whose cells can be cleared. -/
def grids : Catalog := ⟨[badge freeText, grid], [clearCell]⟩

theorem create_grids : Catalog.create [badge freeText, grid] [clearCell] = .ok grids := rfl

theorem wellFormed_grids : grids.WellFormed := by
  have hbadges := wellFormed_badges wellFormed_freeText
  intro s hs
  rcases List.mem_cons.1 hs with rfl | hs
  · exact hbadges _ List.mem_cons_self
  · rcases List.mem_cons.1 hs with rfl | hs
    · refine ⟨by decide, ⟨trivial, ?_⟩, trivial, trivial⟩
      rintro _ ⟨⟩
      exact ⟨by decide, by decide⟩
    · cases List.mem_singleton.1 hs
      exact ⟨List.nodup_singleton _, trivial, trivial⟩

theorem finite_grids : ∀ s ∈ grids.shapes, s.EveryBound Bound.IsFinite := by
  intro s hs
  rcases List.mem_cons.1 hs with rfl | hs
  · exact ⟨trivial, trivial⟩
  · rcases List.mem_cons.1 hs with rfl | hs
    · exact ⟨⟨by simp [Bound.IsFinite], by simp [Bound.IsFinite]⟩, trivial, trivial⟩
    · cases List.mem_singleton.1 hs
      exact ⟨⟨by simp [Bound.IsFinite], nofun⟩, trivial⟩

end Sample

/-- A bound that is no number is no mistake, but keeps a catalog from equalling itself. -/
example : let c : Catalog := ⟨[], [⟨"set", "Sets a level", .number (some .nan) none⟩]⟩
    Catalog.create c.components c.actions = .ok c ∧ c.same c = false := ⟨rfl, rfl⟩

/-- A bad default comes before a repeated name, and both before mistakes of actions. -/
example : Catalog.create
    [Sample.grid, ⟨"Grid", .object [("size", .optional (.oneOf ["s"]) (some .null))], false⟩]
    [⟨"clear", "", .oneOf []⟩] =
      .error (.defectiveShape "Grid" [.field "size"]
        (.invalidDefault [⟨[], .mismatch (.oneOf ["s"]) (some .null)⟩])) := rfl

namespace Catalog

/-! ## Everything on offer can be given -/

/-- For every component of a catalog whose bounds are finite there are props that are accepted
strictly, for every action there are such params, and every shape with finite bounds that is found
without a defect accepts something: its specimen. -/
theorem specimens_accepted {components : List ComponentSpec} {actions : List ActionSpec}
    {c : Catalog} (hc : create components actions = .ok c) (hw : c.WellFormed)
    (hb : ∀ s ∈ c.shapes, s.EveryBound Bound.IsFinite) :
    (∀ spec ∈ c.components, ∃ given, spec.props.specimen = .object given ∧
      (Value.object given).WellFormed ∧
      ∃ props, c.validateProps true spec.name (.object given) = .ok props) ∧
    (∀ action ∈ c.actions, action.params.specimen.WellFormed ∧
      ∃ params, action.params.validate true (some action.params.specimen) = .ok params) ∧
    ∀ s : Schema, s.WellFormed → s.EveryBound Bound.IsFinite → s.lint [] = .ok () →
      s.specimen.WellFormed ∧ ∃ v, s.validate true (some s.specimen) = .ok v := by
  obtain ⟨-, hsound⟩ := create_ok_iff.1 hc
  have hspecimen (s : Schema) (hs : s.Sound) (hbounds : s.EveryBound Bound.IsFinite)
      (hwell : s.WellFormed) :
      s.specimen.WellFormed ∧ ∃ v, s.validate true (some s.specimen) = .ok v :=
    (hs.accepts_specimen hbounds hwell).imp_right fun h => h.imp fun _ => Schema.validate_ok_iff.2
  refine ⟨fun spec hmem => ?_, fun action hmem => ?_, fun s hwell hbounds hlint => ?_⟩
  · obtain ⟨fields, hfields⟩ := hsound.props_object spec hmem
    have hshape : spec.props ∈ c.shapes := List.mem_append_left _ (List.mem_map_of_mem hmem)
    obtain ⟨hwell, v, hv⟩ :=
      hspecimen _ (hsound.shapes_sound _ hshape) (hb _ hshape) (hw _ hshape)
    have hgiven : spec.props.specimen = .object (Schema.specimenFields fields) := by
      rw [hfields, Schema.specimen]
    refine ⟨_, hgiven, hgiven ▸ hwell, ?_⟩
    rw [validateProps, hsound.component?_name hmem, ← hgiven]
    dsimp only
    rw [hv]
    cases v <;> exact ⟨_, rfl⟩
  · have hshape : action.params ∈ c.shapes :=
      List.mem_append_right _ (List.mem_map_of_mem hmem)
    exact hspecimen _ (hsound.shapes_sound _ hshape) (hb _ hshape) (hw _ hshape)
  · exact hspecimen s (Schema.lint_ok_iff.1 hlint) hbounds hwell

end Catalog

/-- There are props for a grid, and params for clearing one of its cells. -/
theorem Catalog.specimens_accepted_grids :
    Catalog.create [Sample.badge Sample.freeText, Sample.grid] [Sample.clearCell] =
        .ok Sample.grids ∧
      Sample.grids.WellFormed ∧
      (∀ s ∈ Sample.grids.shapes, s.EveryBound Bound.IsFinite) ∧
      (∃ props, Sample.grids.validateProps true "Grid"
        (.object [("columns", .number (.double (.ofInt 1))), ("cells", .array [])]) = .ok props) ∧
      ∃ params, Sample.clearCell.params.validate true
        (some (.object [("cell", .number (.double .zero))])) = .ok params := by
  obtain ⟨hcomponents, hactions, -⟩ :=
    Catalog.specimens_accepted Sample.create_grids Sample.wellFormed_grids Sample.finite_grids
  obtain ⟨_, ⟨⟩, -, hprops⟩ := hcomponents Sample.grid (by simp [Sample.grids])
  obtain ⟨-, hparams⟩ := hactions Sample.clearCell List.mem_cons_self
  exact ⟨Sample.create_grids, Sample.wellFormed_grids, Sample.finite_grids, hprops, hparams⟩

end CatalogUi
