import CatalogUi.Validation
import CatalogUi.Proofs.Condition
import CatalogUi.Proofs.Refusal

/-!
When there is nothing wrong with an element on its own, and what its node then says. An element
without a node always has a finding, so that no element can be left out in silence.
-/

namespace CatalogUi

/-- The type at the place of a name is the type of that name. -/
theorem Catalog.component?_eq_bind (c : Catalog) (name : String) :
    c.component? name = (c.kind? name).bind c.componentOfKind? := by
  rw [component?, List.find?_eq_bind_findIdx?_getElem?, kind?]
  cases c.components.findIdx? (·.name = name) <;> rfl

theorem Catalog.name_of_component? {c : Catalog} {name : String} {spec : ComponentSpec}
    (h : c.component? name = some spec) : spec.name = name := by
  simpa using List.find?_some h

theorem Catalog.exists_componentOfKind? {c : Catalog} {name : String} {kind : ComponentKind}
    (h : c.kind? name = some kind) :
    ∃ spec, c.componentOfKind? kind = some spec ∧ c.component? name = some spec := by
  obtain ⟨index, hindex, rfl⟩ := Option.map_eq_some_iff.1 h
  obtain ⟨hlt, -, -⟩ := List.findIdx?_eq_some_iff_getElem.1 hindex
  refine ⟨c.components[index], List.getElem?_eq_getElem hlt, ?_⟩
  rw [component?_eq_bind, h]
  exact List.getElem?_eq_getElem hlt

/-- The kind of a type is the first place of its name. -/
theorem Catalog.notMem_take_of_kind? {c : Catalog} {name : String} {kind : ComponentKind}
    (h : c.kind? name = some kind) : name ∉ (c.components.take kind.index).map (·.name) := by
  obtain ⟨index, hindex, rfl⟩ := Option.map_eq_some_iff.1 h
  obtain ⟨_, -, hfirst⟩ := List.findIdx?_eq_some_iff_getElem.1 hindex
  intro hmem
  obtain ⟨spec, hspec, hname⟩ := List.mem_map.1 hmem
  obtain ⟨earlier, hlt, rfl⟩ := List.mem_take_iff_getElem.1 hspec
  exact hfirst earlier (Nat.lt_of_lt_of_le hlt (Nat.min_le_left ..)) (decide_eq_true hname)

theorem Catalog.exists_kind? {c : Catalog} {name : String} {spec : ComponentSpec}
    (h : c.component? name = some spec) :
    ∃ kind, c.kind? name = some kind ∧ c.componentOfKind? kind = some spec := by
  rw [component?_eq_bind] at h
  exact Option.bind_eq_some_iff.1 h

theorem Catalog.exists_kind?_name {c : Catalog} {spec : ComponentSpec} (h : spec ∈ c.components) :
    ∃ kind, c.kind? spec.name = some kind := by
  cases hfound : c.component? spec.name with
  | none =>
    rw [component?, List.find?_eq_none] at hfound
    exact (hfound spec h (decide_eq_true rfl)).elim
  | some found => exact (exists_kind? hfound).imp fun _ => And.left

/-- Props of a known type are refused for a reason. -/
theorem Catalog.exists_invalid {c : Catalog} {strict : Bool} {type : String} {props : Value}
    {spec : ComponentSpec} {e : PropsError} (hspec : c.component? type = some spec)
    (h : c.validateProps strict type props = .error e) :
    ∃ errors, e = .invalid errors ∧ errors ≠ [] := by
  rw [validateProps, hspec] at h
  dsimp only at h
  cases hprops : spec.props.validate strict (some props) with
  | ok value =>
    rw [hprops] at h
    cases value <;> cases h
  | error errors =>
    rw [hprops] at h
    cases h
    exact ⟨errors, rfl, spec.props.justified_validate strict (some props) errors hprops⟩

/-- An element fits a catalog: its type is known and takes its props and its children, and its
condition can be compiled. -/
structure Element.Fits (catalog : Catalog) (config : Config) (e : Element) : Prop where
  type_known : ∃ spec, catalog.component? e.type = some spec
  props_accepted : ∃ props,
    catalog.validateProps config.rejectUnknownProps e.type e.props = .ok props
  children_allowed : e.children ≠ [] →
    ∃ spec, catalog.component? e.type = some spec ∧ spec.acceptsChildren = true
  condition_fits : ∀ c, e.visible = some c → c.FitsWithin config.maxConditionDepth

/-- A node says what its element says, with the props and the condition made ready. -/
structure Node.Represents (catalog : Catalog) (config : Config) (n : Node) (e : Element) :
    Prop where
  key : n.key = e.key
  type : n.type = e.type
  kind : catalog.kind? e.type = some n.kind
  props : catalog.validateProps config.rejectUnknownProps e.type e.props = .ok n.props
  children : n.children = e.children
  parent : n.parent = e.parentKey
  visibility : match e.visible with
    | none => n.visibility = none
    | some c => ∃ v, c.compile config.maxConditionDepth = .ok v ∧ n.visibility = some v

namespace Validation

variable {catalog : Catalog} {config : Config} {e : Element}

theorem checkProps_ok_iff {props : List (String × Value)} :
    checkProps catalog config e = .ok props ↔
      catalog.validateProps config.rejectUnknownProps e.type e.props = .ok props := by
  rw [checkProps]
  cases catalog.validateProps config.rejectUnknownProps e.type e.props with
  | ok props' => simp
  | error error => cases error <;> simp

theorem childrenFindings_eq_nil_iff {spec : ComponentSpec} :
    childrenFindings spec e = [] ↔ (e.children ≠ [] → spec.acceptsChildren = true) := by
  rw [childrenFindings]
  cases spec.acceptsChildren <;> cases e.children <;> simp

theorem checkCondition_ok_iff :
    (∃ visibility, checkCondition config e = .ok visibility) ↔
      ∀ c, e.visible = some c → c.FitsWithin config.maxConditionDepth := by
  rw [checkCondition]
  cases e.visible with
  | none => simp
  | some c =>
    have hc := c.compile_ok_iff config.maxConditionDepth
    simp only [Option.some.injEq, forall_eq', ← hc]
    cases c.compile config.maxConditionDepth with
    | ok v => simp
    | error issues => simp

theorem checkProps_error_ne_nil {spec : ComponentSpec}
    (hspec : catalog.component? e.type = some spec) {findings : List Finding}
    (h : checkProps catalog config e = .error findings) : findings ≠ [] := by
  rw [checkProps] at h
  cases hprops : catalog.validateProps config.rejectUnknownProps e.type e.props with
  | ok props =>
    rw [hprops] at h
    cases h
  | error error =>
    obtain ⟨errors, rfl, hne⟩ := Catalog.exists_invalid hspec hprops
    rw [hprops] at h
    cases h
    exact fun hnil => hne (List.map_eq_nil_iff.1 hnil)

theorem checkCondition_error_ne_nil {findings : List Finding}
    (h : checkCondition config e = .error findings) : findings ≠ [] := by
  rw [checkCondition] at h
  cases hvisible : e.visible with
  | none =>
    rw [hvisible] at h
    cases h
  | some c =>
    rw [hvisible] at h
    cases hc : c.compile config.maxConditionDepth with
    | ok v =>
      simp only [hc] at h
      cases h
    | error issues =>
      simp only [hc] at h
      cases h
      exact fun hnil => Condition.compile_error_ne_nil hc (List.map_eq_nil_iff.1 hnil)

/-- All parts of a check go well. -/
structure Passes (catalog : Catalog) (config : Config) (e : Element) (kind : ComponentKind)
    (spec : ComponentSpec) (props : List (String × Value)) (visibility : Option Visibility) :
    Prop where
  kind_known : catalog.kind? e.type = some kind
  spec_known : catalog.component? e.type = some spec
  props_ok : checkProps catalog config e = .ok props
  condition_ok : checkCondition config e = .ok visibility
  children_ok : childrenFindings spec e = []

theorem Passes.checkElement_eq {kind : ComponentKind} {spec : ComponentSpec}
    {props : List (String × Value)} {visibility : Option Visibility}
    (h : Passes catalog config e kind spec props visibility) :
    checkElement catalog config e = .ok (nodeOf e kind spec props visibility) := by
  obtain ⟨spec', hspec', htype⟩ := Catalog.exists_componentOfKind? h.kind_known
  rw [h.spec_known] at htype
  cases htype
  simp only [checkElement, h.kind_known, hspec', h.props_ok, h.condition_ok, h.children_ok]
  rfl

/-- All parts of the check of an element go well, or there is a finding. -/
theorem checkElement_cases (catalog : Catalog) (config : Config) (e : Element) :
    (∃ kind spec props visibility, Passes catalog config e kind spec props visibility) ∨
    ∃ findings, checkElement catalog config e = .error findings ∧ findings ≠ [] := by
  cases hkind : catalog.kind? e.type with
  | none =>
    simp only [checkElement, hkind]
    exact Or.inr ⟨_, rfl, List.cons_ne_nil _ _⟩
  | some kind =>
    obtain ⟨spec, hspec, htype⟩ := Catalog.exists_componentOfKind? hkind
    cases hprops : checkProps catalog config e with
    | error errors =>
      have hne := checkProps_error_ne_nil htype hprops
      simp only [checkElement, hkind, hspec, hprops]
      cases checkCondition config e with
      | ok visibility => exact Or.inr ⟨_, rfl, List.append_ne_nil_of_left_ne_nil hne _⟩
      | error issues =>
        refine Or.inr ⟨_, rfl, List.append_ne_nil_of_left_ne_nil ?_ _⟩
        exact List.append_ne_nil_of_left_ne_nil hne _
    | ok props =>
      cases hcondition : checkCondition config e with
      | error issues =>
        have hne := checkCondition_error_ne_nil hcondition
        simp only [checkElement, hkind, hspec, hprops, hcondition]
        exact Or.inr ⟨_, rfl, List.append_ne_nil_of_right_ne_nil _ hne⟩
      | ok visibility =>
        cases hchildren : childrenFindings spec e with
        | nil =>
          exact Or.inl ⟨kind, spec, props, visibility, hkind, htype, hprops, hcondition, hchildren⟩
        | cons finding rest =>
          simp only [checkElement, hkind, hspec, hprops, hcondition, hchildren]
          exact Or.inr ⟨_, rfl, List.cons_ne_nil _ _⟩

theorem checkElement_error_ne_nil {findings : List Finding}
    (h : checkElement catalog config e = .error findings) : findings ≠ [] := by
  rcases checkElement_cases catalog config e with ⟨_, _, _, _, hpasses⟩ | ⟨_, herror, hne⟩
  · rw [hpasses.checkElement_eq] at h
    cases h
  · rw [herror] at h
    cases h
    exact hne

theorem exists_passes {n : Node} (h : checkElement catalog config e = .ok n) :
    ∃ kind spec props visibility, Passes catalog config e kind spec props visibility ∧
      n = nodeOf e kind spec props visibility := by
  rcases checkElement_cases catalog config e with
    ⟨kind, spec, props, visibility, hpasses⟩ | ⟨_, herror, -⟩
  · rw [hpasses.checkElement_eq] at h
    cases h
    exact ⟨kind, spec, props, visibility, hpasses, rfl⟩
  · rw [herror] at h
    cases h

/-- An element has a node just when it fits. -/
theorem exists_checkElement_iff :
    (∃ n, checkElement catalog config e = .ok n) ↔ e.Fits catalog config := by
  constructor
  · rintro ⟨n, h⟩
    obtain ⟨kind, spec, props, visibility, hpasses, -⟩ := exists_passes h
    exact {
      type_known := ⟨spec, hpasses.spec_known⟩
      props_accepted := ⟨props, checkProps_ok_iff.1 hpasses.props_ok⟩
      children_allowed := fun hne =>
        ⟨spec, hpasses.spec_known, childrenFindings_eq_nil_iff.1 hpasses.children_ok hne⟩
      condition_fits := checkCondition_ok_iff.1 ⟨visibility, hpasses.condition_ok⟩ }
  · intro h
    obtain ⟨spec, hspec⟩ := h.type_known
    obtain ⟨kind, hkind, -⟩ := Catalog.exists_kind? hspec
    obtain ⟨props, hprops⟩ := h.props_accepted
    obtain ⟨visibility, hcondition⟩ := checkCondition_ok_iff.2 h.condition_fits
    have hchildren : childrenFindings spec e = [] := by
      apply childrenFindings_eq_nil_iff.2
      intro hne
      obtain ⟨spec', hspec', haccepts⟩ := h.children_allowed hne
      rw [hspec] at hspec'
      cases hspec'
      exact haccepts
    have hpasses : Passes catalog config e kind spec props visibility :=
      ⟨hkind, hspec, checkProps_ok_iff.2 hprops, hcondition, hchildren⟩
    exact ⟨_, hpasses.checkElement_eq⟩

theorem elementFindings_eq_nil_iff :
    elementFindings catalog config e = [] ↔ e.Fits catalog config := by
  rw [← exists_checkElement_iff, elementFindings]
  cases h : checkElement catalog config e with
  | ok n => simp
  | error findings => simp [checkElement_error_ne_nil h]

theorem represents_of_checkElement {n : Node} (h : checkElement catalog config e = .ok n) :
    n.Represents catalog config e := by
  obtain ⟨kind, spec, props, visibility, hpasses, rfl⟩ := exists_passes h
  refine ⟨rfl, rfl, hpasses.kind_known, checkProps_ok_iff.1 hpasses.props_ok, rfl, rfl, ?_⟩
  have hcondition := hpasses.condition_ok
  rw [checkCondition] at hcondition
  cases hvisible : e.visible with
  | none =>
    rw [hvisible] at hcondition
    cases hcondition
    rfl
  | some c =>
    rw [hvisible] at hcondition
    cases hc : c.compile config.maxConditionDepth with
    | ok v =>
      simp only [hc] at hcondition
      cases hcondition
      exact ⟨v, hc, rfl⟩
    | error issues =>
      simp only [hc] at hcondition
      cases hcondition

end Validation

end CatalogUi
