import CatalogUi.Proofs.Parts
import CatalogUi.Proofs.Shape

/-!
The bindings of validated nodes. A prop that is declared as a path addresses the data store. Whatever
stands in it once the props are checked is null or the text of a path, also when it is a default; so
no such text is lost when the paths are collected.
-/

namespace CatalogUi

/-- A value that a prop declared as a path may hold: null, or the text of a path. -/
def Value.IsBindable (v : Value) : Prop :=
  v = .null ∨ ∃ text p, v = .string text ∧ Path.parse text = .ok p

/-- A node has all its bindings, given the declared props. -/
structure Node.BindsAll (n : Node) (fields : List (String × Schema)) : Prop where
  /-- They stand in the order in which the props are declared. -/
  ordered : (Entries.names n.bindings).Sublist (Entries.names fields)
  distinct : Entries.Distinct n.bindings
  /-- What is bound is declared as a path, and is bound to the path whose text it holds. -/
  declared : ∀ name p, (name, p) ∈ n.bindings → ∃ s, (name, s) ∈ fields ∧ s.core = .path ∧
    ∃ text, Entries.get? n.props name = some (.string text) ∧ Path.parse text = .ok p
  /-- A text in a prop that is declared as a path is always the text of a path, and is bound. -/
  bound : ∀ field ∈ fields, field.2.core = .path →
    ∀ text, Entries.get? n.props field.1 = some (.string text) →
      ∃ p, Path.parse text = .ok p ∧ (field.1, p) ∈ n.bindings
  /-- There is no binding only for props that are absent or null. -/
  unbound : ∀ field ∈ fields, field.2.core = .path → field.1 ∉ Entries.names n.bindings →
    Entries.get? n.props field.1 = none ∨ Entries.get? n.props field.1 = some .null

namespace Schema

variable {strict : Bool} {s : Schema} {fields : List (String × Schema)} {value : Option Value}
  {v w : Value}

/-- A binding is a path, whatever marks are around it. -/
theorem isBinding_iff : s.isBinding = true ↔ s.core = .path := by
  induction s using Schema.induct with
  | plain s hs => cases s <;> first | exact hs.elim | simp [isBinding, core]
  | array items => exact iff_of_false nofun nofun
  | object fields => exact iff_of_false nofun nofun
  | optional inner default ih => exact ih
  | nullable inner ih => exact ih

theorem Turns.of_path (hs : s.core = .path) (h : Turns strict s v w) : v = w ∧ w.IsBindable := by
  cases h with
  | null => exact ⟨rfl, .inl rfl⟩
  | leaf htakes =>
    rw [hs] at htakes
    cases v with
    | string text =>
      obtain ⟨p, hp⟩ := htakes
      exact ⟨rfl, .inr ⟨text, p, rfl, hp⟩⟩
    | _ => exact htakes.elim
  | array hcore => cases hs.symm.trans hcore
  | object hcore => cases hs.symm.trans hcore

/-- What is given for a path, be it a default, can be bound. -/
theorem Gives.of_path (hsound : s.Sound) (hwf : s.WellFormed) (hs : s.core = .path)
    (h : s.Gives strict value (some w)) : w.IsBindable := by
  cases value with
  | some v => exact ((h.turns hwf).of_path hs).2
  | none =>
    -- A default is put in place unchecked; that it is a path is known from the lint.
    obtain ⟨w', hw'⟩ := hsound.accepts_standIn (gives_none_iff.1 h).2.symm
    obtain ⟨rfl, hbindable⟩ := (hw'.turns hwf).of_path hs
    exact hbindable

end Schema

namespace ComponentSpec

variable {spec : ComponentSpec} {fields : List (String × Schema)}

theorem bindingProps_eq (h : spec.props = .object fields) :
    spec.bindingProps = Entries.names (fields.filter fun entry => entry.2.isBinding) := by
  rw [bindingProps, h]
  rfl

/-- The binding props stand in the order in which the props are declared. -/
theorem bindingProps_sublist (h : spec.props = .object fields) :
    spec.bindingProps.Sublist (Entries.names fields) := by
  rw [bindingProps_eq h]
  exact List.filter_sublist.map _

theorem mem_bindingProps_iff (h : spec.props = .object fields) {name : String} :
    name ∈ spec.bindingProps ↔ ∃ s, (name, s) ∈ fields ∧ s.core = .path := by
  simp [bindingProps_eq h, Entries.names, Schema.isBinding_iff]

end ComponentSpec

namespace Validation

variable {c : Catalog} {config : Config} {e : Element} {kind : ComponentKind} {spec : ComponentSpec}
  {props : List (String × Value)} {visibility : Option Visibility}
  {fields : List (String × Schema)} {name : String} {p : Path}

/-- The binding of one prop. -/
def binding? (props : List (String × Value)) (name : String) : Option (String × Path) :=
  match Entries.get? props name with
  | some (.string text) =>
    match Path.parse text with
    | .ok p => some (name, p)
    | .error _ => none
  | _ => none

theorem bindingsOf_eq : bindingsOf spec props = spec.bindingProps.filterMap (binding? props) := rfl

theorem binding?_eq_some_iff {entry : String × Path} : binding? props name = some entry ↔
    entry.1 = name ∧
      ∃ text, Entries.get? props name = some (.string text) ∧ Path.parse text = .ok entry.2 := by
  obtain ⟨key, p⟩ := entry
  unfold binding?
  split
  · rename_i text hget
    cases hp : Path.parse text <;> simp [hget, hp, eq_comm]
  · rename_i hne
    refine iff_of_false (Option.some_ne_none _).symm ?_
    rintro ⟨-, text, hget, -⟩
    exact hne text hget

theorem mem_bindingsOf_iff : (name, p) ∈ bindingsOf spec props ↔
    name ∈ spec.bindingProps ∧
      ∃ text, Entries.get? props name = some (.string text) ∧ Path.parse text = .ok p := by
  rw [bindingsOf_eq, List.mem_filterMap]
  simp only [binding?_eq_some_iff]
  constructor
  · rintro ⟨_, hmem, rfl, htext⟩
    exact ⟨hmem, htext⟩
  · rintro ⟨hmem, htext⟩
    exact ⟨name, hmem, rfl, htext⟩

theorem names_filterMap_binding?_sublist (names : List String) :
    (Entries.names (names.filterMap (binding? props))).Sublist names := by
  induction names with
  | nil => exact .slnil
  | cons name rest ih =>
    cases h : binding? props name with
    | none =>
      rw [List.filterMap_cons_none h]
      exact ih.cons name
    | some entry =>
      rw [List.filterMap_cons_some h, Entries.names_cons, (binding?_eq_some_iff.1 h).1]
      exact ih.cons_cons name

/-- Props that are declared as an object are an object, and checked field by field. -/
theorem Passes.gives (h : Passes c config e kind spec props visibility)
    (hspec : spec.props = .object fields) (hd : Entries.Distinct fields) :
    ∃ given, e.props = .object given ∧ ∀ field ∈ fields,
      field.2.Gives config.rejectUnknownProps (Entries.get? given field.1)
        (Entries.get? props field.1) := by
  have hprops := checkProps_ok_iff.1 h.props_ok
  rw [Catalog.validateProps, h.spec_known] at hprops
  dsimp only at hprops
  cases hvalid : spec.props.validate config.rejectUnknownProps (some e.props) with
  | error errors =>
    rw [hvalid] at hprops
    cases hprops
  | ok w =>
    have hgives := hvalid
    rw [Schema.validate_ok_iff, hspec, Schema.gives_object hd] at hgives
    obtain ⟨given, out, heq, hout, -, -, hgives⟩ := hgives
    cases hout
    rw [hvalid] at hprops
    cases hprops
    exact ⟨given, Option.some.inj heq, hgives⟩

/-- The node of an element has all its bindings. -/
theorem bindsAll_nodeOf (hspec : spec.props = .object fields) (hd : Entries.Distinct fields)
    (hpaths : ∀ field ∈ fields, field.2.core = .path →
      ∀ w, Entries.get? props field.1 = some w → w.IsBindable) :
    (nodeOf e kind spec props visibility).BindsAll fields := by
  have hordered : (Entries.names (bindingsOf spec props)).Sublist (Entries.names fields) :=
    (names_filterMap_binding?_sublist spec.bindingProps).trans (spec.bindingProps_sublist hspec)
  have hbound : ∀ field ∈ fields, field.2.core = .path →
      ∀ text, Entries.get? props field.1 = some (.string text) →
        ∃ p, Path.parse text = .ok p ∧ (field.1, p) ∈ bindingsOf spec props := by
    intro field hmem hcore text hget
    rcases hpaths field hmem hcore _ hget with hnull | ⟨_, p, heq, hp⟩
    · cases hnull
    · cases heq
      have hname := (ComponentSpec.mem_bindingProps_iff hspec).2 ⟨field.2, hmem, hcore⟩
      exact ⟨p, hp, mem_bindingsOf_iff.2 ⟨hname, text, hget, hp⟩⟩
  refine ⟨hordered, hd.sublist hordered, ?declared, hbound, ?unbound⟩
  case declared =>
    intro name p hmem
    obtain ⟨hname, htext⟩ := mem_bindingsOf_iff.1 hmem
    obtain ⟨s, hs, hcore⟩ := (ComponentSpec.mem_bindingProps_iff hspec).1 hname
    exact ⟨s, hs, hcore, htext⟩
  case unbound =>
    intro field hmem hcore hmissing
    cases hget : Entries.get? props field.1 with
    | none => exact .inl hget
    | some w =>
      rcases hpaths field hmem hcore w hget with rfl | ⟨text, _, rfl, -⟩
      · exact .inr hget
      · obtain ⟨p, -, hbinding⟩ := hbound field hmem hcore text hget
        exact (hmissing (Entries.mem_names_of_mem hbinding)).elim

end Validation

/-- In a catalog that was made, no binding of a node is lost. Each stands in the declared order, and a
default that stands in for a prop that was left out is bound like any other text. -/
theorem Tree.bindings_of_validate {components : List ComponentSpec} {actions : List ActionSpec}
    {c : Catalog} (hc : Catalog.create components actions = .ok c) (hwf : c.WellFormed) {t : Tree}
    {config : Config} {v : ValidatedTree} (h : t.validate c config = .ok v) {key : String} {n : Node}
    (hn : v.node? key = some n) :
    ∃ spec fields e given, c.component? n.type = some spec ∧ spec.props = .object fields ∧
      t.element? key = some e ∧ e.props = .object given ∧ n.BindsAll fields ∧
      ∀ field ∈ fields, field.2.core = .path → Entries.get? given field.1 = none →
        Entries.get? n.props field.1 = field.2.standIn? ∧
        ∀ text, field.2.standIn? = some (.string text) →
          ∃ p, Path.parse text = .ok p ∧ (field.1, p) ∈ n.bindings := by
  obtain ⟨e, he, hcheck⟩ := exists_checkElement_of_validate h hn
  obtain ⟨kind, spec, props, visibility, hpasses, rfl⟩ := Validation.exists_passes hcheck
  have hmem := List.mem_of_find?_eq_some hpasses.spec_known
  have hsound := (Catalog.create_ok_iff.1 hc).2
  obtain ⟨fields, hspec⟩ := hsound.props_object spec hmem
  have hshape : spec.props ∈ c.shapes := List.mem_append_left _ (List.mem_map_of_mem hmem)
  have hfields := hsound.shapes_sound _ hshape
  have hwfields := hwf _ hshape
  rw [hspec] at hfields hwfields
  rw [Schema.sound_object_iff] at hfields
  obtain ⟨hd, hwfields⟩ := Schema.wellFormed_object_iff.1 hwfields
  obtain ⟨given, hgiven, hgives⟩ := hpasses.gives hspec hd
  have hbinds : (Validation.nodeOf e kind spec props visibility).BindsAll fields := by
    refine Validation.bindsAll_nodeOf hspec hd fun field hfield hcore w hw => ?_
    have hvalue := hgives field hfield
    rw [hw] at hvalue
    exact hvalue.of_path (hfields field hfield) (hwfields field hfield) hcore
  refine ⟨spec, fields, e, given, hpasses.spec_known, hspec, he, hgiven, hbinds, ?_⟩
  intro field hfield hcore habsent
  have hdefault := hgives field hfield
  rw [habsent, Schema.gives_none_iff] at hdefault
  refine ⟨hdefault.2, fun text htext => ?_⟩
  exact hbinds.bound field hfield hcore text (hdefault.2.trans htext)

namespace Sample

/-- A gauge shows a value, up to a limit, with a unit and a title. The title is a text that is not
bound. -/
def gauge : ComponentSpec where
  name := "Gauge"
  props := .object [("title", .string),
    ("value", .nullable (.optional .path (some (.string "/cpu")))),
    ("unit", .optional (.nullable .path) none), ("limit", .optional .path none)]
  acceptsChildren := false

/-- A single gauge without value and without unit. -/
def gaugeTree : Tree :=
  .ofElements "gauge" [
    ⟨"gauge", "Gauge",
      .object [("unit", .null), ("limit", .string "/limits/cpu"), ("title", .string "/cpu")], [],
      none, none⟩]

/-- The value is bound to the default, and the limit to what was given. -/
def gaugePage : ValidatedTree where
  root := "gauge"
  nodes := [
    ("gauge", ⟨"gauge", "Gauge", ⟨0⟩,
      [("title", .string "/cpu"), ("value", .string "/cpu"), ("unit", .null),
        ("limit", .string "/limits/cpu")], [], none, none,
      [("value", ⟨[⟨"cpu", by decide⟩]⟩), ("limit", ⟨[⟨"limits", by decide⟩, ⟨"cpu", by decide⟩]⟩)],
      none⟩)]

theorem validate_gaugeTree : gaugeTree.validate ⟨[gauge], []⟩ Config.default = .ok gaugePage := by
  cbv

theorem wellFormed_gauge : Catalog.WellFormed ⟨[gauge], []⟩ := by
  intro s hs
  cases List.mem_singleton.1 hs
  refine ⟨by decide, trivial, ⟨trivial, ?_⟩, ⟨trivial, nofun⟩, ⟨trivial, nofun⟩, trivial⟩
  rintro _ ⟨⟩
  trivial

end Sample

/-- The gauge has a binding for its value, from the default, and one for its limit. -/
theorem Tree.bindings_of_validate_gauge :
    Catalog.create [Sample.gauge] [] = .ok ⟨[Sample.gauge], []⟩ ∧
    Catalog.WellFormed ⟨[Sample.gauge], []⟩ ∧
    Sample.gaugeTree.validate ⟨[Sample.gauge], []⟩ Config.default = .ok Sample.gaugePage ∧
    ∃ n fields, Sample.gaugePage.node? "gauge" = some n ∧ Sample.gauge.props = .object fields ∧
      n.BindsAll fields ∧ Entries.names n.bindings = ["value", "limit"] ∧
      ∃ p, Path.parse "/cpu" = .ok p ∧ ("value", p) ∈ n.bindings := by
  have hc : Catalog.create [Sample.gauge] [] = .ok ⟨[Sample.gauge], []⟩ := rfl
  have hn : ∃ n, Sample.gaugePage.node? "gauge" = some n ∧
      Entries.names n.bindings = ["value", "limit"] := ⟨_, rfl, rfl⟩
  obtain ⟨n, hn, hnames⟩ := hn
  obtain ⟨_, fields, e, given, hspec, hfields, he, hgiven, hbinds, hdefaults⟩ :=
    bindings_of_validate hc Sample.wellFormed_gauge Sample.validate_gaugeTree hn
  cases hn
  cases hspec
  cases hfields
  cases he
  cases hgiven
  obtain ⟨-, hdefault⟩ := hdefaults ("value", .nullable (.optional .path (some (.string "/cpu"))))
    (by simp) rfl rfl
  exact ⟨hc, Sample.wellFormed_gauge, Sample.validate_gaugeTree, _, _, rfl, rfl, hbinds, hnames,
    hdefault "/cpu" rfl⟩

end CatalogUi
