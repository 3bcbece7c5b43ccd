import CatalogUi.Catalog
import CatalogUi.Proofs.Bounds

/-!
Definitions without defects. A catalog is made just when the names of its components and of its
actions are all different, the props of every component are an object, and no shape has a defect:
no empty choice, no bounds the wrong way round, and no default that its own shape refuses. A shape
without defects whose bounds are finite always accepts something.
-/

namespace CatalogUi

namespace Schema

/-- A value is accepted. -/
def Accepts (strict : Bool) (s : Schema) (v : Value) : Prop :=
  ∃ w, s.Gives strict (some v) (some w)

theorem validate_ok_iff {strict : Bool} {s : Schema} {v w : Value} :
    s.validate strict (some v) = .ok w ↔ s.Gives strict (some v) (some w) := by
  rw [validate, Outcome.map_ok_iff]
  constructor
  · rintro ⟨r, hr, rfl⟩
    obtain ⟨w, rfl⟩ := Gives.exists_some hr
    exact hr
  · intro h
    exact ⟨some w, h, rfl⟩

theorem Accepts.lenient {s : Schema} {v : Value} (hs : s.WellFormed) (strict : Bool)
    (h : s.Accepts true v) : s.Accepts strict v := by
  cases strict with
  | true => exact h
  | false => exact h.imp fun _ => Gives.lenient hs

mutual

/-- There is no defect anywhere in a shape. -/
def Sound : Schema → Prop
  | .number (some min) (some max) => ¬ max < min
  | .oneOf values => values ≠ []
  | .array items => Sound items
  | .object fields => SoundFields fields
  | .optional inner default => Sound inner ∧ ∀ v ∈ default, inner.Accepts true v
  | .nullable inner => Sound inner
  | _ => True

def SoundFields : List (String × Schema) → Prop
  | [] => True
  | (_, s) :: rest => Sound s ∧ SoundFields rest

end

theorem soundFields_iff {fields : List (String × Schema)} :
    SoundFields fields ↔ ∀ field ∈ fields, field.2.Sound := by
  induction fields with
  | nil => simp [SoundFields]
  | cons field rest ih => simp [SoundFields, ih]

theorem sound_object_iff {fields : List (String × Schema)} :
    (object fields).Sound ↔ ∀ field ∈ fields, field.2.Sound := by
  rw [Sound, soundFields_iff]

theorem sound_number_iff {min max : Option Bound} :
    (number min max).Sound ↔ ∀ least ∈ min, ∀ most ∈ max, ¬ most < least := by
  cases min <;> cases max <;> simp [Sound]

theorem lintFields_ok_iff {fields : List (String × Schema)}
    (hfields : ∀ field ∈ fields, ∀ place, lint place field.2 = .ok () ↔ field.2.Sound)
    {place : Place} : lintFields place fields = .ok () ↔ ∀ field ∈ fields, field.2.Sound := by
  induction fields with
  | nil => simp [lintFields]
  | cons field rest ih =>
    obtain ⟨hfield, hrest⟩ := List.forall_mem_cons.1 hfields
    rw [List.forall_mem_cons, ← hfield, ← ih hrest, lintFields]
    cases lint (place ++ [.field field.1]) field.2 <;> simp

/-- No defect is found just when there is none. -/
theorem lint_ok_iff {place : Place} {s : Schema} : lint place s = .ok () ↔ s.Sound := by
  induction s using Schema.induct generalizing place with
  | plain s hs =>
    cases s with
    | number min max =>
      cases min <;> cases max <;> simp [lint, Sound]
    | oneOf values => simp [lint, Sound]
    | string | boolean | path => simp [lint, Sound]
    | _ => exact hs.elim
  | array items ih => exact ih
  | object fields ih =>
    exact (lintFields_ok_iff fun field hmem _ => ih field hmem).trans soundFields_iff.symm
  | optional inner default ih =>
    rw [Sound, ← @ih place, lint.eq_def]
    dsimp only
    cases lint place inner with
    | error e => simp
    | ok u =>
      cases default with
      | none => simp
      | some v =>
        simp only [Accepts, ← validate_ok_iff, Option.mem_some_iff, forall_eq']
        cases inner.validate true (some v) <;> simp
  | nullable inner ih => exact ih

/-! ## Values for shapes without defects -/

theorem wellFormed_arrange {names : List String} (hnames : names.Nodup)
    {value : String → Option Value} (h : ∀ name, ∀ v ∈ value name, v.WellFormed) :
    (Value.object (Entries.arrange names value)).WellFormed := by
  refine Value.wellFormed_object_iff.2 ⟨?_, fun entry hmem => ?_⟩
  · rw [Entries.Distinct, Entries.names_arrange]
    exact hnames.filter _
  · obtain ⟨name, -, hentry⟩ := List.mem_filterMap.1 hmem
    obtain ⟨v, hv, rfl⟩ := Option.map_eq_some_iff.1 hentry
    exact h name v hv

/-- An object that holds just what is given for the declared fields is accepted when all of that
is. -/
theorem exists_gives_arrange {strict : Bool} {fields : List (String × Schema)}
    (hd : Entries.Distinct fields) {value : String → Option Value}
    {P : String × Schema → Option Value → Prop}
    (h : ∀ field ∈ fields, ∃ r, field.2.Gives strict (value field.1) r ∧ P field r) :
    ∃ out, (object fields).Gives strict
        (some (.object (Entries.arrange (Entries.names fields) value))) (some (.object out)) ∧
      ∀ field ∈ fields, P field (Entries.get? out field.1) := by
  refine exists_gives_object hd (fun _ => ?_) fun field hmem => ?_
  · rw [Entries.names_arrange]
    exact List.filter_subset_self _
  · rw [Entries.get?_arrange, if_pos (Entries.mem_names_of_mem hmem)]
    exact h field hmem

mutual

/-- A value that serves as an example of a shape: a bound of a number, the first choice, an object
with all of its declared fields. -/
def specimen : Schema → Value
  | .string => .string ""
  | .number min max =>
    .number (.double (((min.bind Bound.finite?).or (max.bind Bound.finite?)).getD .zero))
  | .boolean => .bool false
  | .oneOf values => .string (values.headD "")
  | .array _ => .array []
  | .path => .string "/"
  | .object fields => .object (specimenFields fields)
  | .optional inner _ => specimen inner
  | .nullable _ => .null

def specimenFields : List (String × Schema) → List (String × Value)
  | [] => []
  | (name, s) :: rest => (name, specimen s) :: specimenFields rest

end

theorem specimenFields_eq (fields : List (String × Schema)) :
    specimenFields fields = fields.map fun field => (field.1, field.2.specimen) := by
  induction fields with
  | nil => rfl
  | cons field rest ih => rw [specimenFields, ih, List.map_cons]

theorem get?_specimenFields {fields : List (String × Schema)} (hd : Entries.Distinct fields)
    {field : String × Schema} (hmem : field ∈ fields) :
    Entries.get? (specimenFields fields) field.1 = some field.2.specimen := by
  rw [specimenFields_eq, Entries.get?_map, hd.get?_of_mem hmem, Option.map_some]

/-- A shape without parts takes its specimen, if it has a choice and its bounds are finite and the
right way round. -/
theorem Sound.takes_specimen {s : Schema} (hs : s.Sound) (hb : s.EveryBound Bound.IsFinite)
    (hplain : s.IsPlain) : s.specimen.WellFormed ∧ s.Takes s.specimen := by
  have hrefl (d : Double) : Bound.finite d ≤ .finite d := Bound.le_self_iff.2 nofun
  cases s with
  | string | boolean => exact ⟨trivial, trivial⟩
  | path => exact ⟨trivial, _, rfl⟩
  | oneOf values =>
    obtain ⟨first, rest, rfl⟩ := List.exists_cons_of_ne_nil hs
    exact ⟨trivial, List.mem_cons_self⟩
  | number min max =>
    refine ⟨trivial, show inBounds min max _ = true from ?_⟩
    obtain ⟨hmin, hmax⟩ := hb
    cases min with
    | none =>
      cases max with
      | none => rfl
      | some max =>
        obtain ⟨most, rfl⟩ := hmax max rfl
        simp [inBounds, Number.toDouble, Bound.finite?, hrefl]
    | some min =>
      obtain ⟨least, rfl⟩ := hmin min rfl
      cases max with
      | none => simp [inBounds, Number.toDouble, Bound.finite?, hrefl]
      | some max =>
        have hle : Bound.finite least ≤ max :=
          (Bound.not_lt_iff (hmin _ rfl).ne_nan (hmax max rfl).ne_nan).1 hs
        simp [inBounds, Number.toDouble, Bound.finite?, hrefl, hle]
  | _ => exact hplain.elim

/-- A shape without defects accepts its specimen when its bounds are finite. -/
theorem Sound.accepts_specimen {s : Schema} (hs : s.Sound) (hb : s.EveryBound Bound.IsFinite)
    (hw : s.WellFormed) : s.specimen.WellFormed ∧ s.Accepts true s.specimen := by
  induction s using Schema.induct with
  | plain s hplain =>
    obtain ⟨hwell, htakes⟩ := hs.takes_specimen hb hplain
    exact ⟨hwell, _, (gives_plain hplain).2 ⟨_, rfl, htakes, rfl⟩⟩
  | array items => exact ⟨trivial, .array [], gives_array.2 ⟨[], [], rfl, rfl, .nil⟩⟩
  | object fields ih =>
    obtain ⟨hd, hfields⟩ := wellFormed_object_iff.1 hw
    rw [sound_object_iff] at hs
    rw [everyBound_object_iff] at hb
    have hnames : Entries.names (specimenFields fields) = Entries.names fields := by
      rw [specimenFields_eq, Entries.names_map]
    constructor
    · refine Value.wellFormed_object_iff.2 ⟨?_, fun entry hmem => ?_⟩
      · rw [Entries.Distinct, hnames]
        exact hd
      · rw [specimenFields_eq] at hmem
        obtain ⟨field, hfield, rfl⟩ := List.mem_map.1 hmem
        exact (ih field hfield (hs field hfield) (hb field hfield) (hfields field hfield)).1
    · -- Nothing but the declared fields is given, and for each of them something it accepts.
      have hgives : ∀ field ∈ fields, ∃ r,
          field.2.Gives true (Entries.get? (specimenFields fields) field.1) r ∧ True := by
        intro field hmem
        obtain ⟨-, w, hgives⟩ := ih field hmem (hs field hmem) (hb field hmem) (hfields field hmem)
        exact ⟨some w, get?_specimenFields hd hmem ▸ hgives, trivial⟩
      obtain ⟨out, hout, -⟩ := exists_gives_object hd (fun _ => hnames ▸ List.Subset.refl _) hgives
      exact ⟨.object out, hout⟩
  | optional inner default ih => exact ih hs.1 hb hw.1
  | nullable inner ih => exact ⟨trivial, .null, gives_nullable_null.2 rfl⟩

/-- A shape without defects accepts some value when its bounds are finite. -/
theorem Sound.exists_accepts {s : Schema} (hs : s.Sound) (hb : s.EveryBound Bound.IsFinite)
    (hw : s.WellFormed) : ∃ v : Value, v.WellFormed ∧ s.Accepts true v :=
  ⟨s.specimen, hs.accepts_specimen hb hw⟩

end Schema

namespace Catalog

/-- The shapes of a catalog: those of the props of its components and of the params of its
actions. -/
def shapes (c : Catalog) : List Schema :=
  c.components.map (·.props) ++ c.actions.map (·.params)

/-- A catalog without defects. -/
structure Sound (c : Catalog) : Prop where
  component_names : (c.components.map (·.name)).Nodup
  action_names : (c.actions.map (·.name)).Nodup
  props_object : ∀ spec ∈ c.components, ∃ fields, spec.props = .object fields
  shapes_sound : ∀ s ∈ c.shapes, s.Sound

/-- The shapes of a catalog declare no field twice, and its defaults hold no field twice. -/
def WellFormed (c : Catalog) : Prop :=
  ∀ s ∈ c.shapes, s.WellFormed

theorem checkShape_ok_iff {owner : String} {s : Schema} :
    checkShape owner s = .ok () ↔ s.Sound := by
  have hlint : s.lint [] = .ok () ↔ s.Sound := Schema.lint_ok_iff
  rw [← hlint, checkShape]
  cases s.lint [] <;> simp

/-- Names that are all different, and different from those in front of them. -/
def Fresh (earlier names : List String) : Prop :=
  names.Nodup ∧ ∀ name ∈ names, name ∉ earlier

theorem fresh_cons_iff {earlier rest : List String} {name : String} :
    Fresh earlier (name :: rest) ↔ name ∉ earlier ∧ Fresh (name :: earlier) rest := by
  rw [Fresh, Fresh, List.nodup_cons, List.forall_mem_cons]
  simp only [List.mem_cons, not_or]
  constructor
  · rintro ⟨⟨hnew, hnodup⟩, hname, hrest⟩
    exact ⟨hname, hnodup, fun other hmem => ⟨ne_of_mem_of_not_mem hmem hnew, hrest other hmem⟩⟩
  · rintro ⟨hname, hnodup, hrest⟩
    exact ⟨⟨fun hmem => (hrest name hmem).1 rfl, hnodup⟩, hname,
      fun other hmem => (hrest other hmem).2⟩

theorem checkComponents_ok_iff {earlier : List String} {specs : List ComponentSpec} :
    checkComponents earlier specs = .ok () ↔
      (∀ spec ∈ specs, (∃ fields, spec.props = .object fields) ∧ spec.props.Sound) ∧
      Fresh earlier (specs.map (·.name)) := by
  induction specs generalizing earlier with
  | nil => simp [checkComponents, Fresh]
  | cons spec rest ih =>
    have hobject : spec.props.fields?.isNone = false ↔ ∃ fields, spec.props = .object fields := by
      cases spec.props <;> simp [Schema.fields?]
    rw [checkComponents, List.forall_mem_cons, List.map_cons, fresh_cons_iff, ← hobject]
    cases spec.props.fields?.isNone with
    | true => simp
    | false =>
      rw [if_neg Bool.false_ne_true, Outcome.check_bind_ok_iff]
      by_cases hname : spec.name ∈ earlier <;> simp [hname, ih, checkShape_ok_iff, and_assoc]

theorem checkActions_ok_iff {earlier : List String} {specs : List ActionSpec} :
    checkActions earlier specs = .ok () ↔
      (∀ spec ∈ specs, spec.params.Sound) ∧ Fresh earlier (specs.map (·.name)) := by
  induction specs generalizing earlier with
  | nil => simp [checkActions, Fresh]
  | cons spec rest ih =>
    rw [checkActions, List.forall_mem_cons, List.map_cons, fresh_cons_iff,
      Outcome.check_bind_ok_iff]
    by_cases hname : spec.name ∈ earlier <;> simp [hname, ih, checkShape_ok_iff, and_assoc]

/-- Definitions make a catalog just when they are without defects. -/
theorem create_ok_iff {components : List ComponentSpec} {actions : List ActionSpec} {c : Catalog} :
    create components actions = .ok c ↔ c = ⟨components, actions⟩ ∧ c.Sound := by
  have hsound : Sound ⟨components, actions⟩ ↔
      checkComponents [] components = .ok () ∧ checkActions [] actions = .ok () := by
    rw [checkComponents_ok_iff, checkActions_ok_iff]
    simp only [Fresh, List.not_mem_nil, not_false_eq_true, implies_true, and_true]
    constructor
    · intro h
      refine ⟨⟨fun spec hmem => ⟨h.props_object spec hmem, h.shapes_sound _ ?_⟩,
        h.component_names⟩, fun spec hmem => h.shapes_sound _ ?_, h.action_names⟩
      · exact List.mem_append_left _ (List.mem_map_of_mem hmem)
      · exact List.mem_append_right _ (List.mem_map_of_mem hmem)
    · rintro ⟨⟨hcomponents, hnames⟩, hactions, hnames'⟩
      refine ⟨hnames, hnames', fun spec hmem => (hcomponents spec hmem).1, fun s hmem => ?_⟩
      rcases List.mem_append.1 hmem with hmem | hmem
      · obtain ⟨spec, hspec, rfl⟩ := List.mem_map.1 hmem
        exact (hcomponents spec hspec).2
      · obtain ⟨spec, hspec, rfl⟩ := List.mem_map.1 hmem
        exact hactions spec hspec
  rw [create, Outcome.check_bind_ok_iff, Outcome.check_bind_ok_iff, ← and_assoc, ← hsound]
  constructor
  · rintro ⟨h, heq⟩
    cases heq
    exact ⟨rfl, h⟩
  · rintro ⟨rfl, h⟩
    exact ⟨h, rfl⟩

end Catalog

end CatalogUi
