import CatalogUi.Catalog.Definition
import CatalogUi.Proofs.Absence
import CatalogUi.Proofs.Descriptor

/-!
Catalogs that were written. The document of a catalog is read as the catalog, with everything in its
order, except that defaults of null are lost, and bounds that are not finite. Losing them is no
defect: what a shape accepts does not depend on its defaults, and without a bound it accepts no less.
-/

namespace CatalogUi

/-! ## Shapes as they come back -/

namespace Schema

variable {strict : Bool} {s : Schema} {value : Option Value} {v : Value}

theorem asRead_object (fields : List (String × Schema)) :
    (object fields).asRead = .object (fields.map fun field => (field.1, field.2.asRead)) := by
  rw [asRead, asReadFields_eq]

theorem IsPlain.asRead (hs : s.IsPlain) : s.asRead.IsPlain := by
  cases s <;> exact hs

theorem isOptional_asRead : s.asRead.isOptional = s.isOptional := by
  induction s using Schema.induct with
  | plain s hs => cases s <;> first | rfl | exact hs.elim
  | array | object | optional => rfl
  | nullable inner ih => exact ih

theorem mem_finiteOnly_iff {bound : Option Bound} {b : Bound} :
    b ∈ finiteOnly bound ↔ b ∈ bound ∧ b.IsFinite := by
  rcases bound with _ | ⟨d | _ | _⟩ <;> simp [finiteOnly, Bound.finite?, Bound.IsFinite]
  · rintro rfl
    exact ⟨d, rfl⟩
  · rintro rfl d ⟨⟩
  · rintro rfl d ⟨⟩

theorem Takes.asRead (h : s.Takes v) : s.asRead.Takes v := by
  cases s with
  | number min max =>
    cases v with
    | number n =>
      have hbounds : inBounds min max n = true := h
      simp only [inBounds, Bool.and_eq_true, Option.all_eq_true] at hbounds
      show inBounds (finiteOnly min) (finiteOnly max) n = true
      simp only [inBounds, Bool.and_eq_true, Option.all_eq_true]
      exact ⟨fun least hleast => hbounds.1 least (mem_finiteOnly_iff.1 hleast).1,
        fun most hmost => hbounds.2 most (mem_finiteOnly_iff.1 hmost).1⟩
    | _ => exact h.elim
  | string | boolean | oneOf | path => exact h
  | _ => cases v <;> exact h.elim

theorem exists_forall₂_iff {α β : Type} {R : α → β → Prop} {given : List α} :
    (∃ out, List.Forall₂ R given out) ↔ ∀ v ∈ given, ∃ w, R v w := by
  induction given with
  | nil => simp
  | cons v rest ih => simp [List.forall₂_cons_left_iff, ← ih]

theorem exists_gives_array_iff {items : Schema} : (∃ r, (array items).Gives strict value r) ↔
    ∃ given, value = some (.array given) ∧
      ∀ v ∈ given, ∃ r, items.Gives strict (some v) r := by
  have hsome (v : Value) : (∃ r, items.Gives strict (some v) r) ↔
      ∃ w, items.Gives strict (some v) (some w) := by
    constructor
    · rintro ⟨r, hr⟩
      obtain ⟨w, rfl⟩ := hr.exists_some
      exact ⟨w, hr⟩
    · rintro ⟨w, hw⟩
      exact ⟨_, hw⟩
  simp only [hsome, ← exists_forall₂_iff, gives_array]
  constructor
  · rintro ⟨r, given, out, rfl, rfl, h⟩
    exact ⟨given, rfl, out, h⟩
  · rintro ⟨given, rfl, out, h⟩
    exact ⟨_, given, out, rfl, rfl, h⟩

theorem exists_gives_object_iff {fields : List (String × Schema)} (hd : Entries.Distinct fields) :
    (∃ r, (object fields).Gives strict value r) ↔
      ∃ given, value = some (.object given) ∧ Allows strict fields given ∧
        ∀ field ∈ fields, ∃ r, field.2.Gives strict (Entries.get? given field.1) r := by
  constructor
  · rintro ⟨r, hr⟩
    obtain ⟨given, out, rfl, -, hallows, -, hgives⟩ := (gives_object hd).1 hr
    exact ⟨given, rfl, hallows, fun field hmem => ⟨_, hgives field hmem⟩⟩
  · rintro ⟨given, rfl, hallows, hgives⟩
    have h : ∀ field ∈ fields,
        ∃ r, field.2.Gives strict (Entries.get? given field.1) r ∧ True := fun field hmem =>
      (hgives field hmem).imp fun _ hr => ⟨hr, trivial⟩
    obtain ⟨out, hout, -⟩ := exists_gives_object hd hallows h
    exact ⟨_, hout⟩

/-- What a shape accepts it still accepts when it comes back. -/
theorem exists_gives_asRead (hw : s.WellFormed) (h : ∃ r, s.Gives strict value r) :
    ∃ r, s.asRead.Gives strict value r := by
  induction s using Schema.induct generalizing value with
  | plain s hs =>
    obtain ⟨r, hr⟩ := h
    obtain ⟨v, hv, htakes, -⟩ := (gives_plain hs).1 hr
    exact ⟨some v, (gives_plain hs.asRead).2 ⟨v, hv, htakes.asRead, rfl⟩⟩
  | array items ih =>
    obtain ⟨given, hv, hitems⟩ := exists_gives_array_iff.1 h
    exact exists_gives_array_iff.2 ⟨given, hv, fun v hmem => ih hw (hitems v hmem)⟩
  | object fields ih =>
    obtain ⟨hd, hfields⟩ := wellFormed_object_iff.1 hw
    have hd' : Entries.Distinct (fields.map fun field => (field.1, field.2.asRead)) := by
      rw [Entries.Distinct, Entries.names_map]
      exact hd
    rw [exists_gives_object_iff hd] at h
    rw [asRead_object, exists_gives_object_iff hd']
    simp only [Allows, Entries.names_map, List.forall_mem_map] at h ⊢
    obtain ⟨given, hv, hallows, hgives⟩ := h
    exact ⟨given, hv, hallows, fun field hmem => ih field hmem (hfields field hmem) (hgives field hmem)⟩
  | optional inner default ih =>
    rw [asRead]
    cases value with
    | none => exact ⟨_, gives_optional_none.2 rfl⟩
    | some v => exact ih hw.1 h
  | nullable inner ih =>
    have hinner : inner.WellFormed := hw
    rw [asRead]
    cases value with
    | none =>
      obtain ⟨r, hr⟩ := h
      obtain ⟨hoptional, hr⟩ := gives_nullable_none.1 hr
      obtain ⟨r', hr'⟩ := ih hinner ⟨r, hr⟩
      exact ⟨r', gives_nullable_none.2 ⟨isOptional_asRead.trans hoptional, hr'⟩⟩
    | some v =>
      by_cases hv : v = .null
      · subst hv
        exact ⟨_, gives_nullable_null.2 rfl⟩
      · simp only [gives_nullable_some hv] at h ⊢
        exact ih hinner h

theorem Accepts.asRead (hw : s.WellFormed) (h : s.Accepts strict v) :
    s.asRead.Accepts strict v := by
  obtain ⟨w, hw'⟩ := h
  obtain ⟨r, hr⟩ := exists_gives_asRead hw ⟨_, hw'⟩
  obtain ⟨w', rfl⟩ := hr.exists_some
  exact ⟨w', hr⟩

theorem Sound.asRead (hs : s.Sound) (hw : s.WellFormed) : s.asRead.Sound := by
  induction s using Schema.induct with
  | plain s hplain =>
    cases s with
    | number min max =>
      rw [sound_number_iff] at hs
      exact sound_number_iff.2 fun least hleast most hmost =>
        hs least (mem_finiteOnly_iff.1 hleast).1 most (mem_finiteOnly_iff.1 hmost).1
    | string | boolean | oneOf | path => exact hs
    | _ => exact hplain.elim
  | array items ih => exact ih hs hw
  | object fields ih =>
    obtain ⟨-, hfields⟩ := wellFormed_object_iff.1 hw
    rw [sound_object_iff] at hs
    rw [asRead_object, sound_object_iff, List.forall_mem_map]
    exact fun field hmem => ih field hmem (hs field hmem) (hfields field hmem)
  | optional inner default ih =>
    refine ⟨ih hs.1 hw.1, fun v hv => ?_⟩
    have hdefault : v ∈ default := by
      unfold nonNull at hv
      split at hv
      · cases hv
      · exact hv
    exact (hs.2 v hdefault).asRead hw.1
  | nullable inner ih => exact ih hs hw

mutual

/-- No default is null. -/
def NoNullDefault : Schema → Prop
  | .array items => NoNullDefault items
  | .object fields => NoNullDefaultFields fields
  | .optional inner default => NoNullDefault inner ∧ default ≠ some .null
  | .nullable inner => NoNullDefault inner
  | _ => True

def NoNullDefaultFields : List (String × Schema) → Prop
  | [] => True
  | (_, s) :: rest => NoNullDefault s ∧ NoNullDefaultFields rest

end

theorem noNullDefault_object_iff {fields : List (String × Schema)} :
    (object fields).NoNullDefault ↔ ∀ field ∈ fields, field.2.NoNullDefault := by
  rw [NoNullDefault]
  induction fields with
  | nil => simp [NoNullDefaultFields]
  | cons field rest ih => simp [NoNullDefaultFields, ih]

theorem map_eq_self_iff {α : Type} {f : α → α} {l : List α} :
    l.map f = l ↔ ∀ a ∈ l, f a = a := by
  conv_lhs => rhs; rw [← List.map_id l]
  exact List.map_inj_left

theorem finiteOnly_eq_self_iff {bound : Option Bound} :
    finiteOnly bound = bound ↔ ∀ b ∈ bound, b.IsFinite := by
  rcases bound with _ | ⟨_ | _ | _⟩ <;> simp [finiteOnly, Bound.finite?, Bound.IsFinite]

/-- A shape comes back unchanged just when no default is null and every bound is finite. -/
theorem asRead_eq_self_iff : s.asRead = s ↔ s.NoNullDefault ∧ s.EveryBound Bound.IsFinite := by
  induction s using Schema.induct with
  | plain s hplain =>
    cases s with
    | number min max =>
      rw [asRead, number.injEq, finiteOnly_eq_self_iff, finiteOnly_eq_self_iff]
      exact (and_iff_right trivial).symm
    | string | boolean | oneOf | path => exact iff_of_true rfl ⟨trivial, trivial⟩
    | _ => exact hplain.elim
  | array items ih => rw [asRead, array.injEq, ih, NoNullDefault, EveryBound]
  | object fields ih =>
    rw [asRead_object, object.injEq, map_eq_self_iff, noNullDefault_object_iff,
      everyBound_object_iff, ← forall₂_and]
    refine forall₂_congr fun field hmem => ?_
    rw [← ih field hmem, Prod.ext_iff]
    exact and_iff_right rfl
  | optional inner default ih =>
    have hdefault : nonNull default = default ↔ default ≠ some .null := by
      unfold nonNull
      split <;> simp_all
    rw [asRead, optional.injEq, ih, hdefault, NoNullDefault, EveryBound, and_right_comm]
  | nullable inner ih => rw [asRead, nullable.injEq, ih, NoNullDefault, EveryBound]

/-! ## Descriptors are well-formed values -/

theorem toValueFields_eq (fields : List (String × Schema)) :
    toValueFields fields = fields.map fun field => (field.1, field.2.toValue) := by
  induction fields with
  | nil => rfl
  | cons field rest ih => rw [toValueFields, ih, List.map_cons]

/-- The descriptor of a shape is a value without repeated fields. -/
theorem wellFormed_toValue (hw : s.WellFormed) : s.toValue.WellFormed := by
  induction s using Schema.induct with
  | plain s hplain =>
    cases s with
    | number min max =>
      have hbound (bound : Bound) : (boundValue bound).WellFormed := by cases bound <;> trivial
      cases min with
      | none =>
        cases max with
        | none => exact ⟨(by decide : ["type"].Nodup), trivial, trivial⟩
        | some max => exact ⟨(by decide : ["type", "max"].Nodup), trivial, hbound max, trivial⟩
      | some min =>
        cases max with
        | none => exact ⟨(by decide : ["type", "min"].Nodup), trivial, hbound min, trivial⟩
        | some max =>
          exact ⟨(by decide : ["type", "min", "max"].Nodup), trivial, hbound min, hbound max, trivial⟩
    | oneOf values =>
      have hvalues : (Value.array (values.map .string)).WellFormed := by
        rw [Value.wellFormed_array_iff, List.forall_mem_map]
        exact fun _ _ => trivial
      exact ⟨(by decide : ["type", "values"].Nodup), trivial, hvalues, trivial⟩
    | string | boolean | path => exact ⟨List.nodup_singleton _, trivial, trivial⟩
    | _ => exact hplain.elim
  | array items ih =>
    have hitems : items.toValue.WellFormed := ih hw
    exact ⟨(by decide : ["type", "items"].Nodup), trivial, hitems, trivial⟩
  | object fields ih =>
    obtain ⟨hd, hfields⟩ := wellFormed_object_iff.1 hw
    have hmap : (Value.object (toValueFields fields)).WellFormed := by
      rw [Value.wellFormed_object_iff, toValueFields_eq, Entries.Distinct, Entries.names_map,
        List.forall_mem_map]
      exact ⟨hd, fun field hmem => ih field hmem (hfields field hmem)⟩
    exact ⟨(by decide : ["type", "fields"].Nodup), trivial, hmap, trivial⟩
  | optional inner default ih =>
    have hinner : inner.toValue.WellFormed := ih hw.1
    cases default with
    | none => exact ⟨(by decide : ["type", "inner"].Nodup), trivial, hinner, trivial⟩
    | some v =>
      exact ⟨(by decide : ["type", "inner", "default"].Nodup), trivial, hinner, hw.2 v rfl, trivial⟩
  | nullable inner ih =>
    have hinner : inner.toValue.WellFormed := ih hw
    exact ⟨(by decide : ["type", "inner"].Nodup), trivial, hinner, trivial⟩

end Schema

/-! ## Definitions -/

namespace Json

/-- Members that are written one by one are read one by one. -/
theorem readPairs_ofFields {α β : Type} {read : Reader β} {nesting : Nat} {f : α → Value}
    {g : α → β} {entries : List (String × α)}
    (h : ∀ entry ∈ entries, read nesting (Draft.ofValue (f entry.2)) = .ok (g entry.2)) :
    readPairs read nesting (Draft.ofFields (entries.map fun entry => (entry.1, f entry.2)))
      .closed = .ok (entries.map fun entry => (entry.1, g entry.2)) := by
  induction entries with
  | nil => rfl
  | cons entry rest ih =>
    obtain ⟨hentry, hrest⟩ := List.forall_mem_cons.1 h
    rw [List.map_cons, Draft.ofFields, readPairs, hentry, ih hrest]
    rfl

theorem readMap_ofValue {α β : Type} {read : Reader β} {nesting : Nat} {f : α → Value}
    {g : α → β} {entries : List (String × α)} (hd : Entries.Distinct entries)
    (h : ∀ entry ∈ entries, read nesting (Draft.ofValue (f entry.2)) = .ok (g entry.2)) :
    readMap read (nesting + 1)
        (Draft.ofValue (.object (entries.map fun entry => (entry.1, f entry.2)))) =
      .ok (entries.map fun entry => (entry.1, g entry.2)) := by
  have hd' : Entries.Distinct (entries.map fun entry => (entry.1, g entry.2)) := by
    rw [Entries.Distinct, Entries.names_map]
    exact hd
  rw [Draft.ofValue, readMap]
  simp only [enter, bind, Except.bind, readPairs_ofFields h, pure, Except.pure,
    Entries.ofPairs_of_distinct hd']

end Json

open Json

namespace ComponentDefinition

def toValue (definition : ComponentDefinition) : Value :=
  .object [("props", definition.props.toValue), ("hasChildren", .bool definition.hasChildren)]

def asRead (definition : ComponentDefinition) : ComponentDefinition :=
  ⟨definition.props.asRead, definition.hasChildren⟩

theorem read_toValue {nesting : Nat} {definition : ComponentDefinition}
    (hw : definition.props.WellFormed) (hdepth : definition.toValue.depth ≤ nesting) :
    read nesting (Draft.ofValue definition.toValue) = .ok definition.asRead := by
  cases nesting with
  | zero => cases hdepth
  | succ n =>
    rw [toValue, Value.depth_object_le_iff, List.forall_mem_cons] at hdepth
    have hprops := Schema.read_toValue hw hdepth.1
    simp [read, RecordFormat.read, toValue, Draft.ofValue, Draft.ofFields, enter, bind, Except.bind,
      RecordFormat.readMembers, format, readOnce, hprops, readBool, Except.map, Ending.reach, pure,
      Except.pure, required, asRead]

end ComponentDefinition

namespace ActionDefinition

def toValue (definition : ActionDefinition) : Value :=
  .object [("description", .string definition.description), ("params", definition.params.toValue)]

def asRead (definition : ActionDefinition) : ActionDefinition :=
  ⟨definition.description, definition.params.asRead⟩

theorem read_toValue {nesting : Nat} {definition : ActionDefinition}
    (hw : definition.params.WellFormed) (hdepth : definition.toValue.depth ≤ nesting) :
    read nesting (Draft.ofValue definition.toValue) = .ok definition.asRead := by
  cases nesting with
  | zero => cases hdepth
  | succ n =>
    rw [toValue, Value.depth_object_le_iff, List.forall_mem_cons, List.forall_mem_cons] at hdepth
    have hparams := Schema.read_toValue hw hdepth.2.1
    simp [read, RecordFormat.read, toValue, Draft.ofValue, Draft.ofFields, enter, bind, Except.bind,
      RecordFormat.readMembers, format, readOnce, hparams, readString, Except.map, Ending.reach,
      pure, Except.pure, asRead]

end ActionDefinition

namespace CatalogDefinition

variable {definition : CatalogDefinition}

/-- No name stands twice, and neither does a field of a shape or of a default. -/
structure WellFormed (definition : CatalogDefinition) : Prop where
  component_names : Entries.Distinct definition.components
  action_names : Entries.Distinct definition.actions
  props : ∀ entry ∈ definition.components, entry.2.props.WellFormed
  params : ∀ entry ∈ definition.actions, entry.2.params.WellFormed

def asRead (definition : CatalogDefinition) : CatalogDefinition where
  components := definition.components.map fun entry => (entry.1, entry.2.asRead)
  actions := definition.actions.map fun entry => (entry.1, entry.2.asRead)

theorem toValue_eq : definition.toValue =
    .object [
      ("components",
        .object (definition.components.map fun entry => (entry.1, entry.2.toValue))),
      ("actions", .object (definition.actions.map fun entry => (entry.1, entry.2.toValue)))] := rfl

theorem wellFormed_toValue (hw : definition.WellFormed) : definition.toValue.WellFormed := by
  have hcomponents : (Value.object
      (definition.components.map fun entry => (entry.1, entry.2.toValue))).WellFormed := by
    rw [Value.wellFormed_object_iff, Entries.Distinct, Entries.names_map, List.forall_mem_map]
    exact ⟨hw.component_names, fun entry hmem => ⟨(by decide : ["props", "hasChildren"].Nodup),
      Schema.wellFormed_toValue (hw.props entry hmem), trivial, trivial⟩⟩
  have hactions : (Value.object
      (definition.actions.map fun entry => (entry.1, entry.2.toValue))).WellFormed := by
    rw [Value.wellFormed_object_iff, Entries.Distinct, Entries.names_map, List.forall_mem_map]
    exact ⟨hw.action_names, fun entry hmem => ⟨(by decide : ["description", "params"].Nodup),
      trivial, Schema.wellFormed_toValue (hw.params entry hmem), trivial⟩⟩
  rw [toValue_eq]
  exact ⟨(by decide : ["components", "actions"].Nodup), hcomponents, hactions, trivial⟩

theorem read_toValue {nesting : Nat} (hw : definition.WellFormed)
    (hdepth : definition.toValue.depth ≤ nesting) :
    read nesting (Draft.ofValue definition.toValue) = .ok definition.asRead := by
  rw [toValue_eq] at hdepth ⊢
  obtain ⟨n, rfl⟩ : ∃ n, nesting = n + 2 := by
    cases nesting with
    | zero => cases hdepth
    | succ n =>
      cases n with
      | zero =>
        rw [Value.depth_object_le_iff, List.forall_mem_cons] at hdepth
        cases hdepth.1
      | succ n => exact ⟨n, rfl⟩
  simp only [Value.depth_object_le_iff, List.forall_mem_cons, List.forall_mem_map] at hdepth
  obtain ⟨hcomponents, hactions, -⟩ := hdepth
  have hreadComponents := readMap_ofValue hw.component_names fun entry hmem =>
    ComponentDefinition.read_toValue (hw.props entry hmem) (hcomponents entry hmem)
  have hreadActions := readMap_ofValue hw.action_names fun entry hmem =>
    ActionDefinition.read_toValue (hw.params entry hmem) (hactions entry hmem)
  rw [Draft.ofValue, Draft.ofFields, Draft.ofFields, Draft.ofFields, read]
  simp only [RecordFormat.read, enter, bind, Except.bind, RecordFormat.readMembers, format,
    readOnce, Option.isSome_none, Bool.false_eq_true, if_false, hreadComponents, hreadActions,
    Except.map, Ending.reach, pure, Except.pure, Option.getD_some, asRead]

end CatalogDefinition

namespace Catalog

variable {c : Catalog}

/-- The catalog as it comes back. -/
def asRead (c : Catalog) : Catalog where
  components := c.components.map fun spec => { spec with props := spec.props.asRead }
  actions := c.actions.map fun spec => { spec with params := spec.params.asRead }

theorem Sound.asRead (hc : c.Sound) (hw : c.WellFormed) : c.asRead.Sound where
  component_names := by
    rw [Catalog.asRead, List.map_map]
    exact hc.component_names
  action_names := by
    rw [Catalog.asRead, List.map_map]
    exact hc.action_names
  props_object := by
    rw [Catalog.asRead, List.forall_mem_map]
    intro spec hmem
    obtain ⟨fields, hfields⟩ := hc.props_object spec hmem
    exact ⟨_, (congrArg Schema.asRead hfields).trans (Schema.asRead_object fields)⟩
  shapes_sound := by
    intro s hs
    have hshapes : c.asRead.shapes = c.shapes.map Schema.asRead := by
      simp [shapes, Catalog.asRead, Function.comp_def]
    rw [hshapes] at hs
    obtain ⟨s, hmem, rfl⟩ := List.mem_map.1 hs
    exact (hc.shapes_sound s hmem).asRead (hw s hmem)

theorem wellFormed_toDefinition (hc : c.Sound) (hw : c.WellFormed) :
    c.toDefinition.WellFormed where
  component_names := by
    rw [Entries.Distinct, Entries.names, toDefinition, List.map_map]
    exact hc.component_names
  action_names := by
    rw [Entries.Distinct, Entries.names, toDefinition, List.map_map]
    exact hc.action_names
  props := by
    rw [toDefinition, List.forall_mem_map]
    exact fun spec hmem => hw _ (List.mem_append_left _ (List.mem_map_of_mem hmem))
  params := by
    rw [toDefinition, List.forall_mem_map]
    exact fun spec hmem => hw _ (List.mem_append_right _ (List.mem_map_of_mem hmem))

theorem ofDefinition_asRead (hc : c.Sound) (hw : c.WellFormed) :
    ofDefinition c.toDefinition.asRead = .ok c.asRead := by
  rw [ofDefinition, create_ok_iff]
  refine ⟨?_, hc.asRead hw⟩
  simp [asRead, CatalogDefinition.asRead, toDefinition,
    ComponentDefinition.asRead, ActionDefinition.asRead,
    Function.comp_def]

/-- The document of a catalog is read as the catalog as it comes back. -/
theorem ofText_dump_eq (hc : c.Sound) (hw : c.WellFormed)
    (hdoubles : c.toDefinition.toValue.DoublesReadBack)
    (hdepth : c.toDefinition.toValue.depth ≤ maxNesting) :
    ofText c.dump = .ok c.asRead := by
  have hdefinition := wellFormed_toDefinition hc hw
  have hdocument := ofText_pretty ⟨CatalogDefinition.wellFormed_toValue hdefinition, hdoubles⟩
  have hread : readText CatalogDefinition.read c.dump =
      .ok c.toDefinition.asRead := by
    rw [readText, dump, hdocument]
    simp only [CatalogDefinition.read_toValue hdefinition hdepth, bind, Except.bind, pure,
      Except.pure, Bool.false_eq_true, if_false]
  rw [ofText, hread]
  dsimp only
  rw [ofDefinition_asRead hc hw]

theorem asRead_eq_self_iff :
    c.asRead = c ↔ ∀ s ∈ c.shapes, s.NoNullDefault ∧ s.EveryBound Bound.IsFinite := by
  obtain ⟨components, actions⟩ := c
  have hcomponent (spec : ComponentSpec) :
      { spec with props := spec.props.asRead } = spec ↔ spec.props.asRead = spec.props := by
    obtain ⟨name, props, acceptsChildren⟩ := spec
    simp
  have haction (spec : ActionSpec) :
      { spec with params := spec.params.asRead } = spec ↔ spec.params.asRead = spec.params := by
    obtain ⟨name, description, params⟩ := spec
    simp
  rw [asRead, mk.injEq, Schema.map_eq_self_iff, Schema.map_eq_self_iff, shapes,
    List.forall_mem_append, List.forall_mem_map, List.forall_mem_map]
  simp only [hcomponent, haction, Schema.asRead_eq_self_iff]

/-- The document of a catalog is read as the catalog with everything in its order, except that the
defaults that are null and the bounds that are not finite are lost; so it is read as the same catalog
just when no default is null and every bound is finite. -/
theorem ofText_dump {components : List ComponentSpec} {actions : List ActionSpec}
    (hc : create components actions = .ok c) (hw : c.WellFormed)
    (hdoubles : c.toDefinition.toValue.DoublesReadBack)
    (hdepth : c.toDefinition.toValue.depth ≤ maxNesting) :
    ofText c.dump = .ok c.asRead ∧
      (ofText c.dump = .ok c ↔
        ∀ s ∈ c.shapes, s.NoNullDefault ∧ s.EveryBound Bound.IsFinite) := by
  have hread := ofText_dump_eq (create_ok_iff.1 hc).2 hw hdoubles hdepth
  refine ⟨hread, ?_⟩
  rw [hread, Except.ok.injEq, asRead_eq_self_iff]

end Catalog

namespace Sample

/-- A number from zero to one that may be left out. -/
def level : Schema :=
  let one : Double := ⟨false, 1023 * Nat.pow 2 52, by decide⟩
  .optional (.number (some (.finite .zero)) (some (.finite one))) (some (.number (.int 1)))

theorem wellFormed_level : level.WellFormed := by
  refine ⟨trivial, ?_⟩
  rintro _ ⟨⟩
  exact ⟨by decide, by decide⟩

theorem doublesReadBack_level : level.toValue.DoublesReadBack := by
  have hzero : ReadsBack (.double .zero) := by decide +kernel
  have hone : ReadsBack (.double ⟨false, 1023 * Nat.pow 2 52, by decide⟩) := by decide +kernel
  exact ⟨trivial, ⟨trivial, hzero, hone, trivial⟩, trivial, trivial⟩

/-- A text or null, which is null when it is left out. -/
def nullText : Schema := .optional (.nullable .string) (some .null)

theorem wellFormed_nullText : nullText.WellFormed := by
  refine ⟨trivial, ?_⟩
  rintro _ ⟨⟩
  trivial

theorem doublesReadBack_nullText : nullText.toValue.DoublesReadBack :=
  ⟨trivial, ⟨trivial, ⟨trivial, trivial⟩, trivial⟩, trivial, trivial⟩

theorem doublesReadBack_badges {text : Schema} (h : text.toValue.DoublesReadBack) :
    (badges text).toDefinition.toValue.DoublesReadBack :=
  ⟨⟨⟨⟨trivial, ⟨h, trivial⟩, trivial⟩, trivial, trivial⟩, trivial⟩, trivial, trivial⟩

end Sample

/-- The bounds and the default of a number come back. -/
theorem Catalog.ofText_dump_level :
    let c := Sample.badges Sample.level
    Catalog.create c.components c.actions = .ok c ∧ c.WellFormed ∧
      c.toDefinition.toValue.DoublesReadBack ∧ c.toDefinition.toValue.depth ≤ maxNesting ∧
      Catalog.ofText c.dump = .ok c := by
  have hc : Catalog.create [Sample.badge Sample.level] [] = .ok (Sample.badges Sample.level) := rfl
  have hw := Sample.wellFormed_badges Sample.wellFormed_level
  have hdoubles := Sample.doublesReadBack_badges Sample.doublesReadBack_level
  have hdepth : (Sample.badges Sample.level).toDefinition.toValue.depth ≤ maxNesting := by decide
  refine ⟨hc, hw, hdoubles, hdepth, (ofText_dump hc hw hdoubles hdepth).2.2 ?_⟩
  refine List.forall_mem_singleton.2 ⟨⟨⟨trivial, nofun⟩, trivial⟩, ⟨?_, ?_⟩, trivial⟩
  · rintro _ ⟨⟩
    exact ⟨_, rfl⟩
  · rintro _ ⟨⟩
    exact ⟨_, rfl⟩

/-- A default of null is written, but does not come back. -/
theorem Catalog.not_ofText_dump_nullText :
    ¬ ∀ (components : List ComponentSpec) (actions : List ActionSpec) (c : Catalog),
      Catalog.create components actions = .ok c → c.WellFormed →
        (∀ s ∈ c.shapes, s.EveryBound Bound.IsFinite) →
        c.toDefinition.toValue.DoublesReadBack →
        c.toDefinition.toValue.depth ≤ maxNesting → Catalog.ofText c.dump = .ok c := by
  intro h
  have hc : Catalog.create [Sample.badge Sample.nullText] [] =
    .ok (Sample.badges Sample.nullText) := rfl
  have hw := Sample.wellFormed_badges Sample.wellFormed_nullText
  have hdoubles := Sample.doublesReadBack_badges Sample.doublesReadBack_nullText
  have hdepth : (Sample.badges Sample.nullText).toDefinition.toValue.depth ≤ maxNesting := by decide
  have hbounds : ∀ s ∈ (Sample.badges Sample.nullText).shapes, s.EveryBound Bound.IsFinite :=
    List.forall_mem_singleton.2 ⟨trivial, trivial⟩
  have hsame := h _ _ _ hc hw hbounds hdoubles hdepth
  rw [ofText_dump_eq (create_ok_iff.1 hc).2 hw hdoubles hdepth, Except.ok.injEq,
    asRead_eq_self_iff] at hsame
  have hprops : (Sample.badge Sample.nullText).props.NoNullDefault :=
    (hsame _ (List.mem_singleton_self _)).1
  exact hprops.1.2 rfl

end CatalogUi
