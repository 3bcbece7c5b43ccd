import CatalogUi.Tree.Format
import CatalogUi.Proofs.Descriptor
import CatalogUi.Proofs.Outcome

/-!
Conditions and elements that were written are read again. A condition is written as the one member of
an object, whose name says of which kind it is; an element leaves out the children and the condition
that it does not have.
-/

namespace CatalogUi

open Json Outcome

/-! ## Legible documents -/

namespace Value

theorem legible_null : Legible .null := ⟨trivial, trivial⟩

theorem legible_string (s : String) : (string s).Legible := ⟨trivial, trivial⟩

theorem legible_array {items : List Value} (h : ∀ v ∈ items, v.Legible) :
    (array items).Legible :=
  ⟨wellFormed_array_iff.2 fun v hmem => (h v hmem).1,
    doublesReadBack_array_iff.2 fun v hmem => (h v hmem).2⟩

theorem legible_object {fields : List (String × Value)} (hd : Entries.Distinct fields)
    (h : ∀ field ∈ fields, field.2.Legible) : (object fields).Legible :=
  ⟨wellFormed_object_iff.2 ⟨hd, fun field hmem => (h field hmem).1⟩,
    doublesReadBack_object_iff.2 fun field hmem => (h field hmem).2⟩

theorem legible_singleton (name : String) {v : Value} (h : v.Legible) :
    (object [(name, v)]).Legible :=
  legible_object (List.nodup_singleton name) (List.forall_mem_singleton.2 h)

/-- A legible value is read as itself where it may be nested as deep as it is. -/
theorem Legible.readValue {v : Value} (h : v.Legible) {nesting : Nat} (hdepth : v.depth ≤ nesting) :
    readValue nesting (Draft.ofValue v) = .ok v := by
  rw [Json.readValue, readVerbatim_ofValue hdepth, Except.map, merged_of_wellFormed h.1]

/-- Where an object fits, its fields fit one level deeper. -/
theorem exists_nesting_object {fields : List (String × Value)} {nesting : Nat}
    (h : (object fields).depth ≤ nesting) :
    ∃ n, nesting = n + 1 ∧ ∀ field ∈ fields, field.2.depth ≤ n := by
  cases nesting with
  | zero => cases h
  | succ n => exact ⟨n, rfl, depth_object_le_iff.1 h⟩

theorem exists_nesting_array {items : List Value} {nesting : Nat}
    (h : (array items).depth ≤ nesting) :
    ∃ n, nesting = n + 1 ∧ ∀ v ∈ items, v.depth ≤ n := by
  cases nesting with
  | zero => cases h
  | succ n => exact ⟨n, rfl, depth_array_le_iff.1 h⟩

end Value

/-! ## Records -/

namespace Json.RecordFormat

variable {ρ : Type} {format : RecordFormat ρ} {nesting : Nat} {record record' : ρ}

theorem readMembers_cons {name : String} {d : Draft} {rest : List (Option String × Draft)}
    {ending : Ending} (h : format.field record name nesting d = .ok record') :
    format.readMembers nesting record ((some name, d) :: rest) ending =
      format.readMembers nesting record' rest ending := by
  rw [readMembers, h]
  rfl

/-- Fields that were written one after the other are read one after the other. -/
theorem readMembers_append {fields more : List (String × Value)} {ending : Ending}
    (h : format.readMembers nesting record (Draft.ofFields fields) .closed = .ok record') :
    format.readMembers nesting record (Draft.ofFields (fields ++ more)) ending =
      format.readMembers nesting record' (Draft.ofFields more) ending := by
  induction fields generalizing record with
  | nil =>
    cases h
    rfl
  | cons field rest ih =>
    rw [Draft.ofFields] at h
    rw [List.cons_append, Draft.ofFields]
    cases hfield : format.field record field.1 nesting (Draft.ofValue field.2) with
    | error e =>
      rw [readMembers, hfield] at h
      cases h
    | ok next =>
      rw [readMembers_cons hfield] at h ⊢
      exact ih h

end Json.RecordFormat

/-! ## Conditions -/

namespace Condition

mutual

/-- The values that a condition compares with, from left to right. -/
def values : Condition → List Value
  | .present _ => []
  | .equals _ value => [value]
  | .differs _ value => [value]
  | .not inner => values inner
  | .all items => valuesOfItems items
  | .any items => valuesOfItems items

def valuesOfItems : List Condition → List Value
  | [] => []
  | c :: rest => values c ++ valuesOfItems rest

end

theorem legible_comparison {kind path : String} {value : Value} (h : value.Legible) :
    (Value.object [(kind, .object [("path", .string path), ("value", value)])]).Legible := by
  apply Value.legible_singleton
  have hd : Entries.Distinct [("path", Value.string path), ("value", value)] :=
    (by decide : ["path", "value"].Nodup)
  exact Value.legible_object hd
    (List.forall_mem_cons.2 ⟨Value.legible_string path, List.forall_mem_singleton.2 h⟩)

mutual

theorem legible_toValue : ∀ c : Condition, (∀ v ∈ c.values, v.Legible) → c.toValue.Legible
  | .present path, _ =>
    Value.legible_singleton _ (Value.legible_singleton _ (Value.legible_string path))
  | .equals _ _, h | .differs _ _, h => legible_comparison (h _ List.mem_cons_self)
  | .not inner, h => Value.legible_singleton _ (legible_toValue inner h)
  | .all items, h | .any items, h =>
    Value.legible_singleton _ (Value.legible_array (legible_toValues items h))

theorem legible_toValues : ∀ items : List Condition, (∀ v ∈ valuesOfItems items, v.Legible) →
    ∀ v ∈ toValues items, v.Legible
  | [], _ => nofun
  | c :: rest, h => by
    rw [valuesOfItems, List.forall_mem_append] at h
    exact List.forall_mem_cons.2 ⟨legible_toValue c h.1, legible_toValues rest h.2⟩

end

/-- Reads what stands under the name of a kind. -/
def readKind (nesting : Nat) (d : Draft) : String → Except ReadError Condition
  | "exists" => readPresence nesting d
  | "equals" => readComparison "Equals" .equals nesting d
  | "not_equals" => readComparison "NotEquals" .differs nesting d
  | "not" => (read nesting d).map .not
  | "all" => (readSequence nesting d).map .all
  | "any" => (readSequence nesting d).map .any
  | kind => .error (.shape (.unknownVariant kind kinds))

theorem read_member (nesting : Nat) (kind : String) (d : Draft) :
    read (nesting + 1) (.object [(some kind, d)] .closed) = readKind nesting d kind := by
  rw [readKind.eq_def]
  split
  case h_7 =>
    rw [read]
    split <;> first | contradiction | rfl
  all_goals exact bind_pure (m := Except ReadError) _

theorem exists_nesting_member {nesting : Nat} {name : String} {v : Value}
    (h : (Value.object [(name, v)]).depth ≤ nesting) :
    ∃ n, nesting = n + 1 ∧ v.depth ≤ n := by
  obtain ⟨n, rfl, hfields⟩ := Value.exists_nesting_object h
  exact ⟨n, rfl, hfields (name, v) List.mem_cons_self⟩

theorem readPresence_ofValue {nesting : Nat} {path : String}
    (hdepth : (Value.object [("path", .string path)]).depth ≤ nesting) :
    readPresence nesting (Draft.ofValue (.object [("path", .string path)])) =
      .ok (.present path) := by
  obtain ⟨n, rfl, -⟩ := Value.exists_nesting_object hdepth
  rfl

theorem readMembers_comparison {nesting : Nat} {kind path : String} {d : Draft} {value : Value}
    (h : readValue nesting d = .ok value) :
    (comparisonFormat kind).readMembers nesting (none, none)
      [(some "path", .string path), (some "value", d)] .closed = .ok (some path, some value) := by
  have hpath : (comparisonFormat kind).field (none, none) "path" nesting (.string path) =
      .ok (some path, none) := rfl
  have hvalue : (comparisonFormat kind).field (some path, none) "value" nesting d =
      .ok (some path, some value) := by
    change (do return (some path, ← readOnce "value" none readValue nesting d)) = _
    rw [readOnce, h]
    rfl
  rw [RecordFormat.readMembers_cons hpath, RecordFormat.readMembers_cons hvalue]
  rfl

theorem readComparison_ofValue {nesting : Nat} {kind path : String} {value : Value}
    {make : String → Value → Condition} (hvalue : value.Legible)
    (hdepth : (Value.object [("path", .string path), ("value", value)]).depth ≤ nesting) :
    readComparison kind make nesting
      (Draft.ofValue (.object [("path", .string path), ("value", value)])) =
        .ok (make path value) := by
  obtain ⟨n, rfl, hfields⟩ := Value.exists_nesting_object hdepth
  have hread := hvalue.readValue
    (hfields ("value", value) (List.mem_cons_of_mem _ List.mem_cons_self))
  rw [readComparison]
  change (do
    let given ← (comparisonFormat kind).readMembers n (none, none)
      [(some "path", .string path), (some "value", Draft.ofValue value)] .closed
    return make (← required "path" given.1) (← required "value" given.2)) = _
  rw [readMembers_comparison hread]
  rfl

mutual

/-- The document of a condition is read as the condition. -/
theorem read_toValue : ∀ (c : Condition) (nesting : Nat), (∀ v ∈ c.values, v.Legible) →
    c.toValue.depth ≤ nesting → read nesting (Draft.ofValue c.toValue) = .ok c
  | .present path, nesting, _, hdepth => by
    obtain ⟨n, rfl, hinner⟩ := exists_nesting_member hdepth
    exact (read_member n "exists" _).trans (readPresence_ofValue hinner)
  | .equals path value, nesting, h, hdepth => by
    obtain ⟨n, rfl, hinner⟩ := exists_nesting_member hdepth
    exact (read_member n "equals" _).trans
      (readComparison_ofValue (h value List.mem_cons_self) hinner)
  | .differs path value, nesting, h, hdepth => by
    obtain ⟨n, rfl, hinner⟩ := exists_nesting_member hdepth
    exact (read_member n "not_equals" _).trans
      (readComparison_ofValue (h value List.mem_cons_self) hinner)
  | .not inner, nesting, h, hdepth => by
    obtain ⟨n, rfl, hinner⟩ := exists_nesting_member hdepth
    exact (read_member n "not" _).trans
      (congrArg (Except.map Condition.not) (read_toValue inner n h hinner))
  | .all items, nesting, h, hdepth => by
    obtain ⟨n, rfl, hinner⟩ := exists_nesting_member hdepth
    exact (read_member n "all" _).trans
      (congrArg (Except.map Condition.all) (readSequence_toValues items n h hinner))
  | .any items, nesting, h, hdepth => by
    obtain ⟨n, rfl, hinner⟩ := exists_nesting_member hdepth
    exact (read_member n "any" _).trans
      (congrArg (Except.map Condition.any) (readSequence_toValues items n h hinner))

theorem readSequence_toValues : ∀ (items : List Condition) (nesting : Nat),
    (∀ v ∈ valuesOfItems items, v.Legible) → (Value.array (toValues items)).depth ≤ nesting →
    readSequence nesting (Draft.ofValue (.array (toValues items))) = .ok items
  | items, nesting, h, hdepth => by
    obtain ⟨n, rfl, hitems⟩ := Value.exists_nesting_array hdepth
    rw [Draft.ofValue, readSequence]
    exact readConditions_toValues items n h hitems

theorem readConditions_toValues : ∀ (items : List Condition) (nesting : Nat),
    (∀ v ∈ valuesOfItems items, v.Legible) → (∀ v ∈ toValues items, v.depth ≤ nesting) →
    readConditions nesting (Draft.ofItems (toValues items)) .closed = .ok items
  | [], _, _, _ => rfl
  | c :: rest, nesting, h, hdepth => by
    rw [valuesOfItems, List.forall_mem_append] at h
    obtain ⟨hfirst, hrest⟩ := List.forall_mem_cons.1 hdepth
    rw [toValues, Draft.ofItems, readConditions, read_toValue c nesting h.1 hfirst]
    simp only [bind, Except.bind, readConditions_toValues rest nesting h.2 hrest]
    rfl

end

theorem readOptional_ofValue {c : Condition} {nesting : Nat}
    (h : read nesting (Draft.ofValue c.toValue) = .ok c) :
    readOptional read nesting (Draft.ofValue c.toValue) = .ok (some c) := by
  have hobject : readOptional read nesting (Draft.ofValue c.toValue) =
      (read nesting (Draft.ofValue c.toValue)).map some := by
    cases c <;> rfl
  rw [hobject, h]
  rfl

end Condition

/-! ## Elements -/

namespace Json

theorem readItems_strings {nesting : Nat} (names : List String) :
    readItems readString nesting (Draft.ofItems (names.map .string)) .closed = .ok names := by
  induction names with
  | nil => rfl
  | cons name rest ih =>
    rw [List.map_cons, Draft.ofItems, readItems, ih]
    rfl

theorem readList_strings {nesting : Nat} {names : List String}
    (h : (Value.array (names.map .string)).depth ≤ nesting) :
    readList readString nesting (Draft.ofValue (.array (names.map .string))) = .ok names := by
  obtain ⟨n, rfl, -⟩ := Value.exists_nesting_array h
  exact readItems_strings names

end Json

namespace Element

/-- The values in an element that are no more than values: its props, and what its condition compares
with. -/
def values (e : Element) : List Value :=
  e.props :: e.visible.toList.flatMap Condition.values

/-- The fields that stand in front of the children. -/
def leadingFields (e : Element) : List (String × Value) :=
  [("key", .string e.key), ("type", .string e.type), ("props", e.props)]

def childrenFields (e : Element) : List (String × Value) :=
  if e.children.isEmpty then [] else [("children", .array (e.children.map .string))]

def parentFields (e : Element) : List (String × Value) :=
  [("parentKey", match e.parentKey with
    | some parent => .string parent
    | none => .null)]

def visibleFields (e : Element) : List (String × Value) :=
  e.visible.toList.map fun c => ("visible", c.toValue)

theorem toValue_eq (e : Element) :
    e.toValue = .object (e.leadingFields ++ e.childrenFields ++ e.parentFields ++
      e.visibleFields) := rfl

variable {e : Element} {nesting : Nat}

/-- What is read into the fields of an element that has all of them. -/
def given (e : Element) : Given where
  key := some e.key
  type := some e.type
  props := some e.props
  children := if e.children.isEmpty then none else some e.children
  parentKey := some e.parentKey
  visible := e.visible.map some

theorem readMembers_leadingFields (h : e.props.Legible) (hdepth : e.props.depth ≤ nesting) :
    format.readMembers nesting format.start (Draft.ofFields e.leadingFields) .closed =
      .ok ⟨some e.key, some e.type, some e.props, none, none, none⟩ := by
  have hkey : format.field format.start "key" nesting (.string e.key) =
      .ok ⟨some e.key, none, none, none, none, none⟩ := rfl
  have htype : format.field ⟨some e.key, none, none, none, none, none⟩ "type" nesting
      (.string e.type) = .ok ⟨some e.key, some e.type, none, none, none, none⟩ := rfl
  have hprops : format.field ⟨some e.key, some e.type, none, none, none, none⟩ "props" nesting
      (Draft.ofValue e.props) = .ok ⟨some e.key, some e.type, some e.props, none, none, none⟩ := by
    change (do
      return { (⟨some e.key, some e.type, none, none, none, none⟩ : Given) with
        props := ← readOnce "props" none readValue nesting (Draft.ofValue e.props) }) = _
    rw [readOnce, h.readValue hdepth]
    rfl
  rw [leadingFields, Draft.ofFields, Draft.ofFields, Draft.ofFields]
  rw [Draft.ofValue, Draft.ofValue, RecordFormat.readMembers_cons hkey,
    RecordFormat.readMembers_cons htype, RecordFormat.readMembers_cons hprops]
  rfl

/-- The children are read, or stay absent when there are none. -/
theorem readMembers_childrenFields {record : Given} (hrecord : record.children = none)
    (hdepth : ∀ field ∈ e.childrenFields, field.2.depth ≤ nesting) :
    format.readMembers nesting record (Draft.ofFields e.childrenFields) .closed =
      .ok { record with children := e.given.children } := by
  cases hempty : e.children.isEmpty with
  | true =>
    simp only [childrenFields, given, hempty, if_true, ← hrecord]
    rfl
  | false =>
    simp only [childrenFields, given, hempty] at hdepth ⊢
    have hread := readList_strings (hdepth _ List.mem_cons_self)
    have hfield : format.field record "children" nesting
        (Draft.ofValue (.array (e.children.map .string))) =
          .ok { record with children := some e.children } := by
      change (do
        return { record with
          children := ← readOnce "children" record.children (readList readString) nesting _ }) = _
      rw [hrecord, readOnce, hread]
      rfl
    exact RecordFormat.readMembers_cons hfield

theorem readMembers_parentFields {record : Given} (hrecord : record.parentKey = none) :
    format.readMembers nesting record (Draft.ofFields e.parentFields) .closed =
      .ok { record with parentKey := e.given.parentKey } := by
  have hfield (parent : Option String) : format.field record "parentKey" nesting
      (Draft.ofValue (match parent with
        | some parent => .string parent
        | none => .null)) = .ok { record with parentKey := some parent } := by
    change (do
      return { record with
        parentKey := ← readOnce "parentKey" record.parentKey (readOptional readString) nesting
          _ }) = _
    rw [hrecord]
    cases parent <;> rfl
  exact RecordFormat.readMembers_cons (hfield e.parentKey)

theorem readMembers_visibleFields {record : Given} (hrecord : record.visible = none)
    (h : ∀ c ∈ e.visible, ∀ v ∈ c.values, v.Legible)
    (hdepth : ∀ field ∈ e.visibleFields, field.2.depth ≤ nesting) :
    format.readMembers nesting record (Draft.ofFields e.visibleFields) .closed =
      .ok { record with visible := e.given.visible } := by
  cases hvisible : e.visible with
  | none =>
    simp only [visibleFields, given, hvisible, Option.map_none, ← hrecord]
    rfl
  | some c =>
    simp only [visibleFields, given, hvisible] at hdepth ⊢
    have hread := c.read_toValue nesting (h c hvisible) (hdepth _ List.mem_cons_self)
    have hfield : format.field record "visible" nesting (Draft.ofValue c.toValue) =
        .ok { record with visible := some (some c) } := by
      change (do
        return { record with
          visible := ← readOnce "visible" record.visible (readOptional Condition.read) nesting
            _ }) = _
      rw [hrecord, readOnce, Condition.readOptional_ofValue hread]
      rfl
    exact RecordFormat.readMembers_cons hfield

theorem legible_values (h : ∀ v ∈ e.values, v.Legible) :
    e.props.Legible ∧ ∀ c ∈ e.visible, ∀ v ∈ c.values, v.Legible := by
  obtain ⟨hprops, hrest⟩ := List.forall_mem_cons.1 h
  refine ⟨hprops, fun c hc v hv => hrest v (List.mem_flatMap.2 ⟨c, ?_, hv⟩)⟩
  rw [Option.mem_toList]
  exact hc

/-- The document of an element is read as the element. -/
theorem read_toValue (h : ∀ v ∈ e.values, v.Legible) (hdepth : e.toValue.depth ≤ nesting) :
    read nesting (Draft.ofValue e.toValue) = .ok e := by
  obtain ⟨hprops, hvisible⟩ := legible_values h
  rw [toValue_eq] at hdepth ⊢
  obtain ⟨n, rfl, hfields⟩ := Value.exists_nesting_object hdepth
  simp only [List.forall_mem_append] at hfields
  obtain ⟨⟨⟨hleading, hchildren⟩, -⟩, hlast⟩ := hfields
  have hpropsDepth : e.props.depth ≤ n := hleading ("props", e.props) (by simp [leadingFields])
  have hmembers : format.readMembers n format.start
      (Draft.ofFields (e.leadingFields ++ e.childrenFields ++ e.parentFields ++ e.visibleFields))
      .closed = .ok e.given := by
    rw [List.append_assoc, List.append_assoc,
      RecordFormat.readMembers_append (readMembers_leadingFields hprops hpropsDepth),
      RecordFormat.readMembers_append (readMembers_childrenFields rfl hchildren),
      RecordFormat.readMembers_append (readMembers_parentFields rfl),
      readMembers_visibleFields rfl hvisible hlast]
    rfl
  have hread : format.read (n + 1) (Draft.ofValue (.object (e.leadingFields ++ e.childrenFields ++
      e.parentFields ++ e.visibleFields))) = .ok e.given := hmembers
  rw [read, hread]
  obtain ⟨key, type, props, children, parentKey, visible⟩ := e
  cases children <;> cases visible <;> rfl

theorem distinct_fields (e : Element) :
    Entries.Distinct (e.leadingFields ++ e.childrenFields ++ e.parentFields ++
      e.visibleFields) := by
  rw [Entries.Distinct, childrenFields, visibleFields]
  cases e.children.isEmpty <;> cases e.visible <;>
    simp [Entries.names, leadingFields, parentFields]

theorem legible_toValue (h : ∀ v ∈ e.values, v.Legible) : e.toValue.Legible := by
  obtain ⟨hprops, hvisible⟩ := legible_values h
  rw [toValue_eq]
  apply Value.legible_object e.distinct_fields
  simp only [List.forall_mem_append]
  refine ⟨⟨⟨?_, ?_⟩, ?_⟩, ?_⟩
  · simp only [leadingFields, List.forall_mem_cons]
    exact ⟨Value.legible_string _, Value.legible_string _, hprops, nofun⟩
  · rw [childrenFields]
    split
    · exact nofun
    · rw [List.forall_mem_singleton]
      exact Value.legible_array (List.forall_mem_map.2 fun name _ => Value.legible_string name)
  · rw [parentFields, List.forall_mem_singleton]
    cases e.parentKey with
    | none => exact Value.legible_null
    | some parent => exact Value.legible_string parent
  · rw [visibleFields, List.forall_mem_map]
    intro c hc
    exact c.legible_toValue (hvisible c (Option.mem_toList.1 hc))

end Element

end CatalogUi
