import CatalogUi.Schema.Descriptor
import CatalogUi.Proofs.Conformance
import CatalogUi.Proofs.Document

/-!
Descriptors that were written. The descriptor of a shape is read as the shape, except that a default
of null is lost, and a bound that is not finite: both are written as null, and on the way back a null
stands for no default and for no bound.
-/

namespace CatalogUi

namespace Entries

variable {α : Type}

theorem set_of_notMem {entries : List (String × α)} {name : String} (value : α)
    (h : name ∉ names entries) : set entries name value = entries ++ [(name, value)] := by
  induction entries with
  | nil => rfl
  | cons entry rest ih =>
    rw [names_cons, List.mem_cons, not_or] at h
    obtain ⟨key, old⟩ := entry
    have hkey : key ≠ name := fun heq => h.1 heq.symm
    rw [set, if_neg hkey, ih h.2, List.cons_append]

theorem foldl_set_of_distinct {before after : List (String × α)} (h : Distinct (before ++ after)) :
    after.foldl (fun entries pair => set entries pair.1 pair.2) before = before ++ after := by
  induction after generalizing before with
  | nil => rw [List.foldl_nil, List.append_nil]
  | cons pair rest ih =>
    have hnew : pair.1 ∉ names before := by
      rw [Distinct, names, List.map_append, List.map_cons] at h
      have hdisjoint := (List.nodup_append.1 h).2.2
      exact fun hmem => hdisjoint _ hmem _ List.mem_cons_self rfl
    rw [List.foldl_cons, set_of_notMem _ hnew, ih, List.append_assoc, List.singleton_append]
    rwa [List.append_assoc, List.singleton_append]

/-- Pairs without a repeated name are entries as they stand. -/
theorem ofPairs_of_distinct {pairs : List (String × α)} (h : Distinct pairs) :
    ofPairs pairs = pairs :=
  @foldl_set_of_distinct α [] pairs h

end Entries

namespace Value

theorem mergedItems_eq_self {items : List Value} (h : ∀ v ∈ items, v.merged = v) :
    mergedItems items = items := by
  induction items with
  | nil => rfl
  | cons v rest ih =>
    obtain ⟨hv, hrest⟩ := List.forall_mem_cons.1 h
    rw [mergedItems, hv, ih hrest]

theorem mergedFields_eq_self {fields : List (String × Value)}
    (h : ∀ field ∈ fields, field.2.merged = field.2) : mergedFields fields = fields := by
  induction fields with
  | nil => rfl
  | cons field rest ih =>
    obtain ⟨hfield, hrest⟩ := List.forall_mem_cons.1 h
    rw [mergedFields, hfield, ih hrest]

/-- A well-formed value has nothing to merge. -/
theorem merged_of_wellFormed {v : Value} (h : v.WellFormed) : v.merged = v := by
  induction v using Value.induct with
  | null | bool | number | string => rfl
  | array items ih =>
    have hitems := wellFormed_array_iff.1 h
    rw [merged, mergedItems_eq_self fun v hmem => ih v hmem (hitems v hmem)]
  | object fields ih =>
    obtain ⟨hd, hfields⟩ := wellFormed_object_iff.1 h
    rw [merged, mergedFields_eq_self fun field hmem => ih field hmem (hfields field hmem),
      Entries.ofPairs_of_distinct hd]

end Value

namespace Schema

open Json

/-- A default, unless it is null. -/
def nonNull : Option Value → Option Value
  | some .null => none
  | default => default

/-- A bound, if it is finite. -/
def finiteOnly (bound : Option Bound) : Option Bound :=
  (bound.bind Bound.finite?).map .finite

mutual

/-- The shape as it comes back: without the defaults that are null, and without the bounds that are
not finite. -/
def asRead : Schema → Schema
  | .number min max => .number (finiteOnly min) (finiteOnly max)
  | .array items => .array (asRead items)
  | .object fields => .object (asReadFields fields)
  | .optional inner default => .optional (asRead inner) (nonNull default)
  | .nullable inner => .nullable (asRead inner)
  | s => s

def asReadFields : List (String × Schema) → List (String × Schema)
  | [] => []
  | (name, s) :: rest => (name, asRead s) :: asReadFields rest

end

theorem asReadFields_eq (fields : List (String × Schema)) :
    asReadFields fields =
      fields.map fun field => (field.1, field.2.asRead) := by
  induction fields with
  | nil => rfl
  | cons field rest ih => rw [asReadFields, ih, List.map_cons]

/-! ## Interpreting descriptors -/

theorem defaultOf_of_wellFormed {v : Value} (h : v.WellFormed) :
    defaultOf v = nonNull (some v) := by
  have hmerged := Value.merged_of_wellFormed h
  cases v <;> simp [defaultOf, nonNull, hmerged]

theorem mapM_stringOf (values : List String) :
    (values.map Value.string).mapM stringOf = .ok values := by
  induction values with
  | nil => rfl
  | cons t rest ih => rw [List.map_cons, List.mapM_cons, ih]; rfl

theorem ofFields_toValueFields {fields : List (String × Schema)}
    (h : ∀ field ∈ fields, ofValue field.2.toValue = .ok field.2.asRead) :
    ofFields (toValueFields fields) = .ok (asReadFields fields) := by
  induction fields with
  | nil => rfl
  | cons field rest ih =>
    obtain ⟨hfield, hrest⟩ := List.forall_mem_cons.1 h
    rw [toValueFields, ofFields, hfield, ih hrest]
    rfl

theorem innerAmong_pair (kind : Value) {field : String} (hfield : "type" ≠ field) (v : Value) :
    innerAmong field none [("type", kind), (field, v)] = ofValue v := by
  rw [innerAmong, if_neg hfield, innerAmong, if_pos rfl]
  simp only [Option.isSome_none, Bool.false_eq_true, if_false, innerAmong, needed]
  cases ofValue v <;> rfl

theorem optionalAmong_pair (kind v : Value) :
    optionalAmong none none [("type", kind), ("inner", v)] =
      (ofValue v).map (.optional · none) := by
  rw [optionalAmong, if_neg (by decide), if_neg (by decide), optionalAmong, if_pos rfl]
  simp only [Option.isSome_none, Bool.false_eq_true, if_false, optionalAmong, needed]
  cases ofValue v <;> rfl

theorem optionalAmong_triple (kind v default : Value) :
    optionalAmong none none [("type", kind), ("inner", v), ("default", default)] =
      (ofValue v).map (.optional · (defaultOf default)) := by
  rw [optionalAmong, if_neg (by decide), if_neg (by decide), optionalAmong, if_pos rfl]
  simp only [Option.isSome_none, Bool.false_eq_true, if_false, optionalAmong, needed]
  cases ofValue v <;> rfl

theorem fieldsAmong_pair (kind : String) (members : List (String × Value)) :
    fieldsAmong none [("type", .string kind), ("fields", .object members)] =
      (ofFields members).map Entries.ofPairs := by
  rw [fieldsAmong, if_neg (by decide), fieldsAmong, if_pos rfl]
  · simp only [Option.isSome_none, Bool.false_eq_true, if_false, fieldsAmong, needed]
    cases ofFields members <;> rfl
  · exact fun _ h => nomatch h

theorem boundOf_boundValue (bound : Bound) :
    boundOf (boundValue bound) = .ok (finiteOnly (some bound)) := by
  cases bound <;> rfl

theorem ofValue_number (min max : Option Bound) :
    ofValue (number min max).toValue = .ok (number min max).asRead := by
  calc ofValue (number min max).toValue
    _ = boundsAmong none none (("type", .string "number") ::
        (min.toList.map fun bound => ("min", boundValue bound)) ++
        (max.toList.map fun bound => ("max", boundValue bound))) := by cases min <;> cases max <;> rfl
    _ = .ok (.number (finiteOnly min) (finiteOnly max)) := by
        cases min <;> cases max <;>
          simp [boundsAmong, once, boundOf_boundValue, Except.map, bind, Except.bind, finiteOnly]

/-- The descriptor of a shape is interpreted as the shape as it comes back. -/
theorem ofValue_toValue {s : Schema} (h : s.WellFormed) :
    ofValue s.toValue = .ok s.asRead := by
  induction s using Schema.induct with
  | plain s hs =>
    cases s with
    | number min max => exact ofValue_number min max
    | oneOf values =>
      calc ofValue (oneOf values).toValue
        _ = valuesAmong none [("type", .string "enum"),
            ("values", .array (values.map .string))] := rfl
        _ = .ok (.oneOf values) := by
            rw [valuesAmong, if_neg (by decide), valuesAmong, if_pos rfl, stringsOf,
              mapM_stringOf]
            rfl
    | string | boolean | path => rfl
    | _ => exact hs.elim
  | array items ih =>
    calc ofValue (array items).toValue
      _ = (innerAmong "items" none
          [("type", .string "array"), ("items", items.toValue)]).map array := rfl
      _ = .ok (.array items.asRead) := by
          rw [innerAmong_pair _ (by decide), ih h, Except.map]
  | object fields ih =>
    obtain ⟨hd, hfields⟩ := wellFormed_object_iff.1 h
    have hread := ofFields_toValueFields fun field hmem => ih field hmem (hfields field hmem)
    have hdistinct : Entries.Distinct (asReadFields fields) := by
      rw [Entries.Distinct, asReadFields_eq, Entries.names_map]
      exact hd
    calc ofValue (object fields).toValue
      _ = (fieldsAmong none [("type", .string "object"),
          ("fields", .object (toValueFields fields))]).map object := rfl
      _ = .ok (.object (asReadFields fields)) := by
          rw [fieldsAmong_pair, hread, Except.map, Entries.ofPairs_of_distinct hdistinct,
            Except.map]
  | optional inner default ih =>
    cases default with
    | none =>
      calc ofValue (optional inner none).toValue
        _ = optionalAmong none none
            [("type", .string "optional"), ("inner", inner.toValue)] := rfl
        _ = .ok (.optional inner.asRead none) := by
            rw [optionalAmong_pair, ih h.1, Except.map]
    | some v =>
      calc ofValue (optional inner (some v)).toValue
        _ = optionalAmong none none
            [("type", .string "optional"), ("inner", inner.toValue), ("default", v)] := rfl
        _ = .ok (.optional inner.asRead (nonNull (some v))) := by
            rw [optionalAmong_triple, ih h.1, Except.map, defaultOf_of_wellFormed (h.2 v rfl)]
  | nullable inner ih =>
    calc ofValue (nullable inner).toValue
      _ = (innerAmong "inner" none
          [("type", .string "nullable"), ("inner", inner.toValue)]).map nullable := rfl
      _ = .ok (.nullable inner.asRead) := by
          rw [innerAmong_pair _ (by decide), ih h, Except.map]

/-! ## Reading descriptors -/

theorem readMembers_ofFields {nesting : Nat} {fields : List (String × Value)}
    (hnames : ∀ field ∈ fields, field.1 ≠ "type")
    (hdepth : ∀ field ∈ fields, field.2.depth ≤ nesting) :
    readMembers nesting true (Draft.ofFields fields) .closed = .ok fields := by
  induction fields with
  | nil => rfl
  | cons field rest ih =>
    obtain ⟨hname, hrest⟩ := List.forall_mem_cons.1 hnames
    obtain ⟨hfield, hdeep⟩ := List.forall_mem_cons.1 hdepth
    rw [Draft.ofFields, readMembers, if_neg hname, readVerbatim_ofValue hfield, ih hrest hdeep]
    rfl

/-- A descriptor begins with the kind, which is given once. -/
theorem exists_toValue_eq (s : Schema) : ∃ kind fields,
    s.toValue = .object (("type", .string kind) :: fields) ∧ kind ∈ kinds ∧
      ∀ field ∈ fields, field.1 ≠ "type" := by
  cases s with
  | number min max =>
    refine ⟨"number", _, rfl, by decide, ?_⟩
    cases min <;> cases max <;> simp
  | optional inner default =>
    refine ⟨"optional", _, rfl, by decide, ?_⟩
    cases default <;> simp
  | _ => exact ⟨_, _, rfl, by decide, by simp⟩

theorem readDescriptor_toValue {nesting : Nat} {s : Schema} (h : s.toValue.depth ≤ nesting) :
    readDescriptor nesting (Draft.ofValue s.toValue) = .ok s.toValue := by
  obtain ⟨kind, fields, heq, hkind, hnames⟩ := s.exists_toValue_eq
  rw [heq] at h ⊢
  cases nesting with
  | zero => cases h
  | succ n =>
    rw [Value.depth_object_le_iff, List.forall_mem_cons] at h
    have hmembers := readMembers_ofFields hnames h.2
    simp only [Draft.ofValue, Draft.ofFields, readDescriptor, enter, readMembers, if_true,
      readKind, if_pos hkind, hmembers, bind, Except.bind, pure, Except.pure,
      Bool.false_eq_true, if_false]

/-- The descriptor of a shape is read as the shape as it comes back. -/
theorem read_toValue {nesting : Nat} {s : Schema} (hs : s.WellFormed)
    (hdepth : s.toValue.depth ≤ nesting) :
    read nesting (Draft.ofValue s.toValue) = .ok s.asRead := by
  rw [read, readDescriptor_toValue hdepth]
  simp only [bind, Except.bind, ofValue_toValue hs, pure, Except.pure]

end Schema

end CatalogUi
