import CatalogUi.Proofs.Conformance
import CatalogUi.Proofs.Sameness

/-!
Places where a value violates a shape. From a value and its shape one descends to the fields of an
object and to the items of an array, for as long as the shape declares such parts; marks for values
that may be absent or null are looked through. The places are ordered: declared fields as they are
declared, items by index, and undeclared fields, as they are given, after the declared ones.
-/

namespace CatalogUi.Schema

/-- The shape without the marks around it for values that may be absent or null. -/
def core : Schema → Schema
  | .optional inner _ => inner.core
  | .nullable inner => inner.core
  | s => s

/-- Null fits, because one of the marks around the shape says so. -/
def allowsNull : Schema → Bool
  | .optional inner _ => inner.allowsNull
  | .nullable _ => true
  | _ => false

/-- The value is of the kind that the shape declares. -/
def DeclaresKind : Schema → Value → Prop
  | .string, .string _ | .oneOf _, .string _ | .path, .string _ => True
  | .number _ _, .number _ => True
  | .boolean, .bool _ => True
  | .array _, .array _ => True
  | .object _, .object _ => True
  | _, _ => False

/-- What is wrong with a value as a whole, whatever its parts are. -/
inductive Misfit : Schema → Value → SchemaFault → Prop
  | kind {s : Schema} {v : Value} (h : ¬ s.DeclaresKind v) : Misfit s v (.mismatch s (some v))
  /-- A number fails a test against a bound, by its floating-point value. Every number fails it where
  the bound is no number. -/
  | bounds {min max : Option Bound} {n : Number}
      (h : (∃ least ∈ min, ¬ least ≤ .finite n.toDouble) ∨
        ∃ most ∈ max, ¬ .finite n.toDouble ≤ most) :
      Misfit (.number min max) (.number n) (.mismatch (.number min max) (some (.number n)))
  | choice {values : List String} {t : String} (h : t ∉ values) :
      Misfit (.oneOf values) (.string t) (.mismatch (.oneOf values) (some (.string t)))
  | path {t : String} {e : BindingError} (h : Path.parse t = .error e) :
      Misfit .path (.string t) (.badPath e (.string t))

/-- A place where a value, or its absence, violates a shape, and why. -/
inductive Violation (strict : Bool) : Schema → Option Value → Place → SchemaFault → Prop
  | absent {s : Schema} (h : s.isOptional = false) : Violation strict s none [] (.mismatch s none)
  | misfit {s : Schema} {v : Value} {fault : SchemaFault}
      (hnull : v = .null → s.allowsNull = false) (h : Misfit s.core v fault) :
      Violation strict s (some v) [] fault
  | field {s t : Schema} {fields : List (String × Schema)} {given : List (String × Value)}
      {name : String} {place : Place} {fault : SchemaFault} (hs : s.core = .object fields)
      (hfield : (name, t) ∈ fields) (h : Violation strict t (Entries.get? given name) place fault) :
      Violation strict s (some (.object given)) (.field name :: place) fault
  | item {s items : Schema} {given : List Value} {index : Nat} {v : Value} {place : Place}
      {fault : SchemaFault} (hs : s.core = .array items) (hitem : given[index]? = some v)
      (h : Violation strict items (some v) place fault) :
      Violation strict s (some (.array given)) (.item index :: place) fault
  | undeclared {s : Schema} {fields : List (String × Schema)} {given : List (String × Value)}
      {name : String} {v : Value} (hstrict : strict = true) (hs : s.core = .object fields)
      (hgiven : (name, v) ∈ given) (hname : name ∉ Entries.names fields) :
      Violation strict s (some (.object given)) [.field name] (.undeclared v)

/-- The names of the fields of an object in the order in which they are looked at: the declared ones
as they are declared, and after them the others as they are given. -/
def fieldOrder (fields : List (String × Schema)) (given : List (String × Value)) : List String :=
  Entries.names fields ++ (Entries.names given).filter (· ∉ Entries.names fields)

/-- Of two places in a value, which one comes first by its shape. -/
inductive Precedes : Schema → Option Value → Place → Place → Prop
  | field {s : Schema} {fields : List (String × Schema)} {given : List (String × Value)}
      {name other : String} {place place' : Place} (hs : s.core = .object fields)
      (h : [name, other].Sublist (fieldOrder fields given)) :
      Precedes s (some (.object given)) (.field name :: place) (.field other :: place')
  | item {s items : Schema} {given : List Value} {index other : Nat} {place place' : Place}
      (hs : s.core = .array items) (h : index < other) :
      Precedes s (some (.array given)) (.item index :: place) (.item other :: place')
  | insideField {s t : Schema} {fields : List (String × Schema)} {given : List (String × Value)}
      {name : String} {place place' : Place} (hs : s.core = .object fields)
      (hfield : (name, t) ∈ fields) (h : Precedes t (Entries.get? given name) place place') :
      Precedes s (some (.object given)) (.field name :: place) (.field name :: place')
  | insideItem {s items : Schema} {given : List Value} {index : Nat} {v : Value}
      {place place' : Place} (hs : s.core = .array items) (hitem : given[index]? = some v)
      (h : Precedes items (some v) place place') :
      Precedes s (some (.array given)) (.item index :: place) (.item index :: place')

variable {strict : Bool} {s t items : Schema} {fields : List (String × Schema)}
  {given : List (String × Value)} {value : Option Value} {v : Value} {place place' : Place}
  {fault : SchemaFault} {name : String}

/-! ## Shapes without marks -/

theorem core_cases (s : Schema) :
    s.core.IsPlain ∨ (∃ items, s.core = .array items) ∨ ∃ fields, s.core = .object fields := by
  induction s using Schema.induct with
  | plain s hs =>
    left
    cases s <;> first | exact hs | exact hs.elim
  | array items => exact .inr (.inl ⟨items, rfl⟩)
  | object fields => exact .inr (.inr ⟨fields, rfl⟩)
  | optional inner default ih => exact ih
  | nullable inner ih => exact ih

/-- What holds of a shape when it holds of the shapes that are declared for its parts holds of every
shape. -/
@[elab_as_elim]
theorem inductParts {motive : Schema → Prop}
    (step : ∀ s : Schema, (∀ items, s.core = .array items → motive items) →
      (∀ fields, s.core = .object fields → ∀ field ∈ fields, motive field.2) → motive s)
    (s : Schema) : motive s := by
  suffices h : (∀ items, s.core = .array items → motive items) ∧
      ∀ fields, s.core = .object fields → ∀ field ∈ fields, motive field.2 from step s h.1 h.2
  induction s using Schema.induct with
  | plain s hs =>
    constructor
    all_goals
      intro _ heq
      cases s <;> first | exact hs.elim | cases heq
  | array items ih =>
    refine ⟨fun items' heq => ?_, fun _ heq => (nomatch heq)⟩
    cases heq
    exact step items ih.1 ih.2
  | object fields ih =>
    refine ⟨fun _ heq => (nomatch heq), fun fields' heq field hmem => ?_⟩
    cases heq
    exact step field.2 (ih field hmem).1 (ih field hmem).2
  | optional inner default ih => exact ih
  | nullable inner ih => exact ih

theorem WellFormed.core (hs : s.WellFormed) : s.core.WellFormed := by
  induction s using Schema.induct with
  | plain s hplain => cases s <;> first | exact hs | exact hplain.elim
  | array items => exact hs
  | object fields => exact hs
  | optional inner default ih => exact ih hs.1
  | nullable inner ih => exact ih hs

theorem WellFormed.ofItems (hs : s.WellFormed) (hcore : s.core = .array items) : items.WellFormed := by
  have hwf := hs.core
  rw [hcore] at hwf
  exact hwf

theorem WellFormed.ofFields (hs : s.WellFormed) (hcore : s.core = .object fields) :
    Entries.Distinct fields ∧ ∀ field ∈ fields, field.2.WellFormed := by
  have hwf := hs.core
  rw [hcore, wellFormed_object_iff] at hwf
  exact hwf

/-! ## Violations by the place where they stand -/

theorem violation_none_iff : Violation strict s none place fault ↔
    s.isOptional = false ∧ place = [] ∧ fault = .mismatch s none := by
  constructor
  · rintro ⟨⟩
    exact ⟨‹_›, rfl, rfl⟩
  · rintro ⟨h, rfl, rfl⟩
    exact .absent h

theorem not_violation_null (h : s.allowsNull = true) :
    ¬ Violation strict s (some .null) place fault := by
  rintro ⟨⟩
  rename_i hnull hmisfit
  cases (hnull rfl).symm.trans h

theorem not_misfit_array {given : List Value} : ¬ Misfit (.array items) (.array given) fault := by
  rintro ⟨⟩
  exact ‹¬ _› trivial

theorem not_misfit_object : ¬ Misfit (.object fields) (.object given) fault := by
  rintro ⟨⟩
  exact ‹¬ _› trivial

/-- In a sequence that should be one, violations are those of its items. -/
theorem violation_array_iff {given : List Value} (hs : s.core = .array items) :
    Violation strict s (some (.array given)) place fault ↔
      ∃ index v rest, given[index]? = some v ∧ place = .item index :: rest ∧
        Violation strict items (some v) rest fault := by
  constructor
  · rintro (_ | ⟨-, hmisfit⟩ | _ | ⟨hs', hitem, h⟩ | _)
    · exact (not_misfit_array (hs ▸ hmisfit)).elim
    · cases hs.symm.trans hs'
      exact ⟨_, _, _, hitem, rfl, h⟩
  · rintro ⟨index, v, rest, hitem, rfl, h⟩
    exact .item hs hitem h

/-- In an object that should be one, violations are those of its declared fields, and undeclared
fields. -/
theorem violation_object_iff (hs : s.core = .object fields) :
    Violation strict s (some (.object given)) place fault ↔
      (∃ field ∈ fields, ∃ rest, place = .field field.1 :: rest ∧
        Violation strict field.2 (Entries.get? given field.1) rest fault) ∨
      (strict = true ∧ ∃ entry ∈ given, entry.1 ∉ Entries.names fields ∧
        place = [.field entry.1] ∧ fault = .undeclared entry.2) := by
  constructor
  · rintro (_ | ⟨-, hmisfit⟩ | ⟨hs', hfield, h⟩ | _ | ⟨hstrict, hs', hgiven, hname⟩)
    · exact (not_misfit_object (hs ▸ hmisfit)).elim
    · cases hs.symm.trans hs'
      exact .inl ⟨_, hfield, _, rfl, h⟩
    · cases hs.symm.trans hs'
      exact .inr ⟨hstrict, _, hgiven, hname, rfl, rfl⟩
  · rintro (⟨field, hmem, rest, rfl, h⟩ | ⟨hstrict, entry, hmem, hname, rfl, rfl⟩)
    · exact .field hs hmem h
    · exact .undeclared hstrict hs hmem hname

/-- Any other value can only violate the shape as a whole. -/
theorem violation_whole_iff (hnull : v = .null → s.allowsNull = false)
    (harray : ∀ items given, s.core = .array items → v ≠ .array given)
    (hobject : ∀ fields given, s.core = .object fields → v ≠ .object given) :
    Violation strict s (some v) place fault ↔ place = [] ∧ Misfit s.core v fault := by
  constructor
  · rintro (_ | ⟨-, hmisfit⟩ | ⟨hs, -, -⟩ | ⟨hs, -, -⟩ | ⟨-, hs, -, -⟩)
    · exact ⟨rfl, hmisfit⟩
    · exact (hobject _ _ hs rfl).elim
    · exact (harray _ _ hs rfl).elim
    · exact (hobject _ _ hs rfl).elim
  · rintro ⟨rfl, h⟩
    exact .misfit hnull h

/-! ## The order of places -/

theorem nodup_fieldOrder (hfields : Entries.Distinct fields) (hgiven : Entries.Distinct given) :
    (fieldOrder fields given).Nodup := by
  refine List.nodup_append.2 ⟨hfields, List.Nodup.filter _ hgiven, ?_⟩
  rintro name hdeclared other hother rfl
  exact of_decide_eq_true (List.mem_filter.1 hother).2 hdeclared

/-- No place comes before itself. -/
theorem not_precedes_self (hs : s.WellFormed) (hvalue : ∀ v ∈ value, v.WellFormed) :
    ¬ Precedes s value place place := by
  intro h
  induction place generalizing s value with
  | nil => cases h
  | cons step rest ih =>
    cases h with
    | field hcore hsub =>
      have hgiven := (Value.wellFormed_object_iff.1 (hvalue _ rfl)).1
      have hnodup := (nodup_fieldOrder (hs.ofFields hcore).1 hgiven).sublist hsub
      exact (List.nodup_cons.1 hnodup).1 List.mem_cons_self
    | item hcore hlt => exact Nat.lt_irrefl _ hlt
    | insideField hcore hfield h =>
      have hgiven := (Value.wellFormed_object_iff.1 (hvalue _ rfl)).2
      refine ih ((hs.ofFields hcore).2 _ hfield) (fun v hv => ?_) h
      exact hgiven _ (Entries.mem_of_get? hv)
    | insideItem hcore hitem h =>
      have hgiven := Value.wellFormed_array_iff.1 (hvalue _ rfl)
      refine ih (hs.ofItems hcore) (fun v hv => ?_) h
      cases hv
      exact hgiven _ (List.mem_of_getElem? hitem)

end CatalogUi.Schema
