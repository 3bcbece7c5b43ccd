import CatalogUi.Schema.Check
import CatalogUi.Proofs.Outcome
import Mathlib.Data.List.Forall2
import Mathlib.Data.List.Nodup

/-!
Checks that go well. What such a check gives does not depend on the place, and what a strict check
gives a lenient one gives too. For each kind of shape it is said what is accepted and what is given
for it; the result for an object has its fields in the order of their declaration.
-/

namespace CatalogUi

namespace Entries

variable {α : Type}

theorem mem_names_of_mem {entries : List (String × α)} {entry : String × α} (h : entry ∈ entries) :
    entry.1 ∈ names entries :=
  List.mem_map_of_mem h

theorem Distinct.eq_of_mem {entries : List (String × α)} (hd : Distinct entries)
    {entry other : String × α} (hmem : entry ∈ entries) (hmem' : other ∈ entries)
    (hname : entry.1 = other.1) : entry.2 = other.2 := by
  have hget := hd.get?_of_mem hmem
  rw [hname, hd.get?_of_mem hmem'] at hget
  exact (Option.some.inj hget).symm

theorem names_subset_set (entries : List (String × α)) (name : String) (value : α) :
    names entries ⊆ names (set entries name value) := by
  rw [names_set]
  split
  · exact List.Subset.refl _
  · exact List.subset_append_left _ _

/-- What there is for every entry there is for the name of every entry. -/
theorem Distinct.exists_by_name {β : Type} {entries : List (String × α)} (hd : Distinct entries)
    {P : String × α → β → Prop} (h : ∀ entry ∈ entries, ∃ b, P entry b) :
    ∃ value : String → Option β, (∀ entry ∈ entries, ∃ b, value entry.1 = some b ∧ P entry b) ∧
      ∀ name b, value name = some b → ∃ entry ∈ entries, P entry b := by
  have hopt (entry : String × α) :
      ∃ r : Option β, entry ∈ entries → ∃ b, r = some b ∧ P entry b := by
    by_cases hmem : entry ∈ entries
    · obtain ⟨b, hb⟩ := h entry hmem
      exact ⟨some b, fun _ => ⟨b, rfl, hb⟩⟩
    · exact ⟨none, fun hmem' => absurd hmem' hmem⟩
  choose f hf using hopt
  refine ⟨fun name => (get? entries name).bind fun a => f (name, a), fun entry hmem => ?_,
    fun name b hb => ?_⟩
  · simp only [hd.get?_of_mem hmem, Option.bind_some]
    exact hf entry hmem
  · obtain ⟨a, ha, hb⟩ := Option.bind_eq_some_iff.1 hb
    obtain ⟨b', hb', hP⟩ := hf _ (mem_of_get? ha)
    cases hb.symm.trans hb'
    exact ⟨_, mem_of_get? ha, hP⟩

/-- The values of the given names that have one, in the order of the names. -/
def arrange (names : List String) (value : String → Option α) : List (String × α) :=
  names.filterMap fun name => (value name).map fun v => (name, v)

theorem names_cons (entry : String × α) (rest : List (String × α)) :
    names (entry :: rest) = entry.1 :: names rest := rfl

theorem get?_eq_none_iff {entries : List (String × α)} {name : String} :
    get? entries name = none ↔ name ∉ names entries := by
  rw [mem_names_iff, Option.eq_none_iff_forall_ne_some, not_exists]

theorem get?_front_self (v : Option α) {name : String} {rest : List (String × α)}
    (h : name ∉ names rest) : get? ((v.toList.map fun v => (name, v)) ++ rest) name = v := by
  cases v with
  | none => exact get?_eq_none_iff.2 h
  | some v => simp [get?]

theorem get?_front_of_ne (v : Option α) {name other : String} {rest : List (String × α)}
    (h : other ≠ name) :
    get? ((v.toList.map fun v => (name, v)) ++ rest) other = get? rest other := by
  cases v with
  | none => rfl
  | some v => simp [get?, h.symm]

theorem arrange_cons (name : String) (rest : List String) (value : String → Option α) :
    arrange (name :: rest) value =
      ((value name).toList.map fun v => (name, v)) ++ arrange rest value := by
  cases h : value name <;> simp [arrange, h]

/-- The values of other names do not matter. -/
theorem arrange_congr {names : List String} {value value' : String → Option α}
    (h : ∀ name ∈ names, value name = value' name) : arrange names value = arrange names value' :=
  List.filterMap_congr fun name hmem => by rw [h name hmem]

theorem names_arrange (names : List String) (value : String → Option α) :
    Entries.names (arrange names value) = names.filter fun name => (value name).isSome := by
  induction names with
  | nil => rfl
  | cons first rest ih =>
    rw [arrange_cons, Entries.names, List.map_append, ← Entries.names, ← Entries.names, ih]
    cases h : value first <;> simp [Entries.names, h]

theorem get?_arrange (names : List String) (value : String → Option α) (name : String) :
    get? (arrange names value) name = if name ∈ names then value name else none := by
  induction names with
  | nil => rfl
  | cons first rest ih =>
    rw [arrange_cons]
    by_cases hname : name = first
    · subst hname
      cases hget : value name with
      | none => simp [ih, hget]
      | some v => simp [get?]
    · simp [get?_front_of_ne _ hname, ih, hname]

end Entries

namespace Checked

variable {α β γ : Type}

theorem both_ok_iff {f : α → β → γ} {x : Checked α} {y : Checked β} {c : γ} :
    both f x y = .ok c ↔ ∃ a b, x = .ok a ∧ y = .ok b ∧ f a b = c := by
  cases x <;> cases y <;> simp [both]

theorem withErrors_ok_iff {x : Checked α} {errors : List SchemaError} {a : α} :
    x.withErrors errors = .ok a ↔ errors = [] ∧ x = .ok a := by
  cases errors with
  | nil => simp [withErrors]
  | cons e rest => cases x <;> simp [withErrors, both]

end Checked

namespace Schema

open Checked

/-- A shape without parts: neither an array nor an object, and nothing around another shape. -/
def IsPlain : Schema → Prop
  | .array _ | .object _ | .optional _ _ | .nullable _ => False
  | _ => True

/-- What holds of a shape when it holds of the shapes in it holds of every shape. -/
@[elab_as_elim]
theorem induct {motive : Schema → Prop} (plain : ∀ s, s.IsPlain → motive s)
    (array : ∀ items, motive items → motive (.array items))
    (object : ∀ fields : List (String × Schema), (∀ field ∈ fields, motive field.2) →
      motive (.object fields))
    (optional : ∀ inner default, motive inner → motive (.optional inner default))
    (nullable : ∀ inner, motive inner → motive (.nullable inner)) (s : Schema) : motive s :=
  @Schema.rec motive (fun fields => ∀ field ∈ fields, motive field.2) (fun field => motive field.2)
    (plain .string trivial) (fun _ _ => plain _ trivial) (plain .boolean trivial)
    (fun _ => plain _ trivial) array (plain .path trivial) object optional nullable nofun
    (fun _ _ hfield hrest => List.forall_mem_cons.2 ⟨hfield, hrest⟩) (fun _ _ h => h) s

theorem wellFormedFields_iff {fields : List (String × Schema)} :
    WellFormedFields fields ↔ ∀ field ∈ fields, field.2.WellFormed := by
  induction fields with
  | nil => simp [WellFormedFields]
  | cons field rest ih => simp [WellFormedFields, ih]

theorem wellFormed_object_iff {fields : List (String × Schema)} :
    (object fields).WellFormed ↔
      Entries.Distinct fields ∧ ∀ field ∈ fields, field.2.WellFormed := by
  rw [WellFormed, wellFormedFields_iff]

/-- A shape without parts takes a value as it is. -/
def Takes : Schema → Value → Prop
  | .string, .string _ => True
  | .number min max, .number n => inBounds min max n = true
  | .boolean, .bool _ => True
  | .oneOf values, .string t => t ∈ values
  | .path, .string t => ∃ p, Path.parse t = .ok p
  | _, _ => False

theorem checkScalar_ok_iff {place : Place} {s : Schema} {v : Value} {r : Option Value} :
    checkScalar place s v = .ok r ↔ s.Takes v ∧ r = some v := by
  have hsome : (Except.ok (some v) : Checked (Option Value)) = .ok r ↔ r = some v := by
    rw [Except.ok.injEq, eq_comm]
  cases s with
  | number min max =>
    cases v with
    | number n => cases h : inBounds min max n <;> simp [checkScalar, Takes, mismatch, h, hsome]
    | _ => simp [checkScalar, Takes, mismatch]
  | oneOf values =>
    cases v with
    | string t => by_cases h : t ∈ values <;> simp [checkScalar, Takes, mismatch, h, hsome]
    | _ => simp [checkScalar, Takes, mismatch]
  | path =>
    cases v with
    | string t => cases h : Path.parse t <;> simp [checkScalar, Takes, h, hsome]
    | _ => simp [checkScalar, Takes, mismatch]
  | _ => cases v <;> simp [checkScalar, Takes, mismatch, hsome]

/-! ## What is given -/

/-- A check of a value, or of its absence, goes well and gives the result. -/
def Gives (strict : Bool) (s : Schema) (value result : Option Value) : Prop :=
  checkAt strict [] s value = .ok result

theorem checkItems_ok_of_ok {check : Place → Value → Checked (Option Value)} {place place' : Place}
    (hcheck : ∀ place place' v r, check place v = .ok r → check place' v = .ok r)
    {given out : List Value} {index : Nat} (h : checkItems check place index given = .ok out) :
    checkItems check place' index given = .ok out := by
  induction given generalizing index out with
  | nil => exact h
  | cons v rest ih =>
    obtain ⟨r, more, hr, hmore, rfl⟩ := both_ok_iff.1 h
    exact both_ok_iff.2 ⟨r, more, hcheck _ _ v r hr, ih hmore, rfl⟩

theorem undeclared_eq_nil_iff {place : Place} {fields : List (String × Schema)}
    {given : List (String × Value)} :
    undeclared place fields given = [] ↔ Entries.names given ⊆ Entries.names fields := by
  simp [undeclared, Entries.names, Entries.has_iff_mem_names, List.subset_def]

theorem checkFields_ok_of_ok {strict : Bool} {fields : List (String × Schema)}
    (hfields : ∀ field ∈ fields, ∀ place place' value r,
      checkAt strict place field.2 value = .ok r → checkAt strict place' field.2 value = .ok r)
    {place place' : Place} {given out : List (String × Value)}
    (h : checkFields strict place given fields = .ok out) :
    checkFields strict place' given fields = .ok out := by
  induction fields generalizing out with
  | nil => exact h
  | cons field rest ih =>
    obtain ⟨r, more, hr, hmore, rfl⟩ := both_ok_iff.1 h
    obtain ⟨hfield, hrest⟩ := List.forall_mem_cons.1 hfields
    exact both_ok_iff.2 ⟨r, more, hfield _ _ _ r hr, ih hrest hmore, rfl⟩

theorem checkAt_ok_of_ok (strict : Bool) (s : Schema) : ∀ place place' value r,
    checkAt strict place s value = .ok r → checkAt strict place' s value = .ok r := by
  induction s using Schema.induct with
  | plain s hs =>
    intro place place' value r h
    cases value with
    | none => cases s <;> first | exact hs.elim | cases h
    | some v =>
      have hscalar (place : Place) : checkAt strict place s (some v) = checkScalar place s v := by
        cases s <;> first | rfl | exact hs.elim
      rw [hscalar, checkScalar_ok_iff] at h ⊢
      exact h
  | array items ih =>
    intro place place' value r h
    rw [checkAt.eq_def] at h ⊢
    dsimp only at h ⊢
    split at h
    · obtain ⟨out, hout, rfl⟩ := Outcome.map_ok_iff.1 h
      exact Outcome.map_ok_iff.2
        ⟨out, checkItems_ok_of_ok (fun p p' v => ih p p' (some v)) hout, rfl⟩
    · cases h
  | object fields ih =>
    intro place place' value r h
    rw [checkAt.eq_def] at h ⊢
    dsimp only at h ⊢
    split at h
    · obtain ⟨out, hout, rfl⟩ := Outcome.map_ok_iff.1 h
      obtain ⟨hnil, hout⟩ := withErrors_ok_iff.1 hout
      rw [ite_eq_right_iff, undeclared_eq_nil_iff] at hnil
      refine Outcome.map_ok_iff.2 ⟨out, withErrors_ok_iff.2 ⟨?_, checkFields_ok_of_ok ih hout⟩, rfl⟩
      rwa [ite_eq_right_iff, undeclared_eq_nil_iff]
    · cases h
  | optional inner default ih =>
    intro place place' value r h
    cases value with
    | none => exact h
    | some v => exact ih place place' (some v) r h
  | nullable inner ih =>
    intro place place' value r h
    rw [checkAt.eq_def] at h ⊢
    dsimp only at h ⊢
    split at h
    · exact h
    · exact ih place place' _ r h
    · split at h
      · rw [if_pos ‹_›]
        exact ih place place' none r h
      · cases h

variable {strict : Bool} {s inner items : Schema} {fields : List (String × Schema)}
  {default value r : Option Value} {v : Value}

/-- Where a check stands does not matter to its result. -/
theorem checkAt_ok_iff {place : Place} : checkAt strict place s value = .ok r ↔
    s.Gives strict value r :=
  ⟨checkAt_ok_of_ok strict s _ _ value r, checkAt_ok_of_ok strict s _ _ value r⟩

theorem gives_optional_none : (optional inner default).Gives strict none r ↔ r = default := by
  rw [Gives, checkAt, Except.ok.injEq, eq_comm]

theorem gives_optional_some :
    (optional inner default).Gives strict (some v) r ↔ inner.Gives strict (some v) r :=
  Iff.rfl

theorem gives_nullable_null : (nullable inner).Gives strict (some .null) r ↔ r = some .null := by
  rw [Gives, checkAt, Except.ok.injEq, eq_comm]

theorem gives_nullable_some (hv : v ≠ .null) :
    (nullable inner).Gives strict (some v) r ↔ inner.Gives strict (some v) r := by
  rw [Gives, checkAt.eq_def]
  cases v <;> first | exact (hv rfl).elim | exact Iff.rfl

theorem gives_nullable_none : (nullable inner).Gives strict none r ↔
    inner.isOptional = true ∧ inner.Gives strict none r := by
  rw [Gives, checkAt]
  split <;> simp_all [Gives, mismatch]

theorem gives_plain (hs : s.IsPlain) :
    s.Gives strict value r ↔ ∃ v, value = some v ∧ s.Takes v ∧ r = some v := by
  have hplain : s.Gives strict value r ↔
      ∃ v, value = some v ∧ checkScalar [] s v = .ok r := by
    cases s <;> cases value <;> first | exact hs.elim | simp [Gives, checkAt, mismatch]
  simp only [hplain, checkScalar_ok_iff]

/-- Only an absent value can be left out. -/
theorem Gives.exists_some (h : s.Gives strict (some v) r) : ∃ w, r = some w := by
  induction s using Schema.induct generalizing v with
  | plain s hs =>
    obtain ⟨w, -, -, rfl⟩ := (gives_plain hs).1 h
    exact ⟨w, rfl⟩
  | array items =>
    rw [Gives, checkAt.eq_def] at h
    dsimp only at h
    split at h
    · obtain ⟨out, -, rfl⟩ := Outcome.map_ok_iff.1 h
      exact ⟨_, rfl⟩
    · cases h
  | object fields =>
    rw [Gives, checkAt.eq_def] at h
    dsimp only at h
    split at h
    · obtain ⟨out, -, rfl⟩ := Outcome.map_ok_iff.1 h
      exact ⟨_, rfl⟩
    · cases h
  | optional inner default ih => exact ih (gives_optional_some.1 h)
  | nullable inner ih =>
    by_cases hv : v = .null
    · subst hv
      exact ⟨_, gives_nullable_null.1 h⟩
    · exact ih ((gives_nullable_some hv).1 h)

theorem checkItems_ok_iff {place : Place} {index : Nat} {given out : List Value} :
    checkItems (fun place v => checkAt strict place items (some v)) place index given = .ok out ↔
      List.Forall₂ (fun v w => items.Gives strict (some v) (some w)) given out := by
  induction given generalizing index out with
  | nil => simp [checkItems, eq_comm]
  | cons v rest ih =>
    rw [checkItems, both_ok_iff, List.forall₂_cons_left_iff]
    simp only [checkAt_ok_iff, ih]
    constructor
    · rintro ⟨r, more, hr, hmore, rfl⟩
      obtain ⟨w, rfl⟩ := hr.exists_some
      exact ⟨w, more, hr, hmore, rfl⟩
    · rintro ⟨w, more, hw, hmore, rfl⟩
      exact ⟨some w, more, hw, hmore, rfl⟩

/-- A sequence is accepted when every item is, and gives what its items give. -/
theorem gives_array : (array items).Gives strict value r ↔
    ∃ given out, value = some (.array given) ∧ r = some (.array out) ∧
      List.Forall₂ (fun v w => items.Gives strict (some v) (some w)) given out := by
  rw [Gives, checkAt.eq_def]
  dsimp only
  split
  · rename_i given
    simp only [Outcome.map_ok_iff, checkItems_ok_iff, Function.comp_apply]
    constructor
    · rintro ⟨out, hout, rfl⟩
      exact ⟨given, out, rfl, rfl, hout⟩
    · rintro ⟨given, out, heq, rfl, hout⟩
      cases heq
      exact ⟨out, hout, rfl⟩
  · rename_i hne
    refine iff_of_false nofun ?_
    rintro ⟨given, -, rfl, -⟩
    exact hne given rfl

theorem names_subset_of_checkFields {place : Place} {given out : List (String × Value)}
    (h : checkFields strict place given fields = .ok out) :
    Entries.names out ⊆ Entries.names fields := by
  induction fields generalizing out with
  | nil =>
    cases h
    exact List.Subset.refl _
  | cons field rest ih =>
    obtain ⟨r, more, -, hmore, rfl⟩ := both_ok_iff.1 h
    have hrest := ih hmore
    cases r with
    | none => exact List.subset_cons_of_subset _ hrest
    | some w => exact List.cons_subset_cons _ hrest

/-- Declared fields are checked one by one; what they give stands in the declared order. -/
theorem checkFields_ok_iff (hd : Entries.Distinct fields) {place : Place}
    {given out : List (String × Value)} :
    checkFields strict place given fields = .ok out ↔
      (∀ field ∈ fields,
        field.2.Gives strict (Entries.get? given field.1) (Entries.get? out field.1)) ∧
      out = Entries.arrange (Entries.names fields) (Entries.get? out) := by
  induction fields generalizing out with
  | nil => simp [checkFields, Entries.names, Entries.arrange, eq_comm]
  | cons field rest ih =>
    obtain ⟨name, s⟩ := field
    rw [Entries.Distinct, Entries.names_cons, List.nodup_cons] at hd
    obtain ⟨hnew, hdrest⟩ := hd
    have hne (other : String × Schema) (hmem : other ∈ rest) : other.1 ≠ name := by
      rintro rfl
      exact hnew (List.mem_map_of_mem (f := (·.1)) hmem)
    rw [checkFields, both_ok_iff, List.forall_mem_cons, Entries.names_cons, Entries.arrange_cons]
    constructor
    · rintro ⟨r, more, hr, hmore, rfl⟩
      have hfresh : name ∉ Entries.names more := fun h => hnew (names_subset_of_checkFields hmore h)
      obtain ⟨hgives, harranged⟩ := (ih hdrest).1 hmore
      refine ⟨⟨?head, fun other hmem => ?tail⟩, ?order⟩
      case head =>
        rw [Entries.get?_front_self r hfresh]
        exact checkAt_ok_iff.1 hr
      case tail =>
        rw [Entries.get?_front_of_ne r (hne other hmem)]
        exact hgives other hmem
      case order =>
        rw [Entries.get?_front_self r hfresh]
        refine congrArg _ (harranged.trans (Entries.arrange_congr fun other hmem => ?_))
        have hother : other ≠ name := ne_of_mem_of_not_mem hmem hnew
        exact (Entries.get?_front_of_ne r hother).symm
    · rintro ⟨⟨hhead, htail⟩, horder⟩
      have hget (other : String) (hmem : other ∈ Entries.names rest) :
          Entries.get? (Entries.arrange (Entries.names rest) (Entries.get? out)) other =
            Entries.get? out other := by
        rw [Entries.get?_arrange, if_pos hmem]
      refine ⟨Entries.get? out name, Entries.arrange (Entries.names rest) (Entries.get? out),
        checkAt_ok_iff.2 hhead, (ih hdrest).2 ⟨fun other hmem => ?_, ?_⟩, horder.symm⟩
      · rw [hget other.1 (List.mem_map_of_mem hmem)]
        exact htail other hmem
      · exact Entries.arrange_congr fun other hmem => (hget other hmem).symm

/-- What an object may hold beside the declared fields. -/
def Allows (strict : Bool) (fields : List (String × Schema)) (given : List (String × Value)) :
    Prop :=
  strict = true → Entries.names given ⊆ Entries.names fields

/-- An object is accepted when every declared field is, given or not, and gives what its declared
fields give, in the declared order. -/
theorem gives_object (hd : Entries.Distinct fields) : (object fields).Gives strict value r ↔
    ∃ given out, value = some (.object given) ∧ r = some (.object out) ∧
      Allows strict fields given ∧
      out = Entries.arrange (Entries.names fields) (Entries.get? out) ∧
      ∀ field ∈ fields,
        field.2.Gives strict (Entries.get? given field.1) (Entries.get? out field.1) := by
  rw [Gives, checkAt.eq_def]
  dsimp only
  split
  · rename_i given
    simp only [Outcome.map_ok_iff, withErrors_ok_iff, checkFields_ok_iff hd, ite_eq_right_iff,
      undeclared_eq_nil_iff, Function.comp_apply]
    constructor
    · rintro ⟨out, ⟨hallows, hgives, horder⟩, rfl⟩
      exact ⟨given, out, rfl, rfl, hallows, horder, hgives⟩
    · rintro ⟨given, out, heq, rfl, hallows, horder, hgives⟩
      cases heq
      exact ⟨out, ⟨hallows, hgives, horder⟩, rfl⟩
  · rename_i hne
    refine iff_of_false nofun ?_
    rintro ⟨given, -, rfl, -⟩
    exact hne given rfl

/-- When every declared field gives something with a property, the object is accepted, and what it
gives has the property at every field. -/
theorem exists_gives_object (hd : Entries.Distinct fields) {given : List (String × Value)}
    (hallows : Allows strict fields given) {P : String × Schema → Option Value → Prop}
    (h : ∀ field ∈ fields,
      ∃ r, field.2.Gives strict (Entries.get? given field.1) r ∧ P field r) :
    ∃ out, (object fields).Gives strict (some (.object given)) (some (.object out)) ∧
      ∀ field ∈ fields, P field (Entries.get? out field.1) := by
  obtain ⟨value, hvalue, -⟩ := hd.exists_by_name h
  have hget (field : String × Schema) (hmem : field ∈ fields) :
      Entries.get? (Entries.arrange (Entries.names fields) fun name => (value name).join) field.1 =
        (value field.1).join := by
    rw [Entries.get?_arrange, if_pos (Entries.mem_names_of_mem hmem)]
  refine ⟨Entries.arrange (Entries.names fields) fun name => (value name).join,
    (gives_object hd).2 ⟨given, _, rfl, rfl, hallows, ?_, fun field hmem => ?_⟩,
    fun field hmem => ?_⟩
  · exact Entries.arrange_congr fun name hmem => by rw [Entries.get?_arrange, if_pos hmem]
  · obtain ⟨r, hr, hgives, -⟩ := hvalue field hmem
    rw [hget field hmem, hr]
    exact hgives
  · obtain ⟨r, hr, -, hP⟩ := hvalue field hmem
    rw [hget field hmem, hr]
    exact hP

/-- What is given for an object has the names of declared fields only, and none of them twice. -/
theorem names_of_gives_object (hd : Entries.Distinct fields) {out : List (String × Value)}
    (h : (object fields).Gives strict value (some (.object out))) :
    Entries.Distinct out ∧ Entries.names out ⊆ Entries.names fields := by
  obtain ⟨-, _, -, hr, -, harranged, -⟩ := (gives_object hd).1 h
  cases hr
  rw [Entries.Distinct, harranged, Entries.names_arrange]
  exact ⟨List.Nodup.filter _ hd, List.filter_subset_self _⟩

/-! ## Strict and lenient -/

/-- What a strict check gives, a lenient one gives too. -/
theorem Gives.lenient (hs : s.WellFormed) (h : s.Gives true value r) : s.Gives false value r := by
  induction s using Schema.induct generalizing value r with
  | plain s hplain => exact (gives_plain hplain).2 ((gives_plain hplain).1 h)
  | array items ih =>
    obtain ⟨given, out, rfl, rfl, hitems⟩ := gives_array.1 h
    exact gives_array.2 ⟨given, out, rfl, rfl, hitems.imp fun _ _ => ih hs⟩
  | object fields ih =>
    obtain ⟨hd, hfields⟩ := wellFormed_object_iff.1 hs
    obtain ⟨given, out, rfl, rfl, -, horder, hgives⟩ := (gives_object hd).1 h
    exact (gives_object hd).2 ⟨given, out, rfl, rfl, nofun, horder,
      fun field hmem => ih field hmem (hfields field hmem) (hgives field hmem)⟩
  | optional inner default ih =>
    cases value with
    | none => exact gives_optional_none.2 (gives_optional_none.1 h)
    | some v => exact gives_optional_some.2 (ih hs.1 (gives_optional_some.1 h))
  | nullable inner ih =>
    cases value with
    | none =>
      obtain ⟨hoptional, h⟩ := gives_nullable_none.1 h
      exact gives_nullable_none.2 ⟨hoptional, ih hs h⟩
    | some v =>
      by_cases hv : v = .null
      · subst hv
        exact gives_nullable_null.2 (gives_nullable_null.1 h)
      · exact (gives_nullable_some hv).2 (ih hs ((gives_nullable_some hv).1 h))

end Schema

end CatalogUi
