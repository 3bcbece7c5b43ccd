import CatalogUi.Proofs.Refusal
import CatalogUi.Proofs.Soundness
import CatalogUi.Proofs.Violation

/-!
The errors of a check are the violations of the shape: there is one error for every place that
violates it and none for any other, in the order of the places. So a check goes well just when there
is no violation, and the errors of a field do not depend on the other fields.
-/

namespace CatalogUi

/-- The same error, found inside the part of a value that stands at a place. -/
def SchemaError.under (place : Place) (e : SchemaError) : SchemaError :=
  ⟨place ++ e.place, e.fault⟩

namespace Checked

variable {α β γ : Type}

/-- The errors of an outcome; a result has none. -/
def errors : Checked α → List SchemaError
  | .ok _ => []
  | .error e => e

theorem errors_both (f : α → β → γ) (x : Checked α) (y : Checked β) :
    errors (both f x y) = errors x ++ errors y := by
  cases x <;> cases y <;> simp [both, errors]

theorem errors_map (f : α → β) (x : Checked α) : errors (x.map f) = errors x := by
  cases x <;> rfl

theorem errors_withErrors (x : Checked α) (more : List SchemaError) :
    errors (x.withErrors more) = errors x ++ more := by
  cases more with
  | nil => exact (List.append_nil _).symm
  | cons e rest => exact errors_both _ _ _

theorem errors_eq_nil_iff {x : Checked α} (hx : Justified x) : errors x = [] ↔ ∃ a, x = .ok a := by
  cases x with
  | ok a => exact iff_of_true rfl ⟨a, rfl⟩
  | error e => exact iff_of_false (hx e rfl) nofun

end Checked

namespace Schema

open Checked SchemaError

variable {strict : Bool} {s items : Schema} {fields : List (String × Schema)}
  {given : List (String × Value)} {value : Option Value} {v : Value} {place : Place}
  {fault : SchemaFault}

/-! ## Errors inside a part -/

theorem errors_mismatch {α : Type} (place : Place) (s : Schema) (value : Option Value) :
    errors (mismatch place s value : Checked α) = [⟨place, .mismatch s value⟩] := rfl

theorem errors_checkItems (check : Place → Value → Checked (Option Value)) (place : Place)
    (index : Nat) (given : List Value) :
    errors (checkItems check place index given) =
      (given.zipIdx index).flatMap fun item => errors (check (place ++ [.item item.2]) item.1) := by
  induction given generalizing index with
  | nil => rfl
  | cons v rest ih => rw [checkItems, errors_both, ih, List.zipIdx_cons, List.flatMap_cons]

theorem errors_checkFields (place : Place) (given : List (String × Value))
    (fields : List (String × Schema)) :
    errors (checkFields strict place given fields) =
      fields.flatMap fun field =>
        errors (checkAt strict (place ++ [.field field.1]) field.2
          (Entries.get? given field.1)) := by
  induction fields with
  | nil => rfl
  | cons field rest ih => rw [checkFields, errors_both, ih, List.flatMap_cons]

theorem checkScalar_under (place rest : Place) (s : Schema) (v : Value) :
    errors (checkScalar (place ++ rest) s v) = (errors (checkScalar rest s v)).map (under place) := by
  rw [checkScalar.eq_def, checkScalar.eq_def]
  split
  case h_1 | h_2 => rfl
  case h_3 | h_4 | h_5 => split <;> rfl
  case h_6 => rfl

/-- What is found in a part does not depend on where the part stands. -/
theorem errors_checkAt_append (place rest : Place) (s : Schema) (value : Option Value) :
    errors (checkAt strict (place ++ rest) s value) =
      (errors (checkAt strict rest s value)).map (under place) := by
  induction s using Schema.induct generalizing rest value with
  | plain s hs =>
    cases value with
    | none => cases s <;> first | rfl | exact hs.elim
    | some v =>
      have hscalar (place : Place) : checkAt strict place s (some v) = checkScalar place s v := by
        cases s <;> first | rfl | exact hs.elim
      rw [hscalar, hscalar, checkScalar_under]
  | array items ih =>
    rw [checkAt.eq_def, checkAt.eq_def]
    dsimp only
    split
    · simp only [errors_map, errors_checkItems, List.append_assoc, ih, List.map_flatMap]
    · rfl
  | object fields ih =>
    rw [checkAt.eq_def, checkAt.eq_def]
    dsimp only
    split
    · rw [errors_map, errors_map, errors_withErrors, errors_withErrors, errors_checkFields,
        errors_checkFields, List.map_append, List.map_flatMap]
      congr 1
      · refine List.flatMap_congr fun field hmem => ?_
        rw [List.append_assoc, ih field hmem]
      · split <;> simp [undeclared, under]
    · rfl
  | optional inner default ih =>
    cases value with
    | none => rfl
    | some v => exact ih rest (some v)
  | nullable inner ih =>
    rw [checkAt.eq_def, checkAt.eq_def]
    dsimp only
    split
    · rfl
    · exact ih rest _
    · split
      · exact ih rest none
      · rfl

/-! ## Faults by the kind of the value -/

/-- The errors of a check of a value, or of its absence. -/
def faults (strict : Bool) (s : Schema) (value : Option Value) : List SchemaError :=
  errors (checkAt strict [] s value)

theorem errors_validate : errors (s.validate strict value) = s.faults strict value :=
  errors_map _ _

theorem errors_checkAt : errors (checkAt strict place s value) =
    (s.faults strict value).map (under place) := by
  rw [faults, ← errors_checkAt_append, List.append_nil]

theorem faults_none : s.faults strict none =
    if s.isOptional then [] else [⟨[], .mismatch s none⟩] := by
  induction s using Schema.induct with
  | plain s hs => cases s <;> first | rfl | exact hs.elim
  | array | object | optional => rfl
  | nullable inner ih =>
    cases h : inner.isOptional
    · simp [faults, checkAt, isOptional, h, errors_mismatch]
    · simp [faults, checkAt, isOptional, h] at ih ⊢
      exact ih

theorem faults_null (h : s.allowsNull = true) : s.faults strict (some .null) = [] := by
  induction s using Schema.induct with
  | plain s hs => cases s <;> first | exact hs.elim | cases h
  | array | object => cases h
  | optional inner default ih => exact ih h
  | nullable inner => rfl

/-- Marks are looked through. -/
theorem faults_core (hnull : v = .null → s.allowsNull = false) :
    s.faults strict (some v) = s.core.faults strict (some v) := by
  induction s using Schema.induct with
  | plain s hs => cases s <;> first | rfl | exact hs.elim
  | array | object => rfl
  | optional inner default ih => exact ih hnull
  | nullable inner ih =>
    have hv : v ≠ .null := fun heq => Bool.noConfusion (hnull heq)
    rw [core, ← ih fun heq => (hv heq).elim, faults, faults, checkAt.eq_def]
    cases v <;> first | rfl | exact (hv rfl).elim

theorem faults_array {given : List Value} (hs : s.core = .array items) :
    s.faults strict (some (.array given)) =
      given.zipIdx.flatMap fun item =>
        (items.faults strict (some item.1)).map (under [.item item.2]) := by
  rw [faults_core (v := .array given) nofun, hs, faults, checkAt, errors_map, errors_checkItems]
  simp only [errors_checkAt, List.nil_append]

theorem faults_object (hs : s.core = .object fields) :
    s.faults strict (some (.object given)) =
      (fields.flatMap fun field =>
        (field.2.faults strict (Entries.get? given field.1)).map (under [.field field.1])) ++
      if strict then undeclared [] fields given else [] := by
  rw [faults_core (v := .object given) nofun, hs, faults, checkAt, errors_map, errors_withErrors,
    errors_checkFields]
  simp only [errors_checkAt, List.nil_append]

/-! ## Faults of a value as a whole -/

/-- The errors are the misfits of the value as a whole, of which there is at most one. -/
def AtMostMisfit (s : Schema) (v : Value) (found : List SchemaError) : Prop :=
  (found = [] ∧ ∀ fault, ¬ Misfit s v fault) ∨
    ∃ fault, found = [⟨[], fault⟩] ∧ ∀ fault', Misfit s v fault' ↔ fault' = fault

theorem misfit_iff_of_kind (h : ¬ s.DeclaresKind v) :
    Misfit s v fault ↔ fault = .mismatch s (some v) := by
  constructor
  · rintro (_ | _ | _ | _)
    · rfl
    all_goals exact (h trivial).elim
  · rintro rfl
    exact .kind h

theorem misfit_number_iff {min max : Option Bound} {n : Number} :
    Misfit (.number min max) (.number n) fault ↔
      inBounds min max n = false ∧ fault = .mismatch (.number min max) (some (.number n)) := by
  have hbounds : inBounds min max n = false ↔
      (∃ least ∈ min, ¬ least ≤ .finite n.toDouble) ∨
        ∃ most ∈ max, ¬ .finite n.toDouble ≤ most := by
    rw [inBounds]
    cases min <;> cases max <;> simp [imp_iff_not_or]
  rw [hbounds]
  constructor
  · rintro (⟨h⟩ | h | _ | _)
    · exact (h trivial).elim
    · exact ⟨h, rfl⟩
  · rintro ⟨h, rfl⟩
    exact .bounds h

theorem misfit_choice_iff {values : List String} {t : String} :
    Misfit (.oneOf values) (.string t) fault ↔
      t ∉ values ∧ fault = .mismatch (.oneOf values) (some (.string t)) := by
  constructor
  · rintro (⟨h⟩ | _ | h | _)
    · exact (h trivial).elim
    · exact ⟨h, rfl⟩
  · rintro ⟨h, rfl⟩
    exact .choice h

theorem misfit_path_iff {t : String} : Misfit .path (.string t) fault ↔
    ∃ e, Path.parse t = .error e ∧ fault = .badPath e (.string t) := by
  constructor
  · rintro (⟨h⟩ | _ | _ | h)
    · exact (h trivial).elim
    · exact ⟨_, h, rfl⟩
  · rintro ⟨e, h, rfl⟩
    exact .path h

theorem atMostMisfit_checkScalar (s : Schema) (v : Value) (hs : s.IsPlain) :
    AtMostMisfit s v (errors (checkScalar [] s v)) := by
  rw [checkScalar.eq_def]
  split
  case h_1 | h_2 => exact .inl ⟨rfl, fun _ h => by cases h; exact ‹¬ _› trivial⟩
  case h_3 min max n =>
    cases h : inBounds min max n
    · exact .inr ⟨_, rfl, fun _ => by simp [misfit_number_iff, h]⟩
    · exact .inl ⟨rfl, fun _ => by simp [misfit_number_iff, h]⟩
  case h_4 values t =>
    by_cases h : t ∈ values
    · rw [if_pos h]
      exact .inl ⟨rfl, fun _ => by simp [misfit_choice_iff, h]⟩
    · rw [if_neg h]
      exact .inr ⟨_, rfl, fun _ => by simp [misfit_choice_iff, h]⟩
  case h_5 t =>
    cases h : Path.parse t
    · exact .inr ⟨_, rfl, fun _ => by simp [misfit_path_iff, h]⟩
    · exact .inl ⟨rfl, fun _ => by simp [misfit_path_iff, h]⟩
  case h_6 =>
    refine .inr ⟨_, rfl, fun _ => misfit_iff_of_kind fun hkind => ?_⟩
    cases s <;> cases v <;> first | exact hkind | exact hs | simp_all

/-- A value that is not looked into has at most one error, and it is about the value as a whole. -/
theorem atMostMisfit_faults (strict : Bool) (hnull : v = .null → s.allowsNull = false)
    (harray : ∀ items given, s.core = .array items → v ≠ .array given)
    (hobject : ∀ fields given, s.core = .object fields → v ≠ .object given) :
    AtMostMisfit s.core v (s.faults strict (some v)) := by
  rw [faults_core hnull]
  rcases s.core_cases with hplain | ⟨items, hs⟩ | ⟨fields, hs⟩
  · have hscalar : s.core.faults strict (some v) = errors (checkScalar [] s.core v) := by
      revert hplain
      cases s.core <;> intro hplain <;> first | rfl | exact hplain.elim
    rw [hscalar]
    exact atMostMisfit_checkScalar _ _ hplain
  · have hkind : ¬ (array items).DeclaresKind v := by
      cases v <;> first | exact id | exact (harray _ _ hs rfl).elim
    rw [hs]
    refine .inr ⟨_, ?_, fun _ => misfit_iff_of_kind hkind⟩
    cases v <;> first | rfl | exact (hkind trivial).elim
  · have hkind : ¬ (object fields).DeclaresKind v := by
      cases v <;> first | exact id | exact (hobject _ _ hs rfl).elim
    rw [hs]
    refine .inr ⟨_, ?_, fun _ => misfit_iff_of_kind hkind⟩
    cases v <;> first | rfl | exact (hkind trivial).elim

/-- A value, or its absence, is judged in one of four ways. -/
inductive Judged (s : Schema) : Option Value → Prop
  | absent : Judged s none
  | null (h : s.allowsNull = true) : Judged s (some .null)
  | array (items : Schema) (given : List Value) (hs : s.core = .array items) :
      Judged s (some (.array given))
  | object (fields : List (String × Schema)) (given : List (String × Value))
      (hs : s.core = .object fields) : Judged s (some (.object given))
  | whole (v : Value) (hnull : v = .null → s.allowsNull = false)
      (harray : ∀ items given, s.core = .array items → v ≠ .array given)
      (hobject : ∀ fields given, s.core = .object fields → v ≠ .object given) :
      Judged s (some v)

theorem judged (s : Schema) (value : Option Value) : Judged s value := by
  cases value with
  | none => exact .absent
  | some v =>
    by_cases hnull : v = .null ∧ s.allowsNull = true
    · obtain ⟨rfl, h⟩ := hnull
      exact .null h
    by_cases harray : ∃ items given, s.core = .array items ∧ v = .array given
    · obtain ⟨items, given, hs, rfl⟩ := harray
      exact .array items given hs
    by_cases hobject : ∃ fields given, s.core = .object fields ∧ v = .object given
    · obtain ⟨fields, given, hs, rfl⟩ := hobject
      exact .object fields given hs
    refine .whole v (fun heq => ?_) (fun items given hs heq => harray ⟨items, given, hs, heq⟩)
      fun fields given hs heq => hobject ⟨fields, given, hs, heq⟩
    rw [← Bool.not_eq_true]
    exact fun h => hnull ⟨heq, h⟩

/-! ## One error for every violation -/

theorem mem_undeclared_iff {e : SchemaError} : e ∈ undeclared [] fields given ↔
    ∃ entry ∈ given, entry.1 ∉ Entries.names fields ∧ e.place = [.field entry.1] ∧
      e.fault = .undeclared entry.2 := by
  simp only [undeclared, List.mem_map, List.mem_filter, Bool.not_eq_true', List.nil_append,
    ← Bool.not_eq_true, Entries.has_iff_mem_names, and_assoc]
  refine exists_congr fun entry => and_congr_right fun _ => and_congr_right fun _ => ?_
  obtain ⟨place, fault⟩ := e
  rw [SchemaError.mk.injEq, eq_comm, @eq_comm _ _ fault]

theorem mem_map_under_iff {step : Step} {found : List SchemaError} {e : SchemaError} :
    e ∈ found.map (under [step]) ↔
      ∃ rest, e.place = step :: rest ∧ ⟨rest, e.fault⟩ ∈ found := by
  rw [List.mem_map]
  constructor
  · rintro ⟨inner, hmem, rfl⟩
    exact ⟨inner.place, rfl, hmem⟩
  · rintro ⟨rest, hplace, hmem⟩
    refine ⟨_, hmem, ?_⟩
    obtain ⟨place, fault⟩ := e
    cases hplace
    rfl

/-- The errors of a check are the violations of the shape. -/
theorem mem_faults_iff {e : SchemaError} :
    e ∈ s.faults strict value ↔ Violation strict s value e.place e.fault := by
  induction s using inductParts generalizing value e with
  | step s hitems hfields =>
    cases judged s value with
    | absent =>
      rw [faults_none, violation_none_iff]
      obtain ⟨place, fault⟩ := e
      cases s.isOptional <;> simp
    | null h =>
      rw [faults_null h]
      exact iff_of_false List.not_mem_nil (not_violation_null h)
    | array items given hs =>
      rw [faults_array hs, violation_array_iff hs, List.mem_flatMap]
      simp only [mem_map_under_iff, hitems items hs, Prod.exists, List.mem_zipIdx_iff_getElem?]
      constructor
      · rintro ⟨v, index, hitem, rest, hplace, h⟩
        exact ⟨index, v, rest, hitem, hplace, h⟩
      · rintro ⟨index, v, rest, hitem, hplace, h⟩
        exact ⟨v, index, hitem, rest, hplace, h⟩
    | object fields given hs =>
      rw [faults_object hs, violation_object_iff hs, List.mem_append, List.mem_flatMap]
      refine or_congr (exists_congr fun field => and_congr_right fun hmem => ?declared) ?undeclared
      case declared => simp only [mem_map_under_iff, hfields fields hs field hmem]
      case undeclared =>
        cases strict
        · exact iff_of_false List.not_mem_nil fun h => Bool.noConfusion h.1
        · rw [if_pos rfl, mem_undeclared_iff]
          exact (and_iff_right rfl).symm
    | whole v hnull harray hobject =>
      rw [violation_whole_iff hnull harray hobject]
      rcases atMostMisfit_faults strict hnull harray hobject with
        ⟨hfaults, hnone⟩ | ⟨fault, hfaults, hone⟩
      · rw [hfaults]
        exact iff_of_false List.not_mem_nil fun h => hnone _ h.2
      · obtain ⟨place, fault'⟩ := e
        rw [hfaults, List.mem_singleton, SchemaError.mk.injEq, hone]

/-! ## The order of errors -/

theorem places_map_under (step : Step) (found : List SchemaError) :
    (found.map (under [step])).map (·.place) = (found.map (·.place)).map (step :: ·) := by
  rw [List.map_map, List.map_map]
  rfl

theorem exists_of_mem_places {step : Step} {found : List SchemaError} {place : Place}
    (h : place ∈ (found.map (under [step])).map (·.place)) : ∃ rest, place = step :: rest := by
  rw [places_map_under] at h
  obtain ⟨rest, -, rfl⟩ := List.mem_map.1 h
  exact ⟨rest, rfl⟩

theorem places_undeclared (fields : List (String × Schema)) (given : List (String × Value)) :
    (undeclared [] fields given).map (·.place) =
      ((Entries.names given).filter (· ∉ Entries.names fields)).map fun name => [.field name] := by
  have hkept (entry : String × Value) :
      (!Entries.has fields entry.1) = decide (entry.1 ∉ Entries.names fields) := by
    rw [Bool.eq_iff_iff, Bool.not_eq_true', decide_eq_true_eq, ← Entries.has_iff_mem_names,
      Bool.not_eq_true]
  rw [show Entries.names given = given.map (·.1) from rfl, List.filter_map, undeclared]
  simp only [List.map_map, Function.comp_def, List.nil_append, hkept]

/-- Every list has its members in its own order. -/
theorem pairwise_sublist {α : Type} (l : List α) : l.Pairwise fun a b => [a, b].Sublist l :=
  List.pairwise_iff_forall_sublist.2 id

theorem pairwise_zipIdx {α : Type} (l : List α) : l.zipIdx.Pairwise fun a b => a.2 < b.2 := by
  rw [← List.pairwise_map (f := Prod.snd) (R := (· < ·)), List.zipIdx_map_snd]
  exact List.pairwise_lt_range'

theorem pairwise_faults_array {elements : List Value} (hcore : s.core = .array items)
    (hitems : ∀ v ∈ elements,
      ((items.faults strict (some v)).map (·.place)).Pairwise (Precedes items (some v))) :
    ((s.faults strict (some (.array elements))).map (·.place)).Pairwise
      (Precedes s (some (.array elements))) := by
  rw [faults_array hcore, List.map_flatMap, List.pairwise_flatMap]
  constructor
  · rintro ⟨v, index⟩ hmem
    have hitem := List.mem_zipIdx_iff_getElem?.1 hmem
    rw [places_map_under, List.pairwise_map]
    exact (hitems v (List.mem_of_getElem? hitem)).imp (.insideItem hcore hitem)
  · refine (pairwise_zipIdx elements).imp fun {item other} hlt place hplace place' hplace' => ?_
    obtain ⟨rest, rfl⟩ := exists_of_mem_places hplace
    obtain ⟨rest', rfl⟩ := exists_of_mem_places hplace'
    exact .item hcore hlt

theorem pairwise_faults_object (hcore : s.core = .object fields)
    (hfields : ∀ field ∈ fields,
      ((field.2.faults strict (Entries.get? given field.1)).map (·.place)).Pairwise
        (Precedes field.2 (Entries.get? given field.1))) :
    ((s.faults strict (some (.object given))).map (·.place)).Pairwise
      (Precedes s (some (.object given))) := by
  rw [faults_object hcore, List.map_append, List.pairwise_append]
  refine ⟨?declared, ?undeclared, ?across⟩
  case declared =>
    rw [List.map_flatMap, List.pairwise_flatMap]
    constructor
    · intro field hmem
      rw [places_map_under, List.pairwise_map]
      exact (hfields field hmem).imp (.insideField hcore hmem)
    · have hnames := List.pairwise_map.1 (pairwise_sublist (Entries.names fields))
      refine hnames.imp fun {field other} hsub place hplace place' hplace' => ?_
      obtain ⟨rest, rfl⟩ := exists_of_mem_places hplace
      obtain ⟨rest', rfl⟩ := exists_of_mem_places hplace'
      exact .field hcore (hsub.trans (List.sublist_append_left _ _))
  case undeclared =>
    split
    · rw [places_undeclared, List.pairwise_map]
      exact (pairwise_sublist _).imp fun hsub =>
        .field hcore (hsub.trans (List.sublist_append_right _ _))
    · exact .nil
  case across =>
    intro place hplace place' hplace'
    split at hplace'
    · rw [List.map_flatMap, List.mem_flatMap] at hplace
      obtain ⟨field, hmem, hplace⟩ := hplace
      obtain ⟨rest, rfl⟩ := exists_of_mem_places hplace
      rw [places_undeclared] at hplace'
      obtain ⟨name, hname, rfl⟩ := List.mem_map.1 hplace'
      exact .field hcore <| List.Sublist.append
        (List.singleton_sublist.2 (Entries.mem_names_of_mem hmem))
        (List.singleton_sublist.2 hname)
    · cases hplace'

/-- Errors come in the order of their places. -/
theorem pairwise_faults (strict : Bool) (hs : s.WellFormed)
    (hvalue : ∀ v ∈ value, v.WellFormed) :
    ((s.faults strict value).map (·.place)).Pairwise (Precedes s value) := by
  induction s using inductParts generalizing value with
  | step s hitems hfields =>
    cases judged s value with
    | absent =>
      rw [faults_none]
      split <;> simp
    | null h =>
      rw [faults_null h]
      exact .nil
    | array items given hcore =>
      have hvalues := Value.wellFormed_array_iff.1 (hvalue _ rfl)
      refine pairwise_faults_array hcore fun v hmem => ?_
      exact hitems items hcore (hs.ofItems hcore) (Value.wellFormed_some (hvalues v hmem))
    | object fields given hcore =>
      obtain ⟨-, hwf⟩ := hs.ofFields hcore
      obtain ⟨-, hvalues⟩ := Value.wellFormed_object_iff.1 (hvalue _ rfl)
      refine pairwise_faults_object hcore fun field hmem => ?_
      exact hfields fields hcore field hmem (hwf field hmem)
        fun v hv => hvalues _ (Entries.mem_of_get? hv)
    | whole v hnull harray hobject =>
      rcases atMostMisfit_faults strict hnull harray hobject with
        ⟨hfaults, -⟩ | ⟨fault, hfaults, -⟩
      · rw [hfaults]
        exact .nil
      · rw [hfaults]
        exact List.pairwise_singleton _ _

/-! ## The errors of one field -/

/-- What only one of several fields gives is what that field gives. -/
theorem filter_flatMap_of_distinct {β : Type} {f : String × Schema → List β} {p : β → Bool}
    {field : String × Schema} (hd : Entries.Distinct fields) (hmem : field ∈ fields)
    (hself : ∀ e ∈ f field, p e = true)
    (hother : ∀ other ∈ fields, other.1 ≠ field.1 → ∀ e ∈ f other, p e = false) :
    (fields.flatMap f).filter p = f field := by
  induction fields with
  | nil => cases hmem
  | cons first rest ih =>
    obtain ⟨hnew, hdrest⟩ := List.nodup_cons.1 hd
    obtain ⟨hfirst, hrest⟩ := List.forall_mem_cons.1 hother
    rw [List.flatMap_cons, List.filter_append]
    rcases List.mem_cons.1 hmem with rfl | hmem
    · have hnone : (rest.flatMap f).filter p = [] := by
        refine List.filter_eq_nil_iff.2 fun e he => ?_
        obtain ⟨other, hother, he⟩ := List.mem_flatMap.1 he
        have hne := ne_of_mem_of_not_mem (Entries.mem_names_of_mem hother) hnew
        exact Bool.not_eq_true _ ▸ hrest other hother hne e he
      rw [hnone, List.append_nil, List.filter_eq_self.2 hself]
    · have hne := (ne_of_mem_of_not_mem (Entries.mem_names_of_mem hmem) hnew).symm
      have hnone : (f first).filter p = [] :=
        List.filter_eq_nil_iff.2 fun e he => Bool.not_eq_true _ ▸ hfirst hne e he
      rw [hnone, List.nil_append, ih hdrest hmem hrest]

/-- The errors of a declared field are those of checking the field alone. -/
theorem filter_faults_of_field (hd : Entries.Distinct fields) (hs : s.core = .object fields)
    {field : String × Schema} (hmem : field ∈ fields) :
    (s.faults strict (some (.object given))).filter
        (fun e => e.place.head? = some (.field field.1)) =
      (field.2.faults strict (Entries.get? given field.1)).map (under [.field field.1]) := by
  have hnone : (if strict then undeclared [] fields given else []).filter
      (fun e => decide (e.place.head? = some (.field field.1))) = [] := by
    refine List.filter_eq_nil_iff.2 fun e he => ?_
    split at he
    · obtain ⟨entry, -, hname, hplace, -⟩ := mem_undeclared_iff.1 he
      have hne := ne_of_mem_of_not_mem (Entries.mem_names_of_mem hmem) hname
      simp [hplace, hne.symm]
    · cases he
  rw [faults_object hs, List.filter_append, hnone, List.append_nil]
  refine filter_flatMap_of_distinct hd hmem (fun e he => ?_) fun other _ hne e he => ?_
  · obtain ⟨rest, hplace, -⟩ := mem_map_under_iff.1 he
    simp [hplace]
  · obtain ⟨rest, hplace, -⟩ := mem_map_under_iff.1 he
    simp [hplace, hne]

/-- A check goes well when no place violates the shape. Otherwise there is exactly one error for every
place that does, in the order of the places, and the errors of a field are those of checking the field
alone, whatever the other fields hold. -/
theorem validate_exact {s : Schema} {value : Option Value} (hs : s.WellFormed)
    (hvalue : ∀ v ∈ value, v.WellFormed) (strict : Bool) :
    ((∃ w, s.validate strict value = .ok w) ↔
      ∀ place fault, ¬ Violation strict s value place fault) ∧
    ∀ found, s.validate strict value = .error found →
      (∀ place fault, ⟨place, fault⟩ ∈ found ↔ Violation strict s value place fault) ∧
      (found.map (·.place)).Nodup ∧
      (found.map (·.place)).Pairwise (Precedes s value) ∧
      ∀ fields given, s.core = .object fields → value = some (.object given) →
        ∀ field ∈ fields, found.filter (fun e => e.place.head? = some (.field field.1)) =
          (errors (field.2.validate strict (Entries.get? given field.1))).map
            (under [.field field.1]) := by
  refine ⟨?accepted, fun found h => ?refused⟩
  case accepted =>
    rw [← errors_eq_nil_iff (justified_validate s strict value), errors_validate,
      List.eq_nil_iff_forall_not_mem]
    simp only [mem_faults_iff]
    exact ⟨fun h place fault => h ⟨place, fault⟩, fun h e => h e.place e.fault⟩
  case refused =>
    have hfound : found = s.faults strict value := by
      rw [← errors_validate, h, errors]
    rw [hfound]
    have hordered := pairwise_faults strict hs hvalue
    refine ⟨fun place fault => mem_faults_iff, ?once, hordered, ?alone⟩
    case once =>
      refine List.Pairwise.imp ?_ hordered
      rintro place _ h rfl
      exact not_precedes_self hs hvalue h
    case alone =>
      rintro fields given hcore rfl field hmem
      rw [errors_validate]
      exact filter_faults_of_field (hs.ofFields hcore).1 hcore hmem

end Schema

namespace Sample

/-- A card has a title and tags, of which only one is known. -/
def cardShape : Schema :=
  .object [("title", .nullable .string), ("tags", .optional (.array (.oneOf ["new"])) none)]

/-- A card without a title, with a tag that is not known, and with a colour. -/
def plainCard : Value :=
  .object [("colour", .string "red"), ("tags", .array [.string "new", .string "old"])]

theorem wellFormed_cardShape : cardShape.WellFormed :=
  ⟨by decide, trivial, ⟨trivial, nofun⟩, trivial⟩

theorem wellFormed_plainCard : plainCard.WellFormed :=
  ⟨by decide, trivial, ⟨trivial, trivial, trivial⟩, trivial⟩

end Sample

/-- Of the card the title is missing, the second tag is not known and the colour is not declared. -/
theorem Schema.validate_exact_plainCard :
    Sample.cardShape.WellFormed ∧ Sample.plainCard.WellFormed ∧
    ∃ found, Sample.cardShape.validate true (some Sample.plainCard) = .error found ∧
      found.map (·.place) = [[.field "title"], [.field "tags", .item 1], [.field "colour"]] ∧
      (found.map (·.place)).Pairwise (Precedes Sample.cardShape (some Sample.plainCard)) ∧
      Violation true Sample.cardShape (some Sample.plainCard) [.field "tags", .item 1]
        (.mismatch (.oneOf ["new"]) (some (.string "old"))) := by
  obtain ⟨-, hfound⟩ := validate_exact Sample.wellFormed_cardShape
    (Value.wellFormed_some Sample.wellFormed_plainCard) true
  have herror : ∃ found,
      Sample.cardShape.validate true (some Sample.plainCard) = .error found ∧
        found = [⟨[.field "title"], .mismatch (.nullable .string) none⟩,
          ⟨[.field "tags", .item 1], .mismatch (.oneOf ["new"]) (some (.string "old"))⟩,
          ⟨[.field "colour"], .undeclared (.string "red")⟩] := ⟨_, rfl, rfl⟩
  obtain ⟨found, h, hlist⟩ := herror
  obtain ⟨hexact, -, hordered, -⟩ := hfound found h
  refine ⟨Sample.wellFormed_cardShape, Sample.wellFormed_plainCard, found, h, ?_, hordered,
    (hexact _ _).1 ?_⟩
  · rw [hlist]
    rfl
  · rw [hlist]
    exact List.mem_cons_of_mem _ List.mem_cons_self

end CatalogUi
