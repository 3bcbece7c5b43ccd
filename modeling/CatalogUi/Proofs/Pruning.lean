import CatalogUi.Proofs.Exactness
import CatalogUi.Proofs.Parts

/-!
Fields that a shape does not declare. They can be pruned from a value at every depth, wherever an
object stands where the shape declares one. A lenient check of a value is a strict check of the
pruned value, and what a strict check finds beyond it is one error for every field that is pruned.
-/

namespace CatalogUi

namespace Schema

open SchemaError

mutual

/-- The value without the fields that the shape does not declare, at any depth. -/
def prune : Schema → Value → Value
  | .optional inner _, v => prune inner v
  | .nullable inner, v => prune inner v
  | .array items, v =>
    match v with
    | .array given => .array (given.map (prune items))
    | v => v
  | .object fields, v =>
    match v with
    | .object given =>
      .object (given.filterMap fun entry =>
        (pruneField fields entry.1 entry.2).map fun v => (entry.1, v))
    | v => v
  | _, v => v

/-- The pruned value of a field, if the field is declared. -/
def pruneField : List (String × Schema) → String → Value → Option Value
  | [], _, _ => none
  | (declared, s) :: rest, name, v =>
    if declared = name then some (prune s v) else pruneField rest name v

end

/-- The declared fields of an object, each with its value pruned. -/
def prunedFields (fields : List (String × Schema)) (given : List (String × Value)) :
    List (String × Value) :=
  given.filterMap fun entry =>
    (Entries.get? fields entry.1).map fun t => (entry.1, t.prune entry.2)

/-- A field of the value, or of a part of it, that is pruned although what holds it is not. -/
structure Removed (s : Schema) (v : Value) (place : Place) (x : Value) : Prop where
  given : v.at? place = some x
  pruned : (s.prune v).at? place = none
  holder : ∃ y, (s.prune v).at? place.dropLast = some y

variable {strict : Bool} {s items : Schema} {fields : List (String × Schema)}
  {given : List (String × Value)} {value : Option Value} {v x : Value} {place : Place}

/-! ## Pruned values -/

theorem pruneField_eq (fields : List (String × Schema)) (name : String) (v : Value) :
    pruneField fields name v = (Entries.get? fields name).map fun t => t.prune v := by
  induction fields with
  | nil => rfl
  | cons field rest ih =>
    rw [pruneField, Entries.get?, ih]
    split <;> rfl

/-- Marks are looked through. -/
theorem prune_core (s : Schema) (v : Value) : s.prune v = s.core.prune v := by
  induction s using Schema.induct with
  | plain s hs => cases s <;> first | rfl | exact hs.elim
  | array | object => rfl
  | optional inner default ih => exact ih
  | nullable inner ih => exact ih

theorem prune_plain (hs : s.IsPlain) (v : Value) : s.prune v = v := by
  cases s <;> first | rfl | exact hs.elim

theorem prune_array {elements : List Value} (hs : s.core = .array items) :
    s.prune (.array elements) = .array (elements.map items.prune) := by
  rw [prune_core, hs]
  rfl

theorem prune_object (hs : s.core = .object fields) :
    s.prune (.object given) = .object (prunedFields fields given) := by
  rw [prune_core, hs, prune, prunedFields]
  simp only [pruneField_eq, Option.map_map, Function.comp_def]

/-- A value that is not looked into stays as it is. -/
theorem prune_whole (harray : ∀ items given, s.core = .array items → v ≠ .array given)
    (hobject : ∀ fields given, s.core = .object fields → v ≠ .object given) : s.prune v = v := by
  rw [prune_core]
  rcases s.core_cases with hplain | ⟨items, hs⟩ | ⟨fields, hs⟩
  · exact prune_plain hplain v
  · rw [hs]
    cases v <;> first | rfl | exact (harray _ _ hs rfl).elim
  · rw [hs]
    cases v <;> first | rfl | exact (hobject _ _ hs rfl).elim

theorem prune_null (s : Schema) : s.prune .null = .null :=
  prune_whole nofun nofun

theorem prune_ne_null (hv : v ≠ .null) : s.prune v ≠ .null := by
  cases judged s (some v) with
  | null => exact (hv rfl).elim
  | array items given hs => simp [prune_array hs]
  | object fields given hs => simp [prune_object hs]
  | whole _ _ harray hobject =>
    rw [prune_whole harray hobject]
    exact hv

theorem get?_prunedFields (fields : List (String × Schema)) (given : List (String × Value))
    (name : String) : Entries.get? (prunedFields fields given) name =
      (Entries.get? fields name).bind fun t => (Entries.get? given name).map t.prune := by
  induction given with
  | nil => cases Entries.get? fields name <;> rfl
  | cons entry rest ih =>
    obtain ⟨key, v⟩ := entry
    unfold prunedFields at ih ⊢
    by_cases hkey : key = name
    · subst hkey
      cases ht : Entries.get? fields key <;> simp [Entries.get?, ht, ih]
    · cases ht : Entries.get? fields key <;> simp [Entries.get?, ht, hkey, ih]

theorem names_prunedFields_subset :
    Entries.names (prunedFields fields given) ⊆ Entries.names fields := by
  intro name hname
  rw [Entries.mem_names_iff] at hname ⊢
  obtain ⟨_, hget⟩ := hname
  rw [get?_prunedFields] at hget
  obtain ⟨t, ht, -⟩ := Option.bind_eq_some_iff.1 hget
  exact ⟨t, ht⟩

/-! ## Lenient checks -/

theorem checkItems_map (check : Place → Value → Checked (Option Value)) (f : Value → Value)
    (place : Place) (index : Nat) (elements : List Value) :
    checkItems check place index (elements.map f) =
      checkItems (fun place v => check place (f v)) place index elements := by
  induction elements generalizing index with
  | nil => rfl
  | cons v rest ih => rw [List.map_cons, checkItems, checkItems, ih]

theorem checkFields_congr {strict' : Bool} {given' : List (String × Value)}
    (h : ∀ field ∈ fields,
      checkAt strict (place ++ [.field field.1]) field.2 (Entries.get? given field.1) =
        checkAt strict' (place ++ [.field field.1]) field.2 (Entries.get? given' field.1)) :
    checkFields strict place given fields = checkFields strict' place given' fields := by
  induction fields with
  | nil => rfl
  | cons field rest ih =>
    obtain ⟨hfield, hrest⟩ := List.forall_mem_cons.1 h
    rw [checkFields, checkFields, hfield, ih hrest]

theorem checkAt_nullable_some {inner : Schema} (hv : v ≠ .null) :
    checkAt strict place (.nullable inner) (some v) = checkAt strict place inner (some v) := by
  rw [checkAt.eq_def]
  cases v <;> first | exact (hv rfl).elim | rfl

/-- Whether undeclared fields are dropped during a check or before it makes no difference. -/
theorem checkAt_prune (hs : s.WellFormed) :
    checkAt false place s value = checkAt true place s (value.map s.prune) := by
  induction s using Schema.induct generalizing place value with
  | plain s hplain =>
    cases value with
    | none => cases s <;> first | rfl | exact hplain.elim
    | some v =>
      rw [Option.map_some, prune_plain hplain]
      cases s <;> first | rfl | exact hplain.elim
  | array items ih =>
    cases value with
    | none => rfl
    | some v =>
      cases v with
      | array given =>
        rw [Option.map_some, prune_array rfl, checkAt, checkAt, checkItems_map]
        congr 2
        funext place v
        exact ih hs
      | _ => rfl
  | object fields ih =>
    obtain ⟨hd, hwf⟩ := wellFormed_object_iff.1 hs
    cases value with
    | none => rfl
    | some v =>
      cases v with
      | object given =>
        rw [Option.map_some, prune_object rfl, checkAt, checkAt, if_pos rfl,
          undeclared_eq_nil_iff.2 names_prunedFields_subset]
        congr 2
        refine checkFields_congr fun field hmem => ?_
        rw [get?_prunedFields, hd.get?_of_mem hmem]
        exact ih field hmem (hwf field hmem)
      | _ => rfl
  | optional inner default ih =>
    cases value with
    | none => rfl
    | some v => exact ih hs.1
  | nullable inner ih =>
    cases value with
    | none =>
      rw [Option.map_none, checkAt, checkAt, ih hs]
      rfl
    | some v =>
      by_cases hv : v = .null
      · rw [hv, Option.map_some, prune_null]
        rfl
      · rw [Option.map_some, checkAt_nullable_some hv, checkAt_nullable_some (prune_ne_null hv)]
        exact ih hs

/-! ## The errors beyond those of a lenient check -/

/-- No shape in words can be taken for the text about undeclared fields. -/
theorem toList_describe_ne (s : Schema) (rest : List Char) :
    s.describe.toList ≠ 'n' :: 'o' :: rest := by
  induction s using Schema.induct generalizing rest with
  | plain s hs =>
    cases s with
    | string =>
      show "string".toList ≠ _
      simp
    | number min max =>
      rcases min with _ | min <;> rcases max with _ | max
      · show "number".toList ≠ _
        simp
      · show ("number <= " ++ boundText max).toList ≠ _
        simp
      · show ("number >= " ++ boundText min).toList ≠ _
        simp
      · show ("number between " ++ boundText min ++ " and " ++ boundText max).toList ≠ _
        simp
    | boolean =>
      show "boolean".toList ≠ _
      simp
    | oneOf values =>
      show (" | ".intercalate (values.map fun v => "\"" ++ v ++ "\"")).toList ≠ _
      cases values <;> simp
    | path =>
      show "binding path (e.g. \"/server/cpu\")".toList ≠ _
      simp
    | array | object | optional | nullable => exact hs.elim
  | array items =>
    show ("array of " ++ items.describe).toList ≠ _
    simp
  | object fields =>
    cases fields with
    | nil =>
      show "\x7b\x7d".toList ≠ _
      simp
    | cons field rest =>
      show ("\x7b " ++ ", ".intercalate (describeFields (field :: rest)) ++ " \x7d").toList ≠ _
      simp
  | optional inner default ih => exact ih rest
  | nullable inner ih =>
    show (inner.describe ++ " | null").toList ≠ _
    rw [String.toList_append]
    -- The second character comes from the words for the inner shape, or is not a letter.
    rcases h : inner.describe.toList with _ | ⟨first, _ | ⟨second, more⟩⟩
    · simp
    · simp
    · intro heq
      injection heq with hfirst heq
      injection heq with hsecond
      exact ih more (by rw [h, hfirst, hsecond])

theorem expected_eq_iff {e : SchemaError} :
    e.expected = "no such field" ↔ ∃ x, e.fault = .undeclared x := by
  obtain ⟨place, fault⟩ := e
  cases fault with
  | mismatch s received =>
    refine iff_of_false (fun h => ?_) nofun
    have h : s.describe = "no such field" := h
    exact toList_describe_ne s _ (congrArg String.toList h)
  | badPath e received =>
    refine iff_of_false (fun h => ?_) nofun
    have h := congrArg String.toList h
    simp [SchemaError.expected] at h
  | undeclared x => exact iff_of_true rfl ⟨x, rfl⟩

theorem Misfit.expected_ne {fault : SchemaFault} (h : Misfit s v fault) (place : Place) :
    SchemaError.expected ⟨place, fault⟩ ≠ "no such field" := by
  rw [Ne, expected_eq_iff]
  rintro ⟨_, rfl⟩
  cases h

theorem AtMostMisfit.unique {found found' : List SchemaError} (h : AtMostMisfit s v found)
    (h' : AtMostMisfit s v found') : found = found' := by
  rcases h with ⟨rfl, hnone⟩ | ⟨fault, rfl, hone⟩
  · rcases h' with ⟨rfl, -⟩ | ⟨fault', -, hone'⟩
    · rfl
    · exact (hnone fault' ((hone' fault').2 rfl)).elim
  · rcases h' with ⟨-, hnone'⟩ | ⟨fault', rfl, hone'⟩
    · exact (hnone' fault ((hone fault).2 rfl)).elim
    · rw [(hone' fault).1 ((hone fault).2 rfl)]

theorem AtMostMisfit.expected_ne {found : List SchemaError} (h : AtMostMisfit s v found)
    {e : SchemaError} (he : e ∈ found) : e.expected ≠ "no such field" := by
  rcases h with ⟨rfl, -⟩ | ⟨fault, rfl, hone⟩
  · cases he
  · cases List.mem_singleton.1 he
    exact Misfit.expected_ne ((hone fault).2 rfl) []

theorem filter_map_under {step : Step} {found : List SchemaError} :
    (found.map (under [step])).filter (·.expected ≠ "no such field") =
      (found.filter (·.expected ≠ "no such field")).map (under [step]) := by
  rw [List.filter_map]
  rfl

/-- A lenient check finds what a strict one finds apart from undeclared fields. -/
theorem faults_lenient (s : Schema) (value : Option Value) :
    s.faults false value = (s.faults true value).filter (·.expected ≠ "no such field") := by
  induction s using inductParts generalizing value with
  | step s hitems hfields =>
    cases judged s value with
    | absent =>
      rw [faults_none, faults_none]
      cases s.isOptional with
      | true => rfl
      | false =>
        have hne : SchemaError.expected ⟨[], .mismatch s none⟩ ≠ "no such field" := by
          simp [expected_eq_iff]
        simp [hne]
    | null h =>
      rw [faults_null h, faults_null h]
      rfl
    | array items given hs =>
      rw [faults_array hs, faults_array hs, List.filter_flatMap]
      refine List.flatMap_congr fun item hmem => ?_
      rw [filter_map_under, hitems items hs]
    | object fields given hs =>
      have hundeclared :
          (undeclared [] fields given).filter (·.expected ≠ "no such field") = [] := by
        refine List.filter_eq_nil_iff.2 fun e he => ?_
        obtain ⟨entry, -, -, -, hfault⟩ := mem_undeclared_iff.1 he
        simp [expected_eq_iff, hfault]
      rw [faults_object hs, faults_object hs, List.filter_append, List.filter_flatMap, if_pos rfl,
        hundeclared]
      congr 1
      refine List.flatMap_congr fun field hmem => ?_
      rw [filter_map_under, hfields fields hs field hmem]
    | whole v hnull harray hobject =>
      have hstrict := atMostMisfit_faults true hnull harray hobject
      rw [(atMostMisfit_faults false hnull harray hobject).unique hstrict, eq_comm,
        List.filter_eq_self]
      intro e he
      exact decide_eq_true (hstrict.expected_ne he)

/-! ## The fields that are pruned -/

theorem not_removed_nil : ¬ Removed s v [] x := by
  intro h
  cases h.pruned

/-- The place of the holder of a part. -/
theorem dropLast_cons_cons (step next : Step) (rest : Place) :
    (step :: next :: rest : Place).dropLast = step :: (next :: rest : Place).dropLast := rfl

theorem not_removed_of_prune_eq (h : s.prune v = v) : ¬ Removed s v place x := by
  intro hremoved
  have hpruned := hremoved.pruned
  rw [h, hremoved.given] at hpruned
  cases hpruned

/-- What is pruned beyond a step is pruned from the part that is one step away, when this part is
kept. -/
theorem removed_cons_iff_of_kept {t : Schema} {step : Step} {y : Value} (hv : v.part? step = some y)
    (hkept : (s.prune v).part? step = some (t.prune y)) :
    Removed s v (step :: place) x ↔ Removed t y place x := by
  have hat (rest : Place) : v.at? (step :: rest) = y.at? rest := by
    rw [Value.at?, hv, Option.bind_some]
  have hat' (rest : Place) : (s.prune v).at? (step :: rest) = (t.prune y).at? rest := by
    rw [Value.at?, hkept, Option.bind_some]
  cases place with
  | nil =>
    refine iff_of_false (fun h => ?_) not_removed_nil
    cases (hat' []).symm.trans h.pruned
  | cons next rest =>
    constructor
    · rintro ⟨hgiven, hpruned, hholder⟩
      rw [dropLast_cons_cons, hat'] at hholder
      exact ⟨hat _ ▸ hgiven, hat' _ ▸ hpruned, hholder⟩
    · rintro ⟨hgiven, hpruned, hholder⟩
      refine ⟨(hat _).trans hgiven, (hat' _).trans hpruned, ?_⟩
      rwa [dropLast_cons_cons, hat']

theorem removed_cons_iff_of_pruned {step : Step} (hv : (s.prune v).part? step = none) :
    Removed s v (step :: place) x ↔ place = [] ∧ v.part? step = some x := by
  have hat' (rest : Place) : (s.prune v).at? (step :: rest) = none := by
    rw [Value.at?, hv, Option.bind_none]
  cases place with
  | nil =>
    constructor
    · intro h
      obtain ⟨y, hy, hrest⟩ := Value.at?_cons_eq_some_iff.1 h.given
      cases hrest
      exact ⟨rfl, hy⟩
    · rintro ⟨-, hpart⟩
      exact ⟨Value.at?_cons_eq_some_iff.2 ⟨x, hpart, rfl⟩, hat' [], s.prune v, rfl⟩
  | cons next rest =>
    refine iff_of_false (fun h => ?_) nofun
    obtain ⟨y, hy⟩ := h.holder
    rw [dropLast_cons_cons, hat'] at hy
    cases hy

theorem Removed.exists_part (h : Removed s v place x) :
    ∃ step rest y, place = step :: rest ∧ v.part? step = some y := by
  cases place with
  | nil => exact (not_removed_nil h).elim
  | cons step rest =>
    obtain ⟨y, hy, -⟩ := Value.at?_cons_eq_some_iff.1 h.given
    exact ⟨step, rest, y, rfl, hy⟩

theorem removed_array_iff {elements : List Value} (hs : s.core = .array items) :
    Removed s (.array elements) place x ↔
      ∃ index v rest, elements[index]? = some v ∧ place = .item index :: rest ∧
        Removed items v rest x := by
  have hkept {index : Nat} {v : Value} {rest : Place} (hitem : elements[index]? = some v) :
      Removed s (.array elements) (.item index :: rest) x ↔ Removed items v rest x := by
    refine removed_cons_iff_of_kept hitem ?_
    rw [prune_array hs, Value.part?, List.getElem?_map, hitem, Option.map_some]
  constructor
  · intro h
    obtain ⟨step, rest, v, rfl, hitem⟩ := h.exists_part
    cases step with
    | item index => exact ⟨index, v, rest, hitem, rfl, (hkept hitem).1 h⟩
    | field | items => cases hitem
  · rintro ⟨index, v, rest, hitem, rfl, h⟩
    exact (hkept hitem).2 h

theorem removed_object_iff (hs : s.core = .object fields) (hd : Entries.Distinct fields)
    (hgiven : Entries.Distinct given) :
    Removed s (.object given) place x ↔
      (∃ field ∈ fields, ∃ v rest, Entries.get? given field.1 = some v ∧
        place = .field field.1 :: rest ∧ Removed field.2 v rest x) ∨
      ∃ entry ∈ given, entry.1 ∉ Entries.names fields ∧ place = [.field entry.1] ∧ x = entry.2 := by
  have hpart (name : String) : (s.prune (.object given)).part? (.field name) =
      (Entries.get? fields name).bind fun t => (Entries.get? given name).map t.prune := by
    rw [prune_object hs, Value.part?, get?_prunedFields]
  have hkept {name : String} {t : Schema} {v : Value} {rest : Place}
      (ht : Entries.get? fields name = some t) (hget : Entries.get? given name = some v) :
      Removed s (.object given) (.field name :: rest) x ↔ Removed t v rest x := by
    refine removed_cons_iff_of_kept hget ?_
    rw [hpart, ht, hget]
    rfl
  have hpruned {name : String} {rest : Place} (hname : name ∉ Entries.names fields) :
      Removed s (.object given) (.field name :: rest) x ↔
        rest = [] ∧ Entries.get? given name = some x := by
    refine removed_cons_iff_of_pruned ?_
    rw [hpart, Entries.get?_eq_none_iff.2 hname]
    rfl
  constructor
  · intro h
    obtain ⟨step, rest, v, rfl, hget⟩ := h.exists_part
    cases step with
    | field name =>
      have hget : Entries.get? given name = some v := hget
      by_cases hname : name ∈ Entries.names fields
      · obtain ⟨t, ht⟩ := Entries.mem_names_iff.1 hname
        exact .inl ⟨(name, t), Entries.mem_of_get? ht, v, rest, hget, rfl, (hkept ht hget).1 h⟩
      · obtain ⟨rfl, hx⟩ := (hpruned hname).1 h
        exact .inr ⟨(name, x), Entries.mem_of_get? hx, hname, rfl, rfl⟩
    | item | items => cases hget
  · rintro (⟨⟨name, t⟩, hmem, v, rest, hget, rfl, h⟩ | ⟨⟨name, v⟩, hmem, hname, rfl, rfl⟩)
    · exact (hkept (hd.get?_of_mem hmem) hget).2 h
    · exact (hpruned hname).2 ⟨rfl, hgiven.get?_of_mem hmem⟩

theorem violation_undeclared_iff_removed (hs : s.WellFormed) (hv : v.WellFormed) :
    Violation true s (some v) place (.undeclared x) ↔ Removed s v place x := by
  induction s using inductParts generalizing v place with
  | step s hitems hfields =>
    cases judged s (some v) with
    | null h =>
      exact iff_of_false (not_violation_null h) (not_removed_of_prune_eq (prune_null s))
    | whole _ hnull harray hobject =>
      rw [violation_whole_iff hnull harray hobject]
      refine iff_of_false (fun h => ?_) (not_removed_of_prune_eq (prune_whole harray hobject))
      exact h.2.expected_ne place rfl
    | array items given hcore =>
      have hwf := Value.wellFormed_array_iff.1 hv
      rw [violation_array_iff hcore, removed_array_iff hcore]
      refine exists_congr fun index => exists_congr fun v => exists_congr fun rest =>
        and_congr_right fun hitem => and_congr_right fun _ => ?_
      exact hitems items hcore (hs.ofItems hcore) (hwf v (List.mem_of_getElem? hitem))
    | object fields given hcore =>
      obtain ⟨hd, hwf⟩ := hs.ofFields hcore
      obtain ⟨hgiven, hvalues⟩ := Value.wellFormed_object_iff.1 hv
      rw [violation_object_iff hcore, removed_object_iff hcore hd hgiven]
      refine or_congr (exists_congr fun field => and_congr_right fun hmem => ?_) ?_
      · cases hget : Entries.get? given field.1 with
        | none => simp [violation_none_iff]
        | some v =>
          have hvalue := hvalues _ (Entries.mem_of_get? hget)
          simp [hfields fields hcore field hmem (hwf field hmem) hvalue]
      · simp only [true_and, SchemaFault.undeclared.injEq]

/-- A lenient check is a strict check of the pruned value. A strict check of the value itself finds
the same, and beyond that one error for every field that is pruned. -/
theorem validate_lenient_eq_pruned (hs : s.WellFormed) (hv : v.WellFormed) :
    s.validate false (some v) = s.validate true (some (s.prune v)) ∧
    Checked.errors (s.validate false (some v)) =
      (Checked.errors (s.validate true (some v))).filter (·.expected ≠ "no such field") ∧
    ((Checked.errors (s.validate true (some v))).map (·.place)).Nodup ∧
    ∀ e, e ∈ Checked.errors (s.validate true (some v)) ∧ e.expected = "no such field" ↔
      ∃ x, e.fault = .undeclared x ∧ Removed s v e.place x := by
  have hvalue := Value.wellFormed_some hv
  refine ⟨?pruned, ?filtered, ?once, fun e => ?removed⟩
  case pruned => rw [validate, validate, checkAt_prune hs, Option.map_some]
  case filtered => rw [errors_validate, errors_validate, faults_lenient]
  case once =>
    rw [errors_validate]
    refine (pairwise_faults true hs hvalue).imp ?_
    rintro place _ h rfl
    exact not_precedes_self hs hvalue h
  case removed =>
    rw [errors_validate, mem_faults_iff, expected_eq_iff]
    constructor
    · rintro ⟨h, x, hfault⟩
      rw [hfault, violation_undeclared_iff_removed hs hv] at h
      exact ⟨x, hfault, h⟩
    · rintro ⟨x, hfault, h⟩
      rw [hfault, violation_undeclared_iff_removed hs hv]
      exact ⟨h, x, rfl⟩

end Schema

namespace Sample

/-- A deck lists cards, of which some may be missing. -/
def deckShape : Schema := .object [("cards", .optional (.array (.nullable cardShape)) none)]

/-- A deck with an owner. Its only card has a colour. -/
def ownedDeck : Value :=
  .object [("owner", .string "club"), ("cards", .array [.null, plainCard])]

theorem wellFormed_deckShape : deckShape.WellFormed :=
  ⟨by decide, ⟨wellFormed_cardShape, nofun⟩, trivial⟩

theorem wellFormed_ownedDeck : ownedDeck.WellFormed :=
  ⟨by decide, trivial, ⟨trivial, wellFormed_plainCard, trivial⟩, trivial⟩

end Sample

/-- The owner of the deck and the colour of its card are pruned; that the card has no title and a tag
that is not known is found all the same. -/
theorem Schema.validate_lenient_eq_pruned_ownedDeck :
    Sample.deckShape.WellFormed ∧ Sample.ownedDeck.WellFormed ∧
    Sample.deckShape.prune Sample.ownedDeck =
      .object [("cards", .array [.null, .object [("tags", .array [.string "new", .string "old"])]])] ∧
    Sample.deckShape.validate false (some Sample.ownedDeck) =
      Sample.deckShape.validate true (some (Sample.deckShape.prune Sample.ownedDeck)) ∧
    (Checked.errors (Sample.deckShape.validate false (some Sample.ownedDeck))).map (·.place) =
      [[.field "cards", .item 1, .field "title"],
        [.field "cards", .item 1, .field "tags", .item 1]] ∧
    Removed Sample.deckShape Sample.ownedDeck [.field "owner"] (.string "club") ∧
    Removed Sample.deckShape Sample.ownedDeck [.field "cards", .item 1, .field "colour"]
      (.string "red") := by
  have hs := Sample.wellFormed_deckShape
  have hv := Sample.wellFormed_ownedDeck
  obtain ⟨hpruned, -, -, hremoved⟩ := validate_lenient_eq_pruned hs hv
  have hstrict : Checked.errors (Sample.deckShape.validate true (some Sample.ownedDeck)) =
      [⟨[.field "cards", .item 1, .field "title"], .mismatch (.nullable .string) none⟩,
        ⟨[.field "cards", .item 1, .field "tags", .item 1],
          .mismatch (.oneOf ["new"]) (some (.string "old"))⟩,
        ⟨[.field "cards", .item 1, .field "colour"], .undeclared (.string "red")⟩,
        ⟨[.field "owner"], .undeclared (.string "club")⟩] := rfl
  rw [hstrict] at hremoved
  refine ⟨hs, hv, rfl, hpruned, rfl, ?owner, ?colour⟩
  case owner =>
    obtain ⟨_, hfault, h⟩ := (hremoved ⟨[.field "owner"], .undeclared (.string "club")⟩).1
      ⟨by simp, rfl⟩
    cases hfault
    exact h
  case colour =>
    obtain ⟨_, hfault, h⟩ := (hremoved
      ⟨[.field "cards", .item 1, .field "colour"], .undeclared (.string "red")⟩).1 ⟨by simp, rfl⟩
    cases hfault
    exact h

end CatalogUi
