import CatalogUi.Proofs.Soundness

/-!
Absent values. A value may be absent when the shape says so, and what stands in for it then is the
default of the shape itself. A default that stands deeper, in a shape that may be absent within
another one, is announced as a default but not put in place.
-/

namespace CatalogUi

namespace Schema

variable {strict : Bool} {place : Place} {s : Schema} {fields : List (String × Schema)}
  {value r : Option Value} {v w : Value} {name : String}

/-- What is put in the place of an absent value. -/
def standIn? : Schema → Option Value
  | .optional _ default => default
  | .nullable inner => inner.standIn?
  | _ => none

/-- An absent value is accepted when it may be absent, and is the only fault otherwise. -/
theorem checkAt_none : checkAt strict place s none =
    if s.isOptional then .ok s.standIn? else mismatch place s none := by
  induction s using Schema.induct with
  | plain s hs => cases s <;> first | rfl | exact hs.elim
  | array | object | optional => rfl
  | nullable inner ih =>
    rw [checkAt, ih]
    cases h : inner.isOptional <;> simp [isOptional, standIn?, h]

theorem gives_none_iff : s.Gives strict none r ↔ s.isOptional = true ∧ r = s.standIn? := by
  rw [Gives, checkAt_none]
  cases s.isOptional <;> simp [mismatch, eq_comm]

theorem isOptional_of_standIn? (h : s.standIn? = some v) : s.isOptional = true := by
  induction s using Schema.induct with
  | plain s hs => cases s <;> first | exact hs.elim | cases h
  | array | object => cases h
  | optional => rfl
  | nullable inner ih => exact ih h

/-- What stands in for an absent value is accepted when it is given. -/
theorem Sound.accepts_standIn (hs : s.Sound) (h : s.standIn? = some v) : s.Accepts true v := by
  induction s using Schema.induct with
  | plain s hplain => cases s <;> first | exact hplain.elim | cases h
  | array | object => cases h
  | optional inner default => exact hs.2 v h
  | nullable inner ih =>
    by_cases hv : v = .null
    · subst hv
      exact ⟨.null, gives_nullable_null.2 rfl⟩
    · exact (ih hs h).imp fun w => (gives_nullable_some hv).2

/-! ## Defaults that are announced -/

/-- The declared default stands in a shape that is marked as optional once more, without a default
there. -/
def hidesDefault : Schema → Bool
  | .optional inner none => inner.default?.isSome
  | .nullable inner => inner.hidesDefault
  | _ => false

theorem standIn?_eq_default?_iff : s.standIn? = s.default? ↔ s.hidesDefault = false := by
  induction s using Schema.induct with
  | plain s hs => cases s <;> first | exact hs.elim | exact iff_of_true rfl rfl
  | array | object => exact iff_of_true rfl rfl
  | optional inner default =>
    cases default with
    | none =>
      rw [standIn?, default?, hidesDefault, Option.none_or, Option.isSome_eq_false_iff,
        Option.isNone_iff_eq_none, eq_comm]
    | some d => exact iff_of_true rfl rfl
  | nullable inner ih => exact ih

/-! ## Objects with a field left out -/

theorem exists_checkFields {given : List (String × Value)}
    (h : ∀ field ∈ fields, ∃ r, field.2.Gives strict (Entries.get? given field.1) r) :
    ∃ out, checkFields strict place given fields = .ok out := by
  induction fields with
  | nil => exact ⟨[], rfl⟩
  | cons field rest ih =>
    obtain ⟨⟨r, hr⟩, hrest⟩ := List.forall_mem_cons.1 h
    obtain ⟨out, hout⟩ := ih hrest
    exact ⟨_, Checked.both_ok_iff.2 ⟨r, out, checkAt_ok_iff.2 hr, hout, rfl⟩⟩

/-- When one declared field has faults and the others have none, its faults are all there are. -/
theorem checkFields_error (hd : Entries.Distinct fields) (hmem : (name, s) ∈ fields)
    {given : List (String × Value)} {errors : List SchemaError}
    (hothers : ∀ field ∈ fields, field.1 ≠ name →
      ∃ r, field.2.Gives strict (Entries.get? given field.1) r)
    (herror : checkAt strict (place ++ [.field name]) s (Entries.get? given name) =
      .error errors) :
    checkFields strict place given fields = .error errors := by
  induction fields with
  | nil => cases hmem
  | cons field rest ih =>
    obtain ⟨hnew, hdrest⟩ := List.nodup_cons.1 hd
    obtain ⟨hhead, htail⟩ := List.forall_mem_cons.1 hothers
    rcases List.mem_cons.1 hmem with rfl | hmem
    · obtain ⟨out, hout⟩ := exists_checkFields fun other hother => htail other hother <|
        ne_of_mem_of_not_mem (Entries.mem_names_of_mem hother) hnew
      rw [checkFields, herror, hout]
      rfl
    · have hne : field.1 ≠ name :=
        (ne_of_mem_of_not_mem (Entries.mem_names_of_mem hmem) hnew).symm
      obtain ⟨r, hr⟩ := hhead hne
      rw [checkFields, checkAt_ok_iff.2 hr, ih hdrest hmem htail]
      rfl

/-- Leaving out a field that may not be absent is the only fault of an object that is accepted with
the field. -/
theorem validate_omitted_of_required (hd : Entries.Distinct fields) (hmem : (name, s) ∈ fields)
    (hrequired : s.isOptional = false) {given : List (String × Value)}
    (hallows : Allows strict fields given) (habsent : Entries.get? given name = none)
    (hothers : ∀ field ∈ fields, field.1 ≠ name →
      ∃ r, field.2.Gives strict (Entries.get? given field.1) r) :
    (object fields).validate strict (some (.object given)) =
      .error [⟨[.field name], .mismatch s none⟩] := by
  have herror : checkAt strict ([] ++ [.field name]) s (Entries.get? given name) =
      .error [⟨[.field name], .mismatch s none⟩] := by
    rw [habsent, checkAt_none, hrequired]
    rfl
  have hdeclared : (if strict then undeclared [] fields given else []) = [] :=
    ite_eq_right_iff.2 fun hstrict => undeclared_eq_nil_iff.2 (hallows hstrict)
  rw [validate, checkAt, checkFields_error hd hmem hothers herror, hdeclared]
  rfl

/-- Leaving out a field that may be absent puts in its place what stands in for it. -/
theorem validate_omitted_of_optional (hd : Entries.Distinct fields) (hmem : (name, s) ∈ fields)
    (hoptional : s.isOptional = true) {given : List (String × Value)}
    (hallows : Allows strict fields given) (habsent : Entries.get? given name = none)
    (hothers : ∀ field ∈ fields, field.1 ≠ name →
      ∃ r, field.2.Gives strict (Entries.get? given field.1) r) :
    ∃ out, (object fields).validate strict (some (.object given)) = .ok (.object out) ∧
      Entries.get? out name = s.standIn? := by
  have hgives : ∀ field ∈ fields, ∃ r, field.2.Gives strict (Entries.get? given field.1) r ∧
      (field = (name, s) → r = s.standIn?) := by
    intro field hfield
    by_cases heq : field = (name, s)
    · subst heq
      exact ⟨s.standIn?, habsent ▸ gives_none_iff.2 ⟨hoptional, rfl⟩, fun _ => rfl⟩
    · have hname : field.1 ≠ name := fun hname =>
        heq (Prod.ext hname (hd.eq_of_mem hfield hmem hname))
      obtain ⟨r, hr⟩ := hothers field hfield hname
      exact ⟨r, hr, fun h => absurd h heq⟩
  obtain ⟨out, hout, hr⟩ := exists_gives_object hd hallows hgives
  exact ⟨out, validate_ok_iff.2 hout, hr _ hmem rfl⟩

end Schema

/-! ## Catalogs -/

/-- An object of a catalog that is accepted when a field is supplied. Without the field there is an
error for it, and no other, when the field may not be absent. When it may, the object is accepted
and gets under the name what stands in for the field; that is the announced default, or nothing
where none is announced, just when the default is not hidden. -/
theorem Catalog.validate_omitted {c : Catalog} (hw : c.WellFormed)
    {fields : List (String × Schema)} (hs : .object fields ∈ c.shapes) {name : String} {s : Schema}
    (hmem : (name, s) ∈ fields) {strict : Bool} {given : List (String × Value)} {v w : Value}
    (habsent : Entries.get? given name = none)
    (h : (Schema.object fields).validate strict (some (.object (Entries.set given name v))) =
      .ok w) :
    (s.isOptional = false ∧
      (Schema.object fields).validate strict (some (.object given)) =
        .error [⟨[.field name], .mismatch s none⟩]) ∨
    (s.isOptional = true ∧
      ∃ out, (Schema.object fields).validate strict (some (.object given)) = .ok (.object out) ∧
        Entries.get? out name = s.standIn? ∧
        (Entries.get? out name = s.default? ↔ s.hidesDefault = false)) := by
  obtain ⟨hd, -⟩ := Schema.wellFormed_object_iff.1 (hw _ hs)
  obtain ⟨_, full, heq, -, hallows, -, hgives⟩ :=
    (Schema.gives_object hd).1 (Schema.validate_ok_iff.1 h)
  cases heq
  have hothers : ∀ field ∈ fields, field.1 ≠ name →
      ∃ r, field.2.Gives strict (Entries.get? given field.1) r := by
    intro field hfield hne
    rw [← Entries.get?_set_of_ne given v hne]
    exact ⟨_, hgives field hfield⟩
  have hdeclared : Schema.Allows strict fields given := fun hstrict =>
    List.Subset.trans (Entries.names_subset_set given name v) (hallows hstrict)
  cases hoptional : s.isOptional with
  | false =>
    exact Or.inl ⟨rfl,
      Schema.validate_omitted_of_required hd hmem hoptional hdeclared habsent hothers⟩
  | true =>
    obtain ⟨out, hout, hget⟩ :=
      Schema.validate_omitted_of_optional hd hmem hoptional hdeclared habsent hothers
    exact Or.inr ⟨rfl, out, hout, hget, hget ▸ Schema.standIn?_eq_default?_iff⟩

namespace Sample

/-- A badge whose text may be left out, for the given default. -/
def badge (text : Schema) : ComponentSpec where
  name := "Badge"
  props := .object [("text", text)]
  acceptsChildren := false

def badges (text : Schema) : Catalog := ⟨[badge text], []⟩

theorem wellFormed_badges {text : Schema} (h : text.WellFormed) : (badges text).WellFormed := by
  intro s hs
  cases List.mem_singleton.1 hs
  exact ⟨List.nodup_singleton _, h, trivial⟩

/-- A text that may be left out, with a default. -/
def freeText : Schema := .optional .string (some (.string "New"))

theorem wellFormed_freeText : freeText.WellFormed := by
  refine ⟨trivial, ?_⟩
  rintro _ ⟨⟩
  trivial

end Sample

theorem Catalog.validate_omitted_badge :
    (Sample.badges Sample.freeText).WellFormed ∧
      (Sample.badge Sample.freeText).props.validate true
        (some (.object [("text", .string "Old")])) = .ok (.object [("text", .string "Old")]) ∧
      ∃ out, (Sample.badge Sample.freeText).props.validate true (some (.object [])) =
          .ok (.object out) ∧
        Entries.get? out "text" = Sample.freeText.default? := by
  have hw := Sample.wellFormed_badges Sample.wellFormed_freeText
  have h : (Sample.badge Sample.freeText).props.validate true
      (some (.object [("text", .string "Old")])) = .ok (.object [("text", .string "Old")]) := rfl
  have habsent : Entries.get? ([] : List (String × Value)) "text" = none := rfl
  rcases Catalog.validate_omitted hw (List.mem_singleton_self _) (List.mem_singleton_self _)
    habsent h with ⟨hrequired, -⟩ | ⟨-, out, hout, -, hdefault⟩
  · cases hrequired
  · exact ⟨hw, h, out, hout, hdefault.2 rfl⟩

/-- A default that stands in a shape which is marked as optional once more is announced but not put
in place. -/
theorem Catalog.not_validate_omitted_badge :
    ¬ ∀ (components : List ComponentSpec) (actions : List ActionSpec) (c : Catalog),
      Catalog.create components actions = .ok c → c.WellFormed →
        ∀ fields, .object fields ∈ c.shapes → ∀ name s, (name, s) ∈ fields →
          ∀ strict given v w, Entries.get? given name = none →
            (Schema.object fields).validate strict
              (some (.object (Entries.set given name v))) = .ok w →
            s.isOptional = true →
              ∃ out, (Schema.object fields).validate strict (some (.object given)) =
                  .ok (.object out) ∧
                Entries.get? out name = s.default? := by
  intro h
  let text : Schema := .optional Sample.freeText none
  have hc : Catalog.create [Sample.badge text] [] = .ok (Sample.badges text) := rfl
  have hw : (Sample.badges text).WellFormed :=
    Sample.wellFormed_badges ⟨Sample.wellFormed_freeText, nofun⟩
  obtain ⟨out, hout, hget⟩ := h _ _ _ hc hw _ (List.mem_singleton_self _) "text" text
    (List.mem_singleton_self _) true [] (.string "Old") (.object [("text", .string "Old")])
    rfl rfl rfl
  have hempty : (Sample.badge text).props.validate true (some (.object [])) =
    .ok (.object []) := rfl
  cases hempty.symm.trans hout
  cases hget

end CatalogUi
