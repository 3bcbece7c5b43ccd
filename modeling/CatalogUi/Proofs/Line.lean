import CatalogUi.Proofs.Conformance
import CatalogUi.Proofs.Sameness

/-!
Texts on one line. A value in its short form is on one line whatever strings it holds, since line breaks
are escaped there. A shape in words quotes the strings that it lists as they are, and so is on one line
when these are, and the names of the fields in it.
-/

namespace CatalogUi

/-! ## Texts -/

namespace Text

/-- A text without line breaks. -/
def IsLine (s : String) : Prop := '\n' ∉ s.toList

instance (s : String) : Decidable (IsLine s) := inferInstanceAs (Decidable (_ ∉ _))

@[simp] theorem isLine_append_iff {s t : String} : IsLine (s ++ t) ↔ IsLine s ∧ IsLine t := by
  simp [IsLine]

theorem isLine_intercalate {separator : String} {parts : List String} (h : IsLine separator)
    (hparts : ∀ part ∈ parts, IsLine part) : IsLine (separator.intercalate parts) := by
  induction parts with
  | nil => simp [IsLine]
  | cons part rest ih =>
    obtain ⟨hpart, hrest⟩ := List.forall_mem_cons.1 hparts
    cases rest with
    | nil => simpa using hpart
    | cons next more =>
      rw [String.intercalate_cons_cons, isLine_append_iff, isLine_append_iff]
      exact ⟨⟨hpart, h⟩, ih hrest⟩

end Text

/-! ## Numbers -/

theorem newline_not_mem_toDigits (n : Nat) : '\n' ∉ Nat.toDigits 10 n :=
  fun h => absurd (Nat.isDigit_of_mem_toDigits (by decide) (by decide) h) (by decide)

namespace NumeralStyle

variable {digits : List Char}

theorem newline_not_mem_plainText (style : NumeralStyle) (h : '\n' ∉ digits) (place : Int) :
    '\n' ∉ style.plainText digits place := by
  have htake : '\n' ∉ digits.take place.natAbs := fun hmem => h (List.mem_of_mem_take hmem)
  have hdrop : '\n' ∉ digits.drop place.natAbs := fun hmem => h (List.mem_of_mem_drop hmem)
  unfold plainText
  split
  · simp [h]
  · split
    · cases style.keepsPoint <;> simp [h]
    · simp [htake, hdrop]

theorem newline_not_mem_scientificText (h : '\n' ∉ digits) (e : Int) :
    '\n' ∉ scientificText digits e := by
  have hexponent := newline_not_mem_toDigits e.natAbs
  unfold scientificText
  split <;> split <;> simp_all

theorem newline_not_mem_text (style : NumeralStyle) (d : Double) : '\n' ∉ style.text d := by
  have hmagnitude : '\n' ∉ style.magnitudeText d := by
    unfold magnitudeText
    have hdigits := newline_not_mem_toDigits (Decimal.shortest style.tie d).coefficient
    split
    · cases style.keepsPoint <;> simp
    · dsimp only
      split
      · exact newline_not_mem_plainText style hdigits _
      · split
        · exact newline_not_mem_plainText style hdigits _
        · exact newline_not_mem_scientificText hdigits _
  unfold text
  split <;> simp [hmagnitude]

end NumeralStyle

theorem Number.newline_not_mem_text (n : Number) : '\n' ∉ n.text := by
  cases n with
  | int n =>
    have hdigits := newline_not_mem_toDigits n.natAbs
    show '\n' ∉ intText n
    unfold intText
    split <;> simp [hdigits]
  | double d => exact NumeralStyle.newline_not_mem_text _ d

/-! ## Values -/

namespace Value

theorem newline_not_mem_escapedChar (c : Char) : '\n' ∉ escapedChar c := by
  have hdigit : ∀ n < 16, '\n' ≠ Nat.digitChar n := by decide
  unfold escapedChar
  split
  case h_8 hbreak _ _ =>
    split
    next hcontrol =>
      -- Any other control is written with the two last digits of four, which are hexadecimal.
      have hhigh := hdigit (c.toNat / 16) (by omega)
      have hlow := hdigit (c.toNat % 16) (by omega)
      simp [hhigh, hlow]
    next => exact fun h => hbreak (List.mem_singleton.1 h).symm
  all_goals decide

theorem newline_not_mem_stringText (s : String) : '\n' ∉ stringText s := by
  have hchars : '\n' ∉ s.toList.flatMap escapedChar := by
    rw [List.mem_flatMap]
    rintro ⟨c, -, hmem⟩
    exact newline_not_mem_escapedChar c hmem
  simp [stringText, hchars]

theorem newline_not_mem_compactItems {items : List Value}
    (h : ∀ v ∈ items, '\n' ∉ compactText v) : '\n' ∉ compactItems items := by
  induction items with
  | nil => simp [compactItems]
  | cons v rest ih =>
    obtain ⟨hv, hrest⟩ := List.forall_mem_cons.1 h
    cases rest with
    | nil => simpa [compactItems] using hv
    | cons next more => simp [compactItems, hv, ih hrest]

theorem newline_not_mem_compactFields {fields : List (String × Value)}
    (h : ∀ field ∈ fields, '\n' ∉ compactText field.2) : '\n' ∉ compactFields fields := by
  induction fields with
  | nil => simp [compactFields]
  | cons field rest ih =>
    obtain ⟨hv, hrest⟩ := List.forall_mem_cons.1 h
    have hname := newline_not_mem_stringText field.1
    cases rest with
    | nil => simp [compactFields, hname, hv]
    | cons next more => simp [compactFields, hname, hv, ih hrest]

theorem newline_not_mem_compactText (v : Value) : '\n' ∉ v.compactText := by
  induction v using Value.induct with
  | null => simp [compactText]
  | bool b => cases b <;> simp [compactText]
  | number n =>
    rw [compactText]
    exact n.newline_not_mem_text
  | string s =>
    rw [compactText]
    exact newline_not_mem_stringText s
  | array items ih => simp [compactText, newline_not_mem_compactItems ih]
  | object fields ih => simp [compactText, newline_not_mem_compactFields ih]

theorem isLine_compact (v : Value) : Text.IsLine v.compact := by
  rw [Text.IsLine, compact, String.toList_ofList]
  exact v.newline_not_mem_compactText

end Value

/-! ## Shapes in words -/

namespace Schema

open Text

/-- A name that can stand in front of a colon in a line. -/
def IsLabel (name : String) : Prop := IsLine name ∧ ':' ∉ name.toList

instance (name : String) : Decidable (IsLabel name) := inferInstanceAs (Decidable (_ ∧ _))

mutual

/-- Every string that the shape lists is on one line, and every field in it has a name that can stand
in front of a colon. -/
def KeepsLines : Schema → Prop
  | .oneOf values => ∀ v ∈ values, IsLine v
  | .array items => KeepsLines items
  | .object fields => FieldsKeepLines fields
  | .optional inner _ => KeepsLines inner
  | .nullable inner => KeepsLines inner
  | _ => True

def FieldsKeepLines : List (String × Schema) → Prop
  | [] => True
  | (name, s) :: rest => IsLabel name ∧ KeepsLines s ∧ FieldsKeepLines rest

end

theorem keepsLines_object_iff {fields : List (String × Schema)} :
    (object fields).KeepsLines ↔ ∀ field ∈ fields, IsLabel field.1 ∧ field.2.KeepsLines := by
  rw [KeepsLines]
  induction fields with
  | nil => simp [FieldsKeepLines]
  | cons field rest ih => simp [FieldsKeepLines, ih, and_assoc]

theorem isLine_boundText (bound : Bound) : IsLine (boundText bound) := by
  cases bound with
  | finite d =>
    rw [IsLine, boundText, String.toList_ofList]
    exact NumeralStyle.newline_not_mem_text _ d
  | infinite negative => cases negative <;> decide
  | nan => decide

theorem isLine_of_mem_describeFields {fields : List (String × Schema)}
    (h : ∀ field ∈ fields, IsLabel field.1 ∧ IsLine field.2.describe) :
    ∀ part ∈ describeFields fields, IsLine part := by
  induction fields with
  | nil => simp [describeFields]
  | cons field rest ih =>
    obtain ⟨⟨hname, hshape⟩, hrest⟩ := List.forall_mem_cons.1 h
    rw [describeFields]
    refine List.forall_mem_cons.2 ⟨?_, ih hrest⟩
    simp only [isLine_append_iff]
    refine ⟨⟨⟨hname.1, ?_⟩, by decide⟩, hshape⟩
    cases field.2.isOptional <;> decide

/-- The words for a shape are on one line when what they take over from it is. -/
theorem isLine_describe {s : Schema} (h : s.KeepsLines) : IsLine s.describe := by
  induction s using Schema.induct with
  | plain s hs =>
    cases s with
    | string =>
      show IsLine "string"
      decide
    | number min max =>
      rcases min with _ | min <;> rcases max with _ | max
      · show IsLine "number"
        decide
      · show IsLine ("number <= " ++ boundText max)
        exact isLine_append_iff.2 ⟨by decide, isLine_boundText max⟩
      · show IsLine ("number >= " ++ boundText min)
        exact isLine_append_iff.2 ⟨by decide, isLine_boundText min⟩
      · show IsLine ("number between " ++ boundText min ++ " and " ++ boundText max)
        simp only [isLine_append_iff]
        exact ⟨⟨⟨by decide, isLine_boundText min⟩, by decide⟩, isLine_boundText max⟩
    | boolean =>
      show IsLine "boolean"
      decide
    | oneOf values =>
      show IsLine (" | ".intercalate (values.map fun v => "\"" ++ v ++ "\""))
      refine isLine_intercalate (by decide) (List.forall_mem_map.2 fun v hv => ?_)
      rw [isLine_append_iff, isLine_append_iff]
      exact ⟨⟨by decide, h v hv⟩, by decide⟩
    | path =>
      show IsLine "binding path (e.g. \"/server/cpu\")"
      decide
    | array | object | optional | nullable => exact hs.elim
  | array items ih =>
    show IsLine ("array of " ++ items.describe)
    exact isLine_append_iff.2 ⟨by decide, ih h⟩
  | object fields ih =>
    rw [keepsLines_object_iff] at h
    cases fields with
    | nil =>
      show IsLine "\x7b\x7d"
      decide
    | cons field rest =>
      have hparts := isLine_of_mem_describeFields
        fun field hmem => ⟨(h field hmem).1, ih field hmem (h field hmem).2⟩
      show IsLine ("\x7b " ++ ", ".intercalate (describeFields (field :: rest)) ++ " \x7d")
      rw [isLine_append_iff, isLine_append_iff]
      exact ⟨⟨by decide, isLine_intercalate (by decide) hparts⟩, by decide⟩
  | optional inner default ih => exact ih h
  | nullable inner ih =>
    show IsLine (inner.describe ++ " | null")
    exact isLine_append_iff.2 ⟨ih h, by decide⟩

end Schema

end CatalogUi
