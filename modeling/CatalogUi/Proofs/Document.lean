import CatalogUi.Json.Reading
import CatalogUi.Proofs.Sameness
import CatalogUi.Proofs.Spelling

/-!
Documents that were written. The text of a value over several lines is read as the draft of the
value, with no defects, and the draft is read as the value; its floating-point numbers must be read
back, and it must not be nested too deep.
-/

namespace CatalogUi

namespace Value

mutual

/-- All floating-point numbers in a value are read back. -/
def DoublesReadBack : Value → Prop
  | .number (.double d) => Json.ReadsBack (.double d)
  | .array items => DoublesReadBackItems items
  | .object fields => DoublesReadBackFields fields
  | _ => True

def DoublesReadBackItems : List Value → Prop
  | [] => True
  | v :: rest => DoublesReadBack v ∧ DoublesReadBackItems rest

def DoublesReadBackFields : List (String × Value) → Prop
  | [] => True
  | (_, v) :: rest => DoublesReadBack v ∧ DoublesReadBackFields rest

end

theorem doublesReadBack_array_iff {items : List Value} :
    (array items).DoublesReadBack ↔ ∀ v ∈ items, v.DoublesReadBack := by
  rw [DoublesReadBack]
  induction items with
  | nil => simp [DoublesReadBackItems]
  | cons v rest ih => simp [DoublesReadBackItems, ih]

theorem doublesReadBack_object_iff {fields : List (String × Value)} :
    (object fields).DoublesReadBack ↔ ∀ field ∈ fields, field.2.DoublesReadBack := by
  rw [DoublesReadBack]
  induction fields with
  | nil => simp [DoublesReadBackFields]
  | cons field rest ih => simp [DoublesReadBackFields, ih]

/-- Numbers that a document can hold, all of which are read back. -/
def Legible (v : Value) : Prop := v.WellFormed ∧ v.DoublesReadBack

theorem Legible.number {n : Number} (h : (number n).Legible) : Json.ReadsBack n := by
  cases n with
  | int n => exact Json.readsBack_int h.1
  | double d => exact h.2

theorem Legible.item {items : List Value} (h : (array items).Legible) : ∀ v ∈ items, v.Legible :=
  fun v hmem => ⟨wellFormed_array_iff.1 h.1 v hmem, doublesReadBack_array_iff.1 h.2 v hmem⟩

theorem Legible.field {fields : List (String × Value)} (h : (object fields).Legible) :
    ∀ field ∈ fields, field.2.Legible := fun field hmem =>
  ⟨(wellFormed_object_iff.1 h.1).2 field hmem, doublesReadBack_object_iff.1 h.2 field hmem⟩

mutual

/-- How deep arrays and objects are nested. -/
def depth : Value → Nat
  | .array items => depthItems items + 1
  | .object fields => depthFields fields + 1
  | _ => 0

def depthItems : List Value → Nat
  | [] => 0
  | v :: rest => max (depth v) (depthItems rest)

def depthFields : List (String × Value) → Nat
  | [] => 0
  | (_, v) :: rest => max (depth v) (depthFields rest)

end

theorem depthItems_le_iff {items : List Value} {n : Nat} :
    depthItems items ≤ n ↔ ∀ v ∈ items, v.depth ≤ n := by
  induction items with
  | nil => simp [depthItems]
  | cons v rest ih => simp [depthItems, ih]

theorem depthFields_le_iff {fields : List (String × Value)} {n : Nat} :
    depthFields fields ≤ n ↔ ∀ field ∈ fields, field.2.depth ≤ n := by
  induction fields with
  | nil => simp [depthFields]
  | cons field rest ih => simp [depthFields, ih]

theorem depth_array_le_iff {items : List Value} {n : Nat} :
    (array items).depth ≤ n + 1 ↔ ∀ v ∈ items, v.depth ≤ n := by
  rw [depth, Nat.add_le_add_iff_right, depthItems_le_iff]

theorem depth_object_le_iff {fields : List (String × Value)} {n : Nat} :
    (object fields).depth ≤ n + 1 ↔ ∀ field ∈ fields, field.2.depth ≤ n := by
  rw [depth, Nat.add_le_add_iff_right, depthFields_le_iff]

end Value

namespace Json

open Draft

mutual

/-- The draft of a value. -/
def Draft.ofValue : Value → Draft
  | .null => .null
  | .bool b => .bool b
  | .number n => .number n
  | .string s => .string s
  | .array items => .array (ofItems items) .closed
  | .object fields => .object (ofFields fields) .closed

def Draft.ofItems : List Value → List Draft
  | [] => []
  | v :: rest => ofValue v :: ofItems rest

def Draft.ofFields : List (String × Value) → List (Option String × Draft)
  | [] => []
  | (name, v) :: rest => (some name, ofValue v) :: ofFields rest

end

/-! ## From the text to the draft -/

theorem stops_cons {c : Char} (hdigit : c.isDigit = false) (hpoint : c ≠ '.') (hlower : c ≠ 'e')
    (hupper : c ≠ 'E') (rest : List Char) : Stops (c :: rest) := by
  rintro _ ⟨⟩
  exact ⟨hdigit, hpoint, hlower, hupper⟩

theorem stops_comma (rest : List Char) : Stops (',' :: rest) :=
  stops_cons rfl (by decide) (by decide) (by decide) rest

theorem stops_lineBreak (level : Nat) (rest : List Char) : Stops (Value.lineBreak level ++ rest) :=
  stops_cons rfl (by decide) (by decide) (by decide) _

/-- Where a value comes next, possibly the end of an array instead. -/
inductive AwaitsValue : Place → Prop
  | value : AwaitsValue .value
  | firstItem : AwaitsValue .firstItem
  | item : AwaitsValue .item

/-- Where a name comes next, possibly the end of an object instead. -/
inductive AwaitsName : Place → Prop
  | firstName : AwaitsName .firstName
  | name : AwaitsName .name

variable {place : Place} {stack : List Frame} {ts : List Token} {rest : List Char}

theorem run_beginValue (hplace : AwaitsValue place) {t : Token} (ht : t ≠ .closeArray) :
    run place stack (t :: ts) =
      match beginValue t stack with
      | .settled document => document
      | .more place' stack' => run place' stack' ts := by
  have hstep : step place stack t = beginValue t stack := by
    cases hplace with
    | value => rfl
    | firstItem => exact if_neg ht
    | item => exact if_neg ht
  cases h : beginValue t stack <;> simp only [run, hstep, h]

theorem run_openArray (hplace : AwaitsValue place) :
    run place stack (.openArray :: ts) = run .firstItem (.items [] :: stack) ts :=
  run_beginValue hplace (by simp)

theorem run_openObject (hplace : AwaitsValue place) :
    run place stack (.openObject :: ts) = run .firstName (.members [] none :: stack) ts :=
  run_beginValue hplace (by simp)

theorem run_name (hplace : AwaitsName place) (done : List (Option String × Draft)) (name : String) :
    run place (.members done none :: stack) (.string name :: .colon :: ts) =
      run .value (.members done (some name) :: stack) ts := by
  cases hplace <;> rfl

/-- The text of a value is read as its draft, wherever a value comes next. -/
def ReadsAs (v : Value) : Prop :=
  ∀ level place stack rest, AwaitsValue place → Stops rest →
    run place stack (tokens (v.prettyText level ++ rest)) =
      run (.after (ofValue v)) stack (tokens rest)

theorem prettyItems_cons (level : Nat) (v w : Value) (more : List Value) :
    Value.prettyItems level (v :: w :: more) =
      Value.lineBreak level ++ v.prettyText level ++
        ',' :: Value.prettyItems level (w :: more) := rfl

theorem prettyFields_cons (level : Nat) (name : String) (v : Value) (other : String × Value)
    (more : List (String × Value)) :
    Value.prettyFields level ((name, v) :: other :: more) =
      Value.lineBreak level ++ Value.stringText name ++ ':' :: ' ' :: v.prettyText level ++
        ',' :: Value.prettyFields level (other :: more) := rfl

theorem prettyText_array_cons (level : Nat) (v : Value) (more : List Value) :
    (Value.array (v :: more)).prettyText level =
      '[' :: Value.prettyItems (level + 1) (v :: more) ++ Value.lineBreak level ++ [']'] := rfl

theorem prettyText_object_cons (level : Nat) (field : String × Value)
    (more : List (String × Value)) :
    (Value.object (field :: more)).prettyText level =
      '\x7b' :: Value.prettyFields (level + 1) (field :: more) ++ Value.lineBreak level ++
        ['\x7d'] := rfl

theorem run_items {items : List Value} (hitems : ∀ v ∈ items, ReadsAs v) (hne : items ≠ [])
    {level : Nat} {done : List Draft} (hplace : AwaitsValue place) (hrest : Stops rest)
    (hclose : tokens rest = .closeArray :: ts) :
    run place (.items done :: stack) (tokens (Value.prettyItems level items ++ rest)) =
      run (.after (.array (done.reverse ++ ofItems items) .closed)) stack ts := by
  induction items generalizing place done with
  | nil => exact absurd rfl hne
  | cons v more ih =>
    obtain ⟨hv, hmore⟩ := List.forall_mem_cons.1 hitems
    cases more with
    | nil =>
      rw [Value.prettyItems, List.append_assoc, tokens_lineBreak, hv _ _ _ _ hplace hrest, hclose]
      simp [run, step, closeTop, endTop, push, ofItems]
    | cons w more =>
      rw [prettyItems_cons, List.append_assoc, List.append_assoc, tokens_lineBreak,
        List.cons_append, hv _ _ _ _ hplace (stops_comma _), tokens_comma]
      have hnext : run (.after (ofValue v)) (.items done :: stack)
          (.comma :: tokens (Value.prettyItems level (w :: more) ++ rest)) =
        run .item (.items (ofValue v :: done) :: stack)
          (tokens (Value.prettyItems level (w :: more) ++ rest)) := rfl
      rw [hnext, ih hmore (List.cons_ne_nil _ _) .item]
      rw [List.reverse_cons, List.append_assoc, List.singleton_append]
      rfl

theorem run_fields {fields : List (String × Value)} (hfields : ∀ field ∈ fields, ReadsAs field.2)
    (hne : fields ≠ []) {level : Nat} {done : List (Option String × Draft)}
    (hplace : AwaitsName place) (hrest : Stops rest) (hclose : tokens rest = .closeObject :: ts) :
    run place (.members done none :: stack) (tokens (Value.prettyFields level fields ++ rest)) =
      run (.after (.object (done.reverse ++ ofFields fields) .closed)) stack ts := by
  induction fields generalizing place done with
  | nil => exact absurd rfl hne
  | cons field more ih =>
    obtain ⟨name, v⟩ := field
    obtain ⟨hv, hmore⟩ := List.forall_mem_cons.1 hfields
    have hname (after : List Char) :
        tokens (Value.lineBreak level ++ (Value.stringText name ++ ':' :: ' ' :: after)) =
          .string name :: .colon :: tokens after := by
      rw [tokens_lineBreak, tokens_stringText, tokens_colon, tokens_of_isBlank rfl]
    cases more with
    | nil =>
      rw [Value.prettyFields, List.append_assoc, List.append_assoc, List.cons_append,
        List.cons_append, hname, run_name hplace, hv _ _ _ _ .value hrest, hclose]
      simp [run, step, closeTop, endTop, push, ofFields]
    | cons other more =>
      rw [prettyFields_cons]
      simp only [List.append_assoc, List.cons_append]
      rw [hname, run_name hplace, hv _ _ _ _ .value (stops_comma _), tokens_comma]
      have hnext : run (.after (ofValue v)) (.members done (some name) :: stack)
          (.comma :: tokens (Value.prettyFields level (other :: more) ++ rest)) =
        run .name (.members ((some name, ofValue v) :: done) none :: stack)
          (tokens (Value.prettyFields level (other :: more) ++ rest)) := rfl
      rw [hnext, ih hmore (List.cons_ne_nil _ _) .name]
      rw [List.reverse_cons, List.append_assoc, List.singleton_append]
      rfl

theorem readsAs {v : Value} (hv : v.Legible) : ReadsAs v := by
  induction v using Value.induct with
  | null =>
    intro level place stack rest hplace _
    rw [Value.prettyText, tokens_null]
    exact run_beginValue hplace (by simp)
  | bool b =>
    intro level place stack rest hplace _
    rw [Value.prettyText, tokens_bool]
    exact run_beginValue hplace (by simp)
  | number n =>
    intro level place stack rest hplace hrest
    rw [Value.prettyText, Value.compactText, tokens_number hv.number hrest]
    exact run_beginValue hplace (by simp)
  | string s =>
    intro level place stack rest hplace _
    rw [Value.prettyText, Value.compactText, tokens_stringText]
    exact run_beginValue hplace (by simp)
  | array items ih =>
    intro level place stack rest hplace _
    have hitems (v : Value) (hmem : v ∈ items) : ReadsAs v := ih v hmem (hv.item v hmem)
    cases items with
    | nil =>
      rw [Value.prettyText, List.cons_append, List.cons_append, List.nil_append, tokens_openArray,
        tokens_closeArray, run_openArray hplace]
      rfl
    | cons v more =>
      rw [prettyText_array_cons]
      simp only [List.append_assoc, List.cons_append, List.nil_append]
      rw [tokens_openArray, run_openArray hplace,
        run_items hitems (List.cons_ne_nil _ _) .firstItem (stops_lineBreak _ _)
          (by rw [tokens_lineBreak, tokens_closeArray])]
      rfl
  | object fields ih =>
    intro level place stack rest hplace _
    have hfields (field : String × Value) (hmem : field ∈ fields) : ReadsAs field.2 :=
      ih field hmem (hv.field field hmem)
    cases fields with
    | nil =>
      rw [Value.prettyText, List.cons_append, List.cons_append, List.nil_append, tokens_openObject,
        tokens_closeObject, run_openObject hplace]
      rfl
    | cons field more =>
      rw [prettyText_object_cons]
      simp only [List.append_assoc, List.cons_append, List.nil_append]
      rw [tokens_openObject, run_openObject hplace,
        run_fields hfields (List.cons_ne_nil _ _) .firstName (stops_lineBreak _ _)
          (by rw [tokens_lineBreak, tokens_closeObject])]
      rfl

/-- The text of a value is the document of the value, whatever blanks follow it. -/
theorem ofText_pretty_append {v : Value} (hv : v.Legible) {blanks : String}
    (hstop : Stops blanks.toList) (hblank : tokens blanks.toList = []) :
    Document.ofText (v.pretty ++ blanks) = ⟨ofValue v, false⟩ := by
  have htext : (v.pretty ++ blanks).toList = v.prettyText 0 ++ blanks.toList := by
    rw [Value.pretty, String.toList_append, String.toList_ofList]
  rw [Document.ofText, htext, readsAs hv 0 .value [] _ .value hstop, hblank]
  rfl

theorem ofText_pretty {v : Value} (hv : v.Legible) :
    Document.ofText (v.pretty ++ "\n") = ⟨ofValue v, false⟩ := by
  have hstop : Stops ['\n'] := stops_cons rfl (by decide) (by decide) (by decide) []
  have hblank : tokens ['\n'] = [] := by rw [tokens_of_isBlank rfl, tokens_nil]
  exact ofText_pretty_append hv hstop hblank

/-! ## From the draft to the value -/

theorem readVerbatimItems_ofItems {nesting : Nat} {items : List Value}
    (h : ∀ v ∈ items, readVerbatim nesting (ofValue v) = .ok v) :
    readVerbatimItems nesting (ofItems items) .closed = .ok items := by
  induction items with
  | nil => rfl
  | cons v rest ih =>
    obtain ⟨hv, hrest⟩ := List.forall_mem_cons.1 h
    rw [ofItems, readVerbatimItems, hv, ih hrest]
    rfl

theorem readVerbatimMembers_ofFields {nesting : Nat} {fields : List (String × Value)}
    (h : ∀ field ∈ fields, readVerbatim nesting (ofValue field.2) = .ok field.2) :
    readVerbatimMembers nesting (ofFields fields) .closed = .ok fields := by
  induction fields with
  | nil => rfl
  | cons field rest ih =>
    obtain ⟨hfield, hrest⟩ := List.forall_mem_cons.1 h
    rw [ofFields, readVerbatimMembers, hfield, ih hrest]
    rfl

/-- The draft of a value is read as the value where it may be nested as deep as it is. -/
theorem readVerbatim_ofValue {nesting : Nat} {v : Value} (h : v.depth ≤ nesting) :
    readVerbatim nesting (ofValue v) = .ok v := by
  induction v using Value.induct generalizing nesting with
  | null | bool | number | string => rfl
  | array items ih =>
    cases nesting with
    | zero => cases h
    | succ n =>
      rw [Value.depth_array_le_iff] at h
      have hitems := readVerbatimItems_ofItems fun v hmem => ih v hmem (h v hmem)
      simp only [ofValue, readVerbatim, enter, bind, Except.bind, hitems, pure, Except.pure]
  | object fields ih =>
    cases nesting with
    | zero => cases h
    | succ n =>
      rw [Value.depth_object_le_iff] at h
      have hfields := readVerbatimMembers_ofFields fun field hmem => ih field hmem (h field hmem)
      simp only [ofValue, readVerbatim, enter, bind, Except.bind, hfields, pure, Except.pure]

end Json

end CatalogUi
