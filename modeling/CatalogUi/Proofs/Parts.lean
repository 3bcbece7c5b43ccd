import CatalogUi.Proofs.Defaults
import CatalogUi.Proofs.Violation

/-!
The parts of a checked value. A place leads from a value to one of its parts, and from a shape to the
shape that is declared for the part. Every place in what a check gives is a place of the shape, and
what stands there fits the shape that is declared for it. It stems from the same place of the value
that was checked, unless a field above it was left out there; then it is a part of the default that
stands in for the field.
-/

namespace CatalogUi

namespace Value

/-- The part of a value that is one step away. -/
def part? : Value → Step → Option Value
  | .object entries, .field name => Entries.get? entries name
  | .array items, .item index => items[index]?
  | _, _ => none

/-- The part of a value at a place. -/
def at? : Value → Place → Option Value
  | v, [] => some v
  | v, step :: rest => (v.part? step).bind fun part => part.at? rest

/-- The second value is an array as long as the first, or an object as the first is, or the same
leaf. -/
def Mirrors : Value → Value → Prop
  | .array given, .array out => given.length = out.length
  | .object _, .object _ => True
  | given, out => given = out

theorem mirrors_self (v : Value) : v.Mirrors v := by
  cases v <;> trivial

theorem at?_cons_eq_some_iff {v part : Value} {step : Step} {rest : Place} :
    v.at? (step :: rest) = some part ↔
      ∃ inner, v.part? step = some inner ∧ inner.at? rest = some part :=
  Option.bind_eq_some_iff

end Value

namespace Schema

/-- The shape that is declared for the parts of a value that are one step away. -/
def part? (s : Schema) (step : Step) : Option Schema :=
  match s.core, step with
  | .object fields, .field name => Entries.get? fields name
  | .array items, .item _ => some items
  | _, _ => none

/-- The shape that is declared for the parts at a place. -/
def at? : Schema → Place → Option Schema
  | s, [] => some s
  | s, step :: rest => (s.part? step).bind fun part => part.at? rest

/-- A value is what a shape declares, as far as can be said without looking into its parts. -/
structure Fits (s : Schema) (v : Value) : Prop where
  null : v = .null → s.allowsNull = true
  kind : v ≠ .null → s.core.DeclaresKind v
  path : ∀ text, s.core = .path → v = .string text → ∃ p, Path.parse text = .ok p
  declared : ∀ fields given, s.core = .object fields → v = .object given →
    Entries.names given ⊆ Entries.names fields
  required : ∀ fields given, s.core = .object fields → v = .object given →
    ∀ field ∈ fields, field.2.isOptional = false → field.1 ∈ Entries.names given

/-- Where the part at a place in the result of a check stems from. -/
inductive Stems (s : Schema) (v : Value) : Place → Value → Prop
  /-- It stands at the same place in the value that was checked. -/
  | given {place : Place} {x part : Value} (hgiven : v.at? place = some x)
      (hmirrors : x.Mirrors part) : Stems s v place part
  /-- A field above it was left out, and it is a part of the default that stands in for the field. -/
  | default {before after : Place} {name : String} {entries : List (String × Value)} {t : Schema}
      {d part : Value} (hobject : v.at? before = some (.object entries))
      (habsent : Entries.get? entries name = none)
      (hshape : s.at? (before ++ [.field name]) = some t) (hdefault : t.standIn? = some d)
      (hpart : d.at? after = some part) : Stems s v (before ++ .field name :: after) part

variable {strict : Bool} {s t items : Schema} {fields : List (String × Schema)} {v w x : Value}
  {r : Option Value} {step : Step} {place : Place}

theorem part?_field (hs : s.core = .object fields) (name : String) :
    s.part? (.field name) = Entries.get? fields name := by
  unfold part?
  rw [hs]

theorem part?_item (hs : s.core = .array items) (index : Nat) :
    s.part? (.item index) = some items := by
  unfold part?
  rw [hs]

/-! ## What is given, by the kind of the value -/

theorem gives_core_iff (hv : v ≠ .null) :
    s.core.Gives strict (some v) r ↔ s.Gives strict (some v) r := by
  induction s using Schema.induct with
  | plain s hs => cases s <;> first | exact hs.elim | exact Iff.rfl
  | array | object => exact Iff.rfl
  | optional inner default ih => exact ih
  | nullable inner ih => exact ih.trans (gives_nullable_some hv).symm

theorem not_takes_null : ¬ s.Takes .null := by
  cases s <;> exact not_false

theorem Gives.of_null (hs : s.WellFormed) (h : s.Gives strict (some .null) (some w)) :
    w = .null ∧ s.allowsNull = true := by
  induction s using Schema.induct with
  | plain s hplain =>
    obtain ⟨_, heq, htakes, -⟩ := (gives_plain hplain).1 h
    cases heq
    exact (not_takes_null htakes).elim
  | array items =>
    obtain ⟨_, _, heq, -⟩ := gives_array.1 h
    cases heq
  | object fields =>
    obtain ⟨_, _, heq, -⟩ := (gives_object (wellFormed_object_iff.1 hs).1).1 h
    cases heq
  | optional inner default ih => exact ih hs.1 h
  | nullable inner => exact ⟨Option.some.inj (gives_nullable_null.1 h), rfl⟩

/-- How a value is turned into what is given for it. -/
inductive Turns (strict : Bool) (s : Schema) : Value → Value → Prop
  | null (hnull : s.allowsNull = true) : Turns strict s .null .null
  | leaf {v : Value} (htakes : s.core.Takes v) : Turns strict s v v
  | array {items : Schema} {given out : List Value} (hs : s.core = .array items)
      (hwf : items.WellFormed)
      (hitems : List.Forall₂ (fun v w => items.Gives strict (some v) (some w)) given out) :
      Turns strict s (.array given) (.array out)
  | object {fields : List (String × Schema)} {given out : List (String × Value)}
      (hs : s.core = .object fields) (hwf : ∀ field ∈ fields, field.2.WellFormed)
      (hallows : Allows strict fields given) (hnames : Entries.names out ⊆ Entries.names fields)
      (hfields : ∀ field ∈ fields,
        field.2.Gives strict (Entries.get? given field.1) (Entries.get? out field.1)) :
      Turns strict s (.object given) (.object out)

/-- The marks around a shape only matter for null, so that any other value is turned by the core. -/
theorem Gives.turns (hs : s.WellFormed) (h : s.Gives strict (some v) (some w)) :
    Turns strict s v w := by
  by_cases hv : v = .null
  · subst hv
    obtain ⟨rfl, hnull⟩ := h.of_null hs
    exact .null hnull
  rw [← gives_core_iff hv] at h
  rcases s.core_cases with hplain | ⟨items, hcore⟩ | ⟨fields, hcore⟩
  · obtain ⟨_, heq, htakes, hr⟩ := (gives_plain hplain).1 h
    cases heq
    cases hr
    exact .leaf htakes
  · rw [hcore] at h
    obtain ⟨given, out, heq, hr, hitems⟩ := gives_array.1 h
    cases heq
    cases hr
    exact .array hcore (hs.ofItems hcore) hitems
  · obtain ⟨hd, hwf⟩ := hs.ofFields hcore
    rw [hcore] at h
    obtain ⟨given, out, heq, hr, hallows, -, hfields⟩ := (gives_object hd).1 h
    cases heq
    cases hr
    exact .object hcore hwf hallows (names_of_gives_object hd h).2 hfields

theorem Takes.part?_eq_none (h : s.Takes v) (step : Step) : v.part? step = none := by
  cases v with
  | array | object => cases s <;> exact h.elim
  | null | bool | number | string => rfl

theorem Takes.declaresKind (h : s.Takes v) : s.DeclaresKind v := by
  cases s <;> cases v <;> first | exact h.elim | trivial

theorem Turns.mirrors (h : Turns strict s v w) : v.Mirrors w := by
  cases h with
  | null | leaf => exact Value.mirrors_self _
  | array _ _ hitems => exact hitems.length_eq
  | object => trivial

/-- A value that a strict check accepts is what the shape declares. -/
theorem Turns.fits (h : Turns true s v w) : s.Fits v := by
  cases h with
  | null hnull =>
    exact ⟨fun _ => hnull, fun hne => (hne rfl).elim, nofun, nofun, nofun⟩
  | leaf htakes =>
    refine ⟨?_, fun _ => htakes.declaresKind, ?_, ?_, ?_⟩
    · rintro rfl
      exact (not_takes_null htakes).elim
    · rintro text hcore rfl
      rw [hcore] at htakes
      exact htakes
    all_goals
      rintro fields given hcore rfl
      rw [hcore] at htakes
      exact htakes.elim
  | array hcore =>
    refine ⟨nofun, fun _ => ?_, nofun, nofun, nofun⟩
    rw [hcore]
    trivial
  | object hcore _ hallows _ hfields =>
    refine ⟨nofun, fun _ => ?_, nofun, ?_, ?_⟩
    · rw [hcore]
      trivial
    · rintro _ _ hcore' ⟨⟩
      cases hcore.symm.trans hcore'
      exact hallows rfl
    · rintro _ _ hcore' ⟨⟩ field hmem hrequired
      cases hcore.symm.trans hcore'
      by_contra habsent
      have hgives := hfields field hmem
      rw [Entries.get?_eq_none_iff.2 habsent, gives_none_iff] at hgives
      exact Bool.noConfusion (hrequired.symm.trans hgives.1)

/-! ## Down to the parts -/

theorem exists_of_getElem?_left {α β : Type} {R : α → β → Prop} {l : List α} {l' : List β}
    (h : List.Forall₂ R l l') {index : Nat} {a : α} (ha : l[index]? = some a) :
    ∃ b, l'[index]? = some b ∧ R a b := by
  obtain ⟨hlt, rfl⟩ := List.getElem?_eq_some_iff.1 ha
  have hlt' : index < l'.length := h.length_eq ▸ hlt
  exact ⟨l'[index], List.getElem?_eq_getElem hlt', h.get hlt hlt'⟩

/-- One step down. Where the result has a part, or a value that is checked strictly has one, the
shape declares it, and what stands there in the result is given for what stands there in the value.
Only fields can be absent in the value. -/
theorem Turns.part (h : Turns strict s v w) (step : Step) :
    (∃ t, s.part? step = some t ∧ t.WellFormed ∧ t.Gives strict (v.part? step) (w.part? step) ∧
      (v.part? step = none → ∃ entries name, v = .object entries ∧ step = .field name)) ∨
    (w.part? step = none ∧ (strict = true → v.part? step = none)) := by
  cases h with
  | null => exact .inr ⟨rfl, fun _ => rfl⟩
  | leaf htakes => exact .inr ⟨htakes.part?_eq_none step, fun _ => htakes.part?_eq_none step⟩
  | @array items given out hcore hwf hitems =>
    cases step with
    | item index =>
      cases hx : given[index]? with
      | none =>
        have hlong := List.getElem?_eq_none_iff.1 hx
        have hnone : out[index]? = none := by
          rw [List.getElem?_eq_none_iff, ← hitems.length_eq]
          exact hlong
        exact .inr ⟨hnone, fun _ => hx⟩
      | some x =>
        obtain ⟨y, hy, hgives⟩ := exists_of_getElem?_left hitems hx
        have hx : (Value.array given).part? (.item index) = some x := hx
        have hy : (Value.array out).part? (.item index) = some y := hy
        rw [hx, hy]
        exact .inl ⟨items, part?_item hcore index, hwf, hgives, nofun⟩
    | field | items => exact .inr ⟨rfl, fun _ => rfl⟩
  | @object fields given out hcore hwf hallows hnames hfields =>
    cases step with
    | field name =>
      cases ht : Entries.get? fields name with
      | some t =>
        have hmem := Entries.mem_of_get? ht
        exact .inl ⟨t, (part?_field hcore name).trans ht, hwf _ hmem, hfields _ hmem,
          fun _ => ⟨given, name, rfl, rfl⟩⟩
      | none =>
        have hname := Entries.get?_eq_none_iff.1 ht
        exact .inr ⟨Entries.get?_eq_none_iff.2 fun h => hname (hnames h),
          fun hstrict => Entries.get?_eq_none_iff.2 fun h => hname (hallows hstrict h)⟩
    | item | items => exact .inr ⟨rfl, fun _ => rfl⟩

theorem Accepts.part (hs : s.WellFormed) (h : s.Accepts true v) (hpart : v.part? step = some x) :
    ∃ t, s.part? step = some t ∧ t.WellFormed ∧ t.Accepts true x := by
  obtain ⟨w, hw⟩ := h
  rcases (hw.turns hs).part step with ⟨t, ht, hwf, hgives, -⟩ | ⟨-, hnone⟩
  · rw [hpart] at hgives
    obtain ⟨y, hy⟩ := hgives.exists_some
    exact ⟨t, ht, hwf, y, hy ▸ hgives⟩
  · cases hpart.symm.trans (hnone rfl)

/-- A strict check accepts a value only with all its parts, each by the shape declared for it. -/
theorem Accepts.at (hs : s.WellFormed) (h : s.Accepts true v) (hpart : v.at? place = some x) :
    ∃ t, s.at? place = some t ∧ t.WellFormed ∧ t.Accepts true x := by
  induction place generalizing s v with
  | nil =>
    cases hpart
    exact ⟨s, rfl, hs, h⟩
  | cons step rest ih =>
    obtain ⟨inner, hinner, hrest⟩ := Value.at?_cons_eq_some_iff.1 hpart
    obtain ⟨t, ht, hwf, haccepts⟩ := h.part hs hinner
    rw [at?, ht]
    exact ih hwf haccepts hrest

/-- What stems from a part stems from the whole. -/
theorem Stems.under (hv : v.part? step = some x) (hs : s.part? step = some t) {part : Value}
    (h : Stems t x place part) : Stems s v (step :: place) part := by
  cases h with
  | given hgiven hmirrors => exact .given (Value.at?_cons_eq_some_iff.2 ⟨x, hv, hgiven⟩) hmirrors
  | @default before after name _ _ _ _ hobject habsent hshape hdefault hpart =>
    show Stems s v ((step :: before) ++ .field name :: after) part
    refine .default (Value.at?_cons_eq_some_iff.2 ⟨x, hv, hobject⟩) habsent ?_ hdefault hpart
    rw [List.cons_append, at?, hs]
    exact hshape

theorem Gives.stems (hs : s.WellFormed) (h : s.Gives strict (some v) (some w)) {part : Value}
    (hpart : w.at? place = some part) : Stems s v place part := by
  induction place generalizing s v w with
  | nil =>
    cases hpart
    exact .given rfl (h.turns hs).mirrors
  | cons step rest ih =>
    obtain ⟨y, hy, hrest⟩ := Value.at?_cons_eq_some_iff.1 hpart
    rcases (h.turns hs).part step with ⟨t, ht, hwf, hgives, hfield⟩ | ⟨hnone, -⟩
    · rw [hy] at hgives
      cases hx : v.part? step with
      | none =>
        -- Here the value ends, and the rest of the place leads into the default.
        obtain ⟨entries, name, rfl, rfl⟩ := hfield hx
        rw [hx, gives_none_iff] at hgives
        show Stems s (.object entries) ([] ++ .field name :: rest) part
        refine .default rfl hx ?_ hgives.2.symm hrest
        rw [List.nil_append, at?, ht]
        rfl
      | some x =>
        rw [hx] at hgives
        exact (ih hwf hgives hrest).under hx ht
    · cases hy.symm.trans hnone

/-- A shape without defects is given, alone or in a catalog. Whatever its check gives, strict or not,
a strict check accepts. Every place in the result is a place of the shape, what stands there fits
what is declared for it, and it stems from the value that was checked or from a default. -/
theorem validate_conforms (hs : s.WellFormed)
    (hsound : s.lint [] = .ok () ∨ ∃ components actions c,
      Catalog.create components actions = .ok c ∧ s ∈ c.shapes)
    (h : s.validate strict (some v) = .ok w) :
    (∃ w', s.validate true (some w) = .ok w') ∧
    ∀ place part, w.at? place = some part →
      ∃ t, s.at? place = some t ∧ t.Fits part ∧ Stems s v place part := by
  have hsound : s.Sound := by
    rcases hsound with hlint | ⟨components, actions, c, hc, hmem⟩
    · exact lint_ok_iff.1 hlint
    · exact (Catalog.create_ok_iff.1 hc).2.shapes_sound s hmem
  rw [validate_ok_iff] at h
  -- Defaults are not checked when they are put in place; that they fit follows from the strict check
  -- of the whole result, which goes well again.
  obtain ⟨w', hagain, -⟩ := h.again hsound hs
  refine ⟨⟨w', validate_ok_iff.2 hagain⟩, fun place part hpart => ?_⟩
  obtain ⟨t, ht, hwf, _, haccepts⟩ := Accepts.at hs ⟨w', hagain⟩ hpart
  exact ⟨t, ht, (haccepts.turns hwf).fits, h.stems hs hpart⟩

end Schema

namespace Sample

/-- A menu has a title, which may be left out, and links, which are binding paths. -/
def menuShape : Schema :=
  .object [("title", .optional .string (some (.string "Menu"))), ("links", .array .path)]

/-- A menu without a title, with a colour that is not declared. -/
def redMenu : Value :=
  .object [("colour", .string "red"), ("links", .array [.string "/home"])]

def titledMenu : Value :=
  .object [("title", .string "Menu"), ("links", .array [.string "/home"])]

end Sample

/-- The menu gets its title from the default, and keeps its link. -/
theorem Schema.validate_conforms_menu :
    Sample.menuShape.WellFormed ∧ Sample.menuShape.lint [] = .ok () ∧
      Sample.menuShape.validate false (some Sample.redMenu) = .ok Sample.titledMenu ∧
      (∃ w', Sample.menuShape.validate true (some Sample.titledMenu) = .ok w') ∧
      Stems Sample.menuShape Sample.redMenu [.field "title"] (.string "Menu") ∧
      ∃ t, Sample.menuShape.at? [.field "links", .item 0] = some t ∧ t.Fits (.string "/home") ∧
        Stems Sample.menuShape Sample.redMenu [.field "links", .item 0] (.string "/home") := by
  have hs : Sample.menuShape.WellFormed := by
    refine ⟨by decide, ⟨trivial, ?_⟩, trivial, trivial⟩
    rintro _ ⟨⟩
    trivial
  have hlint : Sample.menuShape.lint [] = .ok () := rfl
  have h : Sample.menuShape.validate false (some Sample.redMenu) = .ok Sample.titledMenu := rfl
  obtain ⟨haccepts, hparts⟩ := validate_conforms hs (.inl hlint) h
  obtain ⟨-, -, -, htitle⟩ := hparts [.field "title"] (.string "Menu") rfl
  exact ⟨hs, hlint, h, haccepts, htitle, hparts [.field "links", .item 0] (.string "/home") rfl⟩

end CatalogUi
