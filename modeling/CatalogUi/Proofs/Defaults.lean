import CatalogUi.Proofs.Absence

/-!
Checking what a check gave. It is accepted again, strictly or not, but it need not stay as it is:
defaults are put in place as they are declared, and a default may itself leave out fields that have
defaults. The values that a shape gives stay as they are just when every default that can be put in
place does.
-/

namespace CatalogUi

namespace Schema

/-- A check gives for the value the value itself, up to the order of fields. -/
def Keeps (strict : Bool) (s : Schema) (v : Value) : Prop :=
  ∃ w, s.Gives strict (some v) (some w) ∧ w.same v = true

mutual

/-- Whatever can be put in the place of an absent field is kept when it is checked itself. -/
def Settled : Schema → Prop
  | .array items => Settled items
  | .object fields => SettledFields fields
  | .optional inner _ => Settled inner
  | .nullable inner => Settled inner
  | _ => True

def SettledFields : List (String × Schema) → Prop
  | [] => True
  | (_, s) :: rest => (Settled s ∧ ∀ d ∈ s.standIn?, s.Keeps true d) ∧ SettledFields rest

end

/-- A declared field is settled: its shape is, and what stands in for it is kept. -/
def SettledField (s : Schema) : Prop :=
  s.Settled ∧ ∀ d ∈ s.standIn?, s.Keeps true d

variable {strict strict' : Bool} {s inner items : Schema} {fields : List (String × Schema)}
  {value r r' : Option Value} {v w : Value}

theorem settled_object_iff : (object fields).Settled ↔ ∀ field ∈ fields, field.2.SettledField := by
  rw [Settled]
  induction fields with
  | nil => simp [SettledFields]
  | cons field rest ih => rw [SettledFields, ih, List.forall_mem_cons, SettledField]

theorem IsPlain.settled (hs : s.IsPlain) : s.Settled := by
  cases s <;> first | exact hs.elim | trivial

theorem Gives.unique (h : s.Gives strict value r) (h' : s.Gives strict value r') : r = r' :=
  Except.ok.inj (h.symm.trans h')

theorem Accepts.gives_iff (hw : s.WellFormed) (h : s.Accepts true v) :
    s.Gives strict (some v) r ↔ s.Gives true (some v) r := by
  cases strict with
  | true => exact Iff.rfl
  | false =>
    obtain ⟨w, hw'⟩ := h
    refine ⟨fun hr => ?_, Gives.lenient hw⟩
    rwa [hr.unique (hw'.lenient hw)]

theorem Takes.same_self (h : s.Takes v) : v.same v = true := by
  cases v with
  | array | object => cases s <;> exact h.elim
  | number n => cases n <;> simp [Value.same, Number.same]
  | null | bool | string => simp [Value.same]

/-! ## Checking again -/

/-- Results of an object are equal when they are at every declared field. -/
theorem same_of_gives_object (hd : Entries.Distinct fields) {out out' : List (String × Value)}
    {value' : Option Value}
    (h : (object fields).Gives strict value (some (.object out)))
    (h' : (object fields).Gives strict' value' (some (.object out')))
    (halike : ∀ field ∈ fields,
      Value.Alike (Entries.get? out field.1) (Entries.get? out' field.1)) :
    (Value.object out).same (.object out') = true := by
  obtain ⟨hdistinct, hnames⟩ := names_of_gives_object hd h
  obtain ⟨hdistinct', hnames'⟩ := names_of_gives_object hd h'
  refine (Value.same_object_iff hdistinct hdistinct').2 fun name => ?_
  by_cases hname : name ∈ Entries.names fields
  · obtain ⟨field, hmem, rfl⟩ := List.mem_map.1 hname
    exact halike field hmem
  · rw [Entries.get?_eq_none_iff.2 fun h => hname (hnames h),
      Entries.get?_eq_none_iff.2 fun h => hname (hnames' h)]
    exact .none

/-- What is given for a field is accepted again, and kept if the field is settled, provided that
this is so for what is given for present values. -/
theorem Gives.again_of_some (hs : s.Sound) (hw : s.WellFormed)
    (hsome : ∀ v w, s.Gives strict (some v) (some w) →
      ∃ w', s.Gives strict' (some w) (some w') ∧ (s.Settled → w'.same w = true))
    (h : s.Gives strict value r) :
    ∃ r', s.Gives strict' r r' ∧ (s.SettledField → Value.Alike r' r) := by
  cases value with
  | some v =>
    obtain ⟨w, rfl⟩ := h.exists_some
    obtain ⟨w', hw', hkept⟩ := hsome v w h
    exact ⟨some w', hw', fun hsettled => .some (hkept hsettled.1)⟩
  | none =>
    obtain ⟨hoptional, rfl⟩ := gives_none_iff.1 h
    cases hd : s.standIn? with
    | none => exact ⟨none, gives_none_iff.2 ⟨hoptional, hd.symm⟩, fun _ => .none⟩
    | some d =>
      have haccepts := hs.accepts_standIn hd
      have ⟨w', hw'⟩ := haccepts
      refine ⟨some w', (haccepts.gives_iff hw).2 hw', fun hsettled => ?_⟩
      obtain ⟨d', hd', hsame⟩ := hsettled.2 d hd
      cases hw'.unique hd'
      exact .some hsame

theorem exists_forall₂_again {R S : Value → Value → Prop} {Q : Prop} {given out : List Value}
    (h : List.Forall₂ R given out)
    (hstep : ∀ v w, R v w → ∃ w', S w w' ∧ (Q → w'.same w = true)) :
    ∃ out', List.Forall₂ S out out' ∧ (Q → Value.sameItems out' out = true) := by
  induction h with
  | nil => exact ⟨[], .nil, fun _ => rfl⟩
  | cons hitem _ ih =>
    obtain ⟨w', hw', hkept⟩ := hstep _ _ hitem
    obtain ⟨out', hout', hkept'⟩ := ih
    refine ⟨w' :: out', .cons hw' hout', fun hq => ?_⟩
    rw [Value.sameItems, hkept hq, hkept' hq, Bool.and_self]

/-- What is given for a value is accepted again, and kept if the shape is settled. -/
theorem Gives.again (hs : s.Sound) (hw : s.WellFormed) (h : s.Gives strict (some v) (some w)) :
    ∃ w', s.Gives strict' (some w) (some w') ∧ (s.Settled → w'.same w = true) := by
  induction s using Schema.induct generalizing v w with
  | plain s hplain =>
    obtain ⟨_, heq, htakes, hr⟩ := (gives_plain hplain).1 h
    cases heq
    cases hr
    exact ⟨v, (gives_plain hplain).2 ⟨v, rfl, htakes, rfl⟩, fun _ => htakes.same_self⟩
  | array items ih =>
    obtain ⟨given, out, hv, hr, hitems⟩ := gives_array.1 h
    cases hv
    cases hr
    obtain ⟨out', hitems', hkept⟩ := exists_forall₂_again hitems fun v w => ih hs hw
    refine ⟨.array out', gives_array.2 ⟨out, out', rfl, rfl, hitems'⟩, fun hsettled => ?_⟩
    rw [Value.same]
    exact hkept hsettled
  | object fields ih =>
    obtain ⟨hd, hfields⟩ := wellFormed_object_iff.1 hw
    rw [sound_object_iff] at hs
    obtain ⟨given, out, hv, hr, -, -, hgives⟩ := (gives_object hd).1 h
    cases hv
    cases hr
    have hallows : Allows strict' fields out := fun _ => (names_of_gives_object hd h).2
    obtain ⟨out', hout', hagain⟩ := exists_gives_object hd hallows fun field hmem =>
      (hgives field hmem).again_of_some (hs field hmem) (hfields field hmem) fun v w =>
        ih field hmem (hs field hmem) (hfields field hmem)
    refine ⟨.object out', hout', fun hsettled => ?_⟩
    rw [settled_object_iff] at hsettled
    exact same_of_gives_object hd hout' h fun field hmem => hagain field hmem (hsettled field hmem)
  | optional inner default ih => exact ih hs.1 hw.1 h
  | nullable inner ih =>
    by_cases hnull : w = .null
    · subst hnull
      exact ⟨.null, gives_nullable_null.2 rfl, fun _ => rfl⟩
    · have hv : v ≠ .null := by
        rintro rfl
        exact hnull (Option.some.inj (gives_nullable_null.1 h))
      obtain ⟨w', hw', hkept⟩ := ih hs hw ((gives_nullable_some hv).1 h)
      exact ⟨w', (gives_nullable_some hnull).2 hw', hkept⟩

/-! ## Settled shapes -/

/-- What a check gives for a value, the same check keeps. -/
def Stable (strict : Bool) (s : Schema) : Prop :=
  ∀ v w : Value, v.WellFormed → s.Gives strict (some v) (some w) → s.Keeps strict w

/-- A null is given for a null and for nothing else. -/
theorem Gives.null_iff (hw : s.WellFormed) (h : s.Gives strict (some v) (some w)) :
    w = .null ↔ v = .null := by
  induction s using Schema.induct generalizing v w with
  | plain s hplain =>
    obtain ⟨_, heq, -, hr⟩ := (gives_plain hplain).1 h
    cases heq
    cases hr
    exact Iff.rfl
  | array items =>
    obtain ⟨given, out, hv, hr, -⟩ := gives_array.1 h
    cases hv
    cases hr
    exact iff_of_false nofun nofun
  | object fields =>
    obtain ⟨given, out, hv, hr, -⟩ := (gives_object (wellFormed_object_iff.1 hw).1).1 h
    cases hv
    cases hr
    exact iff_of_false nofun nofun
  | optional inner default ih => exact ih hw.1 h
  | nullable inner ih =>
    by_cases hv : v = .null
    · subst hv
      exact iff_of_true (Option.some.inj (gives_nullable_null.1 h)) rfl
    · exact ih hw ((gives_nullable_some hv).1 h)

/-- An object of a stable shape holds under each declared name something that is kept. The other
declared fields can be given values, since with finite bounds their shapes accept some. -/
theorem Stable.of_field (h : (object fields).Stable strict) (hs : (object fields).Sound)
    (hb : (object fields).EveryBound Bound.IsFinite) (hw : (object fields).WellFormed)
    {field : String × Schema} (hmem : field ∈ fields) (hvalue : ∀ v ∈ value, v.WellFormed)
    (hgives : field.2.Gives strict value r) :
    ∃ r', field.2.Gives strict r r' ∧ Value.Alike r' r := by
  rw [sound_object_iff] at hs
  rw [everyBound_object_iff] at hb
  obtain ⟨hd, hfields⟩ := wellFormed_object_iff.1 hw
  have hsample (other : String × Schema) (hother : other ∈ fields) :
      ∃ v : Value, v.WellFormed ∧ ∃ w, other.2.Gives strict (some v) (some w) := by
    obtain ⟨v, hv, haccepts⟩ :=
      (hs other hother).exists_accepts (hb other hother) (hfields other hother)
    exact ⟨v, hv, haccepts.lenient (hfields other hother) strict⟩
  obtain ⟨sample, hsample, hall⟩ := hd.exists_by_name hsample
  let given (name : String) : Option Value := if name = field.1 then value else sample name
  have hgiven : ∀ other ∈ fields, ∃ r', other.2.Gives strict (given other.1) r' ∧
      (other.1 = field.1 → r' = r) := by
    intro other hother
    by_cases hname : other.1 = field.1
    · have heq : other.2 = field.2 := hd.eq_of_mem hother hmem hname
      refine ⟨r, ?_, fun _ => rfl⟩
      rw [show given other.1 = value from if_pos hname, heq]
      exact hgives
    · obtain ⟨v, hv, -, w, hw'⟩ := hsample other hother
      refine ⟨some w, ?_, fun h => absurd h hname⟩
      rw [show given other.1 = sample other.1 from if_neg hname, hv]
      exact hw'
  obtain ⟨out, hout, hr⟩ := exists_gives_arrange hd hgiven
  have hwell : (Value.object (Entries.arrange (Entries.names fields) given)).WellFormed := by
    refine wellFormed_arrange hd fun name v hv => ?_
    by_cases hname : name = field.1
    · exact hvalue v (by rwa [show given name = value from if_pos hname] at hv)
    · rw [show given name = sample name from if_neg hname] at hv
      obtain ⟨-, -, hv, -⟩ := hall name v hv
      exact hv
  obtain ⟨kept, hkept, hsame⟩ := h _ _ hwell hout
  obtain ⟨_, out', heq, heq', -, -, hfield⟩ := (gives_object hd).1 hkept
  cases heq
  cases heq'
  have halike := (Value.same_object_iff (names_of_gives_object hd hkept).1
    (names_of_gives_object hd hout).1).1 hsame field.1
  have hfield := hfield field hmem
  rw [hr field hmem rfl] at halike hfield
  exact ⟨_, hfield, halike⟩

/-- In a stable shape with finite bounds, every default that can be put in place is kept. A bound
that no number reaches can keep a shape from accepting anything, and then it is stable whatever its
defaults are. -/
theorem Stable.settled (h : s.Stable strict) (hs : s.Sound) (hb : s.EveryBound Bound.IsFinite)
    (hw : s.WellFormed) : s.Settled := by
  induction s using Schema.induct with
  | plain s hplain => exact hplain.settled
  | array items ih =>
    refine ih (fun v w hv hgives => ?_) hs hb hw
    have hwell : (Value.array [v]).WellFormed := ⟨hv, trivial⟩
    obtain ⟨kept, hkept, hsame⟩ := h (.array [v]) (.array [w]) hwell
      (gives_array.2 ⟨[v], [w], rfl, rfl, .cons hgives .nil⟩)
    obtain ⟨_, out, heq, heq', hitems⟩ := gives_array.1 hkept
    cases heq
    cases heq'
    obtain ⟨w', _, hw', htail, rfl⟩ := List.forall₂_cons_left_iff.1 hitems
    exact ⟨w', hw', Value.alike_some_iff.1 (Value.same_array_iff.1 hsame 0)⟩
  | object fields ih =>
    refine settled_object_iff.2 fun field hmem => ?_
    have hsound := sound_object_iff.1 hs field hmem
    have hbounds := everyBound_object_iff.1 hb field hmem
    have hwell := (wellFormed_object_iff.1 hw).2 field hmem
    refine ⟨ih field hmem (fun v w hv hgives => ?present) hsound hbounds hwell,
      fun d hd => ?absent⟩
    case present =>
      obtain ⟨r', hr', halike⟩ := h.of_field hs hb hw hmem (Value.wellFormed_some hv) hgives
      cases halike with
      | some hsame => exact ⟨_, hr', hsame⟩
    case absent =>
      have hnone : ∀ v ∈ (none : Option Value), v.WellFormed := fun _ h => nomatch h
      obtain ⟨r', hr', halike⟩ := h.of_field hs hb hw hmem hnone
        (gives_none_iff.2 ⟨isOptional_of_standIn? hd, hd.symm⟩)
      cases halike with
      | some hsame => exact ⟨_, ((hsound.accepts_standIn hd).gives_iff hwell).1 hr', hsame⟩
  | optional inner default ih => exact ih h hs.1 hb hw.1
  | nullable inner ih =>
    have hinner : inner.WellFormed := hw
    refine ih (fun v w hv hgives => ?_) hs hb hw
    by_cases hnull : v = .null
    · subst hnull
      cases (hgives.null_iff hinner).2 rfl
      exact ⟨.null, hgives, rfl⟩
    · obtain ⟨w', hw', hsame⟩ := h v w hv ((gives_nullable_some hnull).2 hgives)
      have hne : w ≠ .null := fun heq => hnull ((hgives.null_iff hinner).1 heq)
      exact ⟨w', (gives_nullable_some hne).1 hw', hsame⟩

/-- In a settled shape, what a check gives the same check keeps. -/
theorem Settled.keeps (h : s.Settled) (hs : s.Sound) (hw : s.WellFormed)
    (hgives : s.Gives strict (some v) (some w)) : s.Keeps strict w := by
  obtain ⟨w', hw', hkept⟩ := hgives.again hs hw
  exact ⟨w', hw', hkept h⟩

end Schema

/-! ## Catalogs -/

/-- In a catalog, what a check gives is accepted again by every check. It is kept by the same check
when the shape is settled, and where bounds are finite only then. -/
theorem Catalog.validate_stable_iff {components : List ComponentSpec} {actions : List ActionSpec}
    {c : Catalog} (hc : create components actions = .ok c) (hw : c.WellFormed) {s : Schema}
    (hs : s ∈ c.shapes) (strict : Bool) :
    (∀ v w strict', s.validate strict (some v) = .ok w →
      ∃ w', s.validate strict' (some w) = .ok w') ∧
    (s.Settled → ∀ v w, s.validate strict (some v) = .ok w →
      ∃ w', s.validate strict (some w) = .ok w' ∧ w'.same w = true) ∧
    (s.EveryBound Bound.IsFinite →
      ((∀ v w, v.WellFormed → s.validate strict (some v) = .ok w →
        ∃ w', s.validate strict (some w) = .ok w' ∧ w'.same w = true) ↔ s.Settled)) := by
  have hsound : s.Sound := (create_ok_iff.1 hc).2.shapes_sound s hs
  simp only [Schema.validate_ok_iff]
  refine ⟨fun v w strict' h => ?again, fun h v w => h.keeps hsound (hw s hs), fun hb => ?converse⟩
  case again => exact (h.again hsound (hw s hs)).imp fun _ hagain => hagain.1
  case converse =>
    exact ⟨fun h => Schema.Stable.settled h hsound hb (hw s hs),
      fun h v w _ => h.keeps hsound (hw s hs)⟩

namespace Sample

/-- A panel that takes a frame and the width of the frame, both of which may be left out. -/
def panel (frame : Value) : ComponentSpec where
  name := "Panel"
  props :=
    let width := .optional .anyNumber (some (.number (.int 2)))
    .object [("frame", .optional (.object [("width", width)]) (some frame))]
  acceptsChildren := false

def panels (frame : Value) : Catalog := ⟨[panel frame], []⟩

/-- The frame that an empty one becomes. -/
def wideFrame : Value := .object [("width", .number (.int 2))]

theorem wellFormed_panels (frame : Value) (h : frame.WellFormed) : (panels frame).WellFormed := by
  intro s hs
  cases List.mem_singleton.1 hs
  refine ⟨List.nodup_singleton _, ⟨⟨List.nodup_singleton _, ⟨trivial, ?_⟩, trivial⟩, ?_⟩, trivial⟩
  · rintro _ ⟨⟩
    exact ⟨by decide, by decide⟩
  · rintro _ ⟨⟩
    exact h

theorem wellFormed_wideFrame : wideFrame.WellFormed :=
  ⟨List.nodup_singleton _, ⟨by decide, by decide⟩, trivial⟩

end Sample

/-- With the full frame as a default, props stay as they are once they have been checked. -/
theorem Catalog.validate_stable_panels :
    let c := Sample.panels Sample.wideFrame
    Catalog.create c.components c.actions = .ok c ∧ c.WellFormed ∧
      (Sample.panel Sample.wideFrame).props ∈ c.shapes ∧
      ∀ v w, v.WellFormed → (Sample.panel Sample.wideFrame).props.validate true (some v) = .ok w →
        ∃ w', (Sample.panel Sample.wideFrame).props.validate true (some w) = .ok w' ∧
          w'.same w = true := by
  have hc : Catalog.create [Sample.panel Sample.wideFrame] [] =
    .ok (Sample.panels Sample.wideFrame) := rfl
  have hw := Sample.wellFormed_panels _ Sample.wellFormed_wideFrame
  have hmem : (Sample.panel Sample.wideFrame).props ∈ (Sample.panels Sample.wideFrame).shapes :=
    List.mem_singleton_self _
  have hbounds : (Sample.panel Sample.wideFrame).props.EveryBound Bound.IsFinite :=
    ⟨⟨⟨nofun, nofun⟩, trivial⟩, trivial⟩
  refine ⟨hc, hw, hmem, ((validate_stable_iff hc hw hmem true).2.2 hbounds).2 ?_⟩
  refine Schema.settled_object_iff.2 (List.forall_mem_singleton.2 ⟨?_, ?_⟩)
  · refine Schema.settled_object_iff.2 (List.forall_mem_singleton.2 ⟨trivial, ?_⟩)
    rintro _ ⟨⟩
    exact ⟨_, rfl, rfl⟩
  · rintro _ ⟨⟩
    exact ⟨_, rfl, rfl⟩

/-- With an empty frame as a default, props that have been checked may change when they are checked
again: the frame is put in place without its width. -/
theorem Catalog.not_validate_stable_panels :
    ¬ ∀ (components : List ComponentSpec) (actions : List ActionSpec) (c : Catalog),
      Catalog.create components actions = .ok c → c.WellFormed → ∀ s ∈ c.shapes, ∀ strict v w,
        v.WellFormed → s.validate strict (some v) = .ok w →
          ∃ w', s.validate strict (some w) = .ok w' ∧ w'.same w = true := by
  intro h
  have hempty : (Value.object []).WellFormed := ⟨List.nodup_nil, trivial⟩
  have hc : Catalog.create [Sample.panel (.object [])] [] = .ok (Sample.panels (.object [])) := rfl
  obtain ⟨w', hw', hsame⟩ := h _ _ _ hc (Sample.wellFormed_panels _ hempty) _
    (List.mem_singleton_self _) true (.object []) (.object [("frame", .object [])]) hempty rfl
  have hwide : (Sample.panel (.object [])).props.validate true
      (some (.object [("frame", .object [])])) = .ok (.object [("frame", Sample.wideFrame)]) := rfl
  cases hw'.symm.trans hwide
  cases hsame

end CatalogUi
