import CatalogUi.Proofs.Write
import Mathlib.Data.List.Perm.Subperm

/-!
Equality of values, which disregards the order of fields. Well-formed values equal themselves; two
objects are equal when they hold equal values under every name, and two sequences when they hold equal
items at every place; so equality of well-formed values is an equivalence. Writing keeps values
well-formed.
-/

namespace CatalogUi

namespace Value

/-- What holds of a value when it holds of the values in it holds of every value. -/
@[elab_as_elim]
theorem induct {motive : Value → Prop} (null : motive .null) (bool : ∀ b, motive (.bool b))
    (number : ∀ n, motive (.number n)) (string : ∀ s, motive (.string s))
    (array : ∀ items : List Value, (∀ v ∈ items, motive v) → motive (.array items))
    (object : ∀ fields : List (String × Value), (∀ field ∈ fields, motive field.2) →
      motive (.object fields)) (v : Value) : motive v :=
  @Value.rec motive (fun items => ∀ v ∈ items, motive v)
    (fun fields => ∀ field ∈ fields, motive field.2) (fun field => motive field.2)
    null bool number string array object
    nofun (fun _ _ hv hrest => List.forall_mem_cons.2 ⟨hv, hrest⟩)
    nofun (fun _ _ hfield hrest => List.forall_mem_cons.2 ⟨hfield, hrest⟩) (fun _ _ h => h) v

/-! ## Well-formed values -/

theorem wellFormedItems_iff {items : List Value} :
    WellFormedItems items ↔ ∀ v ∈ items, v.WellFormed := by
  induction items with
  | nil => simp [WellFormedItems]
  | cons v rest ih => simp [WellFormedItems, ih]

theorem wellFormedFields_iff {fields : List (String × Value)} :
    WellFormedFields fields ↔ ∀ entry ∈ fields, entry.2.WellFormed := by
  induction fields with
  | nil => simp [WellFormedFields]
  | cons entry rest ih => simp [WellFormedFields, ih]

theorem wellFormed_array_iff {items : List Value} :
    (array items).WellFormed ↔ ∀ v ∈ items, v.WellFormed := by
  rw [WellFormed, wellFormedItems_iff]

theorem wellFormed_object_iff {fields : List (String × Value)} :
    (object fields).WellFormed ↔
      Entries.Distinct fields ∧ ∀ entry ∈ fields, entry.2.WellFormed := by
  rw [WellFormed, wellFormedFields_iff]

variable {c : Option Value} {v w : Value} {s : Segment}

theorem wellFormed_some (h : v.WellFormed) : ∀ w ∈ some v, w.WellFormed := by
  rintro _ ⟨⟩
  exact h

theorem WellFormed.child? (h : v.WellFormed) : ∀ w ∈ v.child? s, w.WellFormed := by
  intro w hw
  cases v with
  | object fields => exact (wellFormed_object_iff.1 h).2 _ (Entries.mem_of_get? hw)
  | array items =>
    obtain ⟨i, -, hw⟩ := Option.bind_eq_some_iff.1 hw
    exact wellFormed_array_iff.1 h w (List.mem_of_getElem? hw)
  | null | bool | number | string => cases hw

theorem mem_setItem {items : List Value} {i : Nat} (h : w ∈ setItem items i v) :
    w = v ∨ w = null ∨ w ∈ items := by
  obtain ⟨j, hj⟩ := List.getElem?_of_mem h
  by_cases hji : j = i
  · rw [hji, getElem?_setItem_self] at hj
    exact Or.inl (Option.some.inj hj).symm
  · rw [getElem?_setItem_of_ne v hji] at hj
    split at hj
    · exact Or.inr (Or.inl (Option.some.inj hj).symm)
    · exact Or.inr (Or.inr (List.mem_of_getElem? hj))

theorem WellFormed.withChild (hv : v.WellFormed) (hw : w.WellFormed) :
    (v.withChild s w).WellFormed := by
  cases v with
  | object fields =>
    obtain ⟨hd, hfields⟩ := wellFormed_object_iff.1 hv
    refine wellFormed_object_iff.2 ⟨hd.set s.name w, fun entry hmem => ?_⟩
    rcases Entries.mem_of_mem_set hmem with rfl | hmem
    · exact hw
    · exact hfields entry hmem
  | array items =>
    rw [Value.withChild]
    split
    · refine wellFormed_array_iff.2 fun x hmem => ?_
      rcases mem_setItem hmem with rfl | rfl | hmem
      · exact hw
      · trivial
      · exact wellFormed_array_iff.1 hv x hmem
    · exact hv
  | null | bool | number | string => exact hv

theorem wellFormed_emptyFor (s : Segment) : (emptyFor s).WellFormed := by
  unfold emptyFor
  split
  · trivial
  · exact ⟨List.nodup_nil, trivial⟩

theorem wellFormed_opened (h : ∀ v ∈ c, v.WellFormed) (s : Segment) : (opened c s).WellFormed := by
  rcases vacant_or c with hvacant | ⟨v, rfl, hv⟩
  · rw [opened_of_vacant hvacant]
    exact wellFormed_emptyFor s
  · rw [opened_of_isContainer hv]
    exact h v rfl

theorem wellFormed_look_singleton (h : ∀ v ∈ c, v.WellFormed) :
    ∀ w ∈ look c [s], w.WellFormed := by
  intro w hw
  rw [look_singleton] at hw
  obtain ⟨v, hv, hw⟩ := Option.bind_eq_some_iff.1 hw
  exact (h v hv).child? w hw

theorem wellFormed_look {route : List Segment} (h : ∀ v ∈ c, v.WellFormed) :
    ∀ w ∈ look c route, w.WellFormed := by
  induction route generalizing c with
  | nil =>
    rw [look_nil]
    exact h
  | cons s rest ih =>
    rw [look_cons]
    exact ih (wellFormed_look_singleton h)

theorem WellFormed.read? (h : v.WellFormed) (p : Path) : ∀ w ∈ v.read? p, w.WellFormed :=
  wellFormed_look (wellFormed_some h)

theorem wellFormed_placed {route : List Segment} (h : ∀ v ∈ c, v.WellFormed)
    (hw : w.WellFormed) : (placed c route w).WellFormed := by
  induction route generalizing c with
  | nil => exact hw
  | cons s rest ih =>
    exact (wellFormed_opened h s).withChild (ih (wellFormed_look_singleton h))

/-! ## Equality -/

mutual

theorem same_refl : ∀ v : Value, v.WellFormed → v.same v = true
  | .null, _ => rfl
  | .bool b, _ => by simp [same]
  | .number n, _ => by cases n <;> simp [same, Number.same]
  | .string s, _ => by simp [same]
  | .array items, h => by
    rw [same]
    exact sameItems_refl items h
  | .object fields, h => by
    simp only [same, decide_true, Bool.true_and]
    exact sameFields_of_get? fields fields h.2 fun name v hmem => h.1.get?_of_mem hmem

theorem sameItems_refl : ∀ items : List Value, WellFormedItems items →
    sameItems items items = true
  | [], _ => rfl
  | v :: rest, h => by rw [sameItems, same_refl v h.1, sameItems_refl rest h.2, Bool.and_self]

/-- The induction is on the fields that are looked up, in an object that stays the same. -/
theorem sameFields_of_get? : ∀ fields all : List (String × Value), WellFormedFields fields →
    (∀ name v, (name, v) ∈ fields → Entries.get? all name = some v) →
    sameFields fields all = true
  | [], _, _, _ => rfl
  | (name, v) :: rest, all, h, hall => by
    rw [sameFields, hall name v List.mem_cons_self,
      sameFields_of_get? rest all h.2 fun name' v' hmem =>
        hall name' v' (List.mem_cons_of_mem _ hmem)]
    simp only [same_refl v h.1, Bool.and_self]

end

/-- Equal values, or nothing on both sides. -/
abbrev Alike : Option Value → Option Value → Prop :=
  Option.Rel fun v w => v.same w = true

theorem alike_some_iff : Alike (some v) (some w) ↔ v.same w = true := Option.rel_some_some

theorem Alike.refl (h : ∀ v ∈ c, v.WellFormed) : Alike c c := by
  cases c with
  | none => exact .none
  | some v => exact .some (same_refl v (h v rfl))

theorem Alike.exists_eq_some {b : Option Value} (h : Alike (some v) b) :
    ∃ w, b = some w ∧ v.same w = true := by
  cases h with
  | some hsame => exact ⟨_, rfl, hsame⟩

theorem Alike.isSome_eq {a b : Option Value} (h : Alike a b) : a.isSome = b.isSome := by
  cases h <;> rfl

/-- Equal values are containers of one kind, or no containers. -/
theorem Alike.kinds {a b : Option Value} (h : Alike a b) :
    (Vacant a ∧ Vacant b) ∨
    (∃ fields fields', a = some (object fields) ∧ b = some (object fields')) ∨
    ∃ items items', a = some (array items) ∧ b = some (array items') := by
  have hscalar {v : Value} (hv : ¬ v.IsContainer) : Vacant (some v) := by
    rintro _ ⟨⟩
    exact hv
  cases h with
  | none => exact Or.inl ⟨vacant_none, vacant_none⟩
  | @some v w hsame =>
    cases v with
    | object fields =>
      cases w with
      | object fields' => exact Or.inr (Or.inl ⟨fields, fields', rfl, rfl⟩)
      | null | bool | number | string | array => cases hsame
    | array items =>
      cases w with
      | array items' => exact Or.inr (Or.inr ⟨items, items', rfl, rfl⟩)
      | null | bool | number | string | object => cases hsame
    | null | bool | number | string =>
      cases w with
      | null | bool | number | string => exact Or.inl ⟨hscalar id, hscalar id⟩
      | array | object => cases hsame

/-- Nothing is as good as a null on both sides. -/
theorem Alike.same_getD {a b : Option Value} (h : Alike a b) :
    (a.getD null).same (b.getD null) = true := by
  cases h with
  | none => rfl
  | some hsame => exact hsame

theorem sameItems_iff {a b : List Value} :
    sameItems a b = true ↔ ∀ i : Nat, Alike a[i]? b[i]? := by
  induction a generalizing b with
  | nil =>
    cases b with
    | nil => simp [sameItems]
    | cons w b =>
      simp only [sameItems, Bool.false_eq_true, false_iff]
      exact fun h => nomatch h 0
  | cons v a ih =>
    cases b with
    | nil =>
      simp only [sameItems, Bool.false_eq_true, false_iff]
      exact fun h => nomatch h 0
    | cons w b =>
      rw [sameItems, Bool.and_eq_true, ih]
      constructor
      · rintro ⟨hhead, htail⟩ i
        cases i with
        | zero => exact .some hhead
        | succ i => exact htail i
      · intro h
        exact ⟨alike_some_iff.1 (h 0), fun i => h (i + 1)⟩

theorem same_array_iff {a b : List Value} :
    (array a).same (array b) = true ↔ ∀ i : Nat, Alike a[i]? b[i]? := by
  rw [same, sameItems_iff]

theorem sameFields_cons_iff {name : String} {a b : List (String × Value)} :
    sameFields ((name, v) :: a) b = true ↔
      Alike (some v) (Entries.get? b name) ∧ sameFields a b = true := by
  rw [sameFields, Bool.and_eq_true]
  cases Entries.get? b name with
  | none => simp
  | some w => simp

theorem sameFields_iff {a b : List (String × Value)} :
    sameFields a b = true ↔
      ∀ name v, (name, v) ∈ a → Alike (some v) (Entries.get? b name) := by
  induction a with
  | nil => simp [sameFields]
  | cons entry a ih =>
    obtain ⟨name, v⟩ := entry
    rw [sameFields_cons_iff, ih]
    constructor
    · rintro ⟨h, hrest⟩ name' v' hmem
      rcases List.mem_cons.1 hmem with heq | hmem
      · cases heq
        exact h
      · exact hrest name' v' hmem
    · intro h
      exact ⟨h name v List.mem_cons_self, fun name' v' hmem =>
        h name' v' (List.mem_cons_of_mem _ hmem)⟩

/-- Objects are equal when every name has equal values, or none, in both. -/
theorem same_object_iff {a b : List (String × Value)} (ha : Entries.Distinct a)
    (hb : Entries.Distinct b) :
    (object a).same (object b) = true ↔
      ∀ name, Alike (Entries.get? a name) (Entries.get? b name) := by
  rw [same, Bool.and_eq_true, decide_eq_true_eq, sameFields_iff]
  have hlength (entries : List (String × Value)) :
      (Entries.names entries).length = entries.length := List.length_map _
  constructor
  · rintro ⟨hlen, hfields⟩ name
    cases hget : Entries.get? a name with
    | some v => exact hfields name v (Entries.mem_of_get? hget)
    | none =>
      -- As many names, all of them in the other object: the names are the same.
      have hsub : Entries.names a ⊆ Entries.names b := by
        intro name hname
        obtain ⟨v, hv⟩ := Entries.mem_names_iff.1 hname
        cases hget' : Entries.get? b name with
        | none =>
          have halike := hfields name v (Entries.mem_of_get? hv)
          rw [hget'] at halike
          cases halike
        | some w => exact Entries.mem_names_iff.2 ⟨w, hget'⟩
      have hperm : (Entries.names a).Perm (Entries.names b) := by
        apply (List.Nodup.subperm ha hsub).perm_of_length_le
        rw [hlength, hlength, hlen]
      cases hget' : Entries.get? b name with
      | none => exact .none
      | some w =>
        obtain ⟨v, hv⟩ := Entries.mem_names_iff.1
          (hperm.mem_iff.2 (Entries.mem_names_iff.2 ⟨w, hget'⟩))
        cases hget.symm.trans hv
  · intro h
    have hnames (name : String) : name ∈ Entries.names a ↔ name ∈ Entries.names b := by
      rw [← Entries.has_iff_mem_names, ← Entries.has_iff_mem_names, Entries.has, Entries.has,
        (h name).isSome_eq]
    refine ⟨?_, fun name v hmem => ?_⟩
    · rw [← hlength a, ← hlength b]
      exact ((List.perm_ext_iff_of_nodup ha hb).2 hnames).length_eq
    · rw [← ha.get?_of_mem hmem]
      exact h name

/-! ## Equality backwards, and one after the other -/

theorem Alike.flip {a b : Option Value} (h : Alike a b)
    (hflip : ∀ v ∈ a, ∀ w ∈ b, v.same w = true → w.same v = true) : Alike b a := by
  cases h with
  | none => exact .none
  | some hsame => exact .some (hflip _ rfl _ rfl hsame)

theorem Alike.follow {a b c : Option Value} (h : Alike a b) (h' : Alike b c)
    (hfollow : ∀ v ∈ a, ∀ w x, v.same w = true → w.same x = true → v.same x = true) :
    Alike a c := by
  cases h with
  | none => exact h'
  | some hsame =>
    cases h' with
    | some hsame' => exact .some (hfollow _ rfl _ _ hsame hsame')

theorem same_symm (hv : v.WellFormed) (hw : w.WellFormed) (h : v.same w = true) :
    w.same v = true := by
  induction v using Value.induct generalizing w with
  | null | bool | string => cases w <;> simp_all [same]
  | number m =>
    cases w with
    | number n => cases m <;> cases n <;> simp_all [same, Number.same]
    | _ => cases h
  | array items ih =>
    cases w with
    | array items' =>
      rw [same_array_iff] at h ⊢
      refine fun i => (h i).flip fun x hx y hy => ?_
      have hx := List.mem_of_getElem? hx
      exact ih x hx (wellFormed_array_iff.1 hv x hx)
        (wellFormed_array_iff.1 hw y (List.mem_of_getElem? hy))
    | _ => cases h
  | object fields ih =>
    cases w with
    | object fields' =>
      obtain ⟨hd, hfields⟩ := wellFormed_object_iff.1 hv
      obtain ⟨hd', hfields'⟩ := wellFormed_object_iff.1 hw
      rw [same_object_iff hd hd'] at h
      rw [same_object_iff hd' hd]
      refine fun name => (h name).flip fun x hx y hy => ?_
      have hx := Entries.mem_of_get? hx
      exact ih _ hx (hfields _ hx) (hfields' _ (Entries.mem_of_get? hy))
    | _ => cases h

/-- What equals something that equals a third value equals that, also if one of them has a field
twice. -/
theorem same_trans {x : Value} (h : v.same w = true) (h' : w.same x = true) :
    v.same x = true := by
  induction v using Value.induct generalizing w x with
  | null | bool | string => cases w <;> cases x <;> simp_all [same]
  | number m =>
    cases w with
    | number n =>
      cases x with
      | number o => cases m <;> cases n <;> cases o <;> simp_all [same, Number.same]
      | _ => cases h'
    | _ => cases h
  | array items ih =>
    cases w with
    | array items' =>
      cases x with
      | array items'' =>
        rw [same_array_iff] at h h' ⊢
        exact fun i => (h i).follow (h' i) fun y hy _ _ => ih y (List.mem_of_getElem? hy)
      | _ => cases h'
    | _ => cases h
  | object fields ih =>
    cases w with
    | object fields' =>
      cases x with
      | object fields'' =>
        rw [same, Bool.and_eq_true, decide_eq_true_eq, sameFields_iff] at h h' ⊢
        refine ⟨h.1.trans h'.1, fun name y hy => ?_⟩
        obtain ⟨z, hz, hsame⟩ := (h.2 name y hy).exists_eq_some
        refine (alike_some_iff.2 hsame).follow (h'.2 name z (Entries.mem_of_get? hz)) ?_
        rintro _ ⟨⟩ _ _
        exact ih _ hy
      | _ => cases h'
    | _ => cases h

/-- Well-formed values that are equal are equal to the same values. -/
theorem same_eq_of_same (hv : v.WellFormed) (hw : w.WellFormed) (h : v.same w = true) (x : Value) :
    v.same x = w.same x :=
  Bool.eq_iff_iff.2 ⟨same_trans (same_symm hv hw h), same_trans h⟩

end Value

end CatalogUi
