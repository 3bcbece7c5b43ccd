import CatalogUi.Proofs.Frame
import CatalogUi.Proofs.Series

/-!
Two writes at disjoint paths, in either order. Where the paths part, the first write decides whether
there is an object or a sequence from then on, and how long the sequence is; the second write may be
let through by that, or refused. But for such a clash, the order of the writes does not matter.
-/

namespace CatalogUi

namespace Value

/-- How many items there are, in a sequence or in what would give way to one. -/
def itemCount : Option Value → Nat
  | some (.array items) => items.length
  | _ => 0

/-- No container is there yet, and the segments ask for different ones; or both are places of a
sequence, and only one of them is within reach. -/
def Clash (c : Option Value) (s t : Segment) : Prop :=
  (Vacant c ∧ s.index?.isSome ≠ t.index?.isSome) ∨
  ∃ i j, s.index? = some i ∧ t.index? = some j ∧ (∀ fields, c ≠ some (.object fields)) ∧
    ¬ (i ≤ itemCount c + maxPadding ↔ j ≤ itemCount c + maxPadding)

/-- A step that can be taken after something was written at another segment, whatever that was. -/
def TakesAfter (c : Option Value) (s t : Segment) : Prop :=
  ((opened c s).withChild s .null).Takes t

variable {c : Option Value} {s t : Segment} {route rest more : List Segment} {v w : Value}

theorem Clash.symm (h : Clash c s t) : Clash c t s := by
  rcases h with ⟨hvacant, hkinds⟩ | ⟨i, j, hi, hj, hobject, hreach⟩
  · exact Or.inl ⟨hvacant, hkinds.symm⟩
  · exact Or.inr ⟨j, i, hj, hi, hobject, fun h => hreach h.symm⟩

theorem takesAfter_iff : ((opened c s).withChild s v).Takes t ↔ TakesAfter c s t := by
  unfold TakesAfter
  cases opened c s with
  | object => exact Iff.rfl
  | array items =>
    cases hi : s.index? with
    | none => simp only [withChild, hi]
    | some i => simp only [withChild, hi, Takes, length_setItem]
  | null | bool | number | string => exact Iff.rfl

theorem itemCount_of_vacant (h : Vacant c) : itemCount c = 0 := by
  cases c with
  | none => rfl
  | some v =>
    cases v with
    | array => exact (h _ rfl trivial).elim
    | object | null | bool | number | string => rfl

theorem ne_object_of_vacant (h : Vacant c) (fields : List (String × Value)) :
    c ≠ some (.object fields) := by
  rintro rfl
  exact h _ rfl trivial

/-! ## One step of each -/

/-- A number opens a sequence, where there is no object. -/
theorem opened_of_index? {i : Nat} (hi : s.index? = some i)
    (hobject : ∀ fields, c ≠ some (.object fields)) :
    ∃ items, opened c s = .array items ∧ items.length = itemCount c := by
  rcases vacant_or c with hvacant | ⟨w, rfl, hw⟩
  · rw [opened_of_vacant hvacant, itemCount_of_vacant hvacant, emptyFor, hi]
    exact ⟨[], rfl, rfl⟩
  · cases w with
    | object fields => exact (hobject fields rfl).elim
    | array items => exact ⟨items, rfl, rfl⟩
    | null | bool | number | string => exact hw.elim

theorem takes_of_index? {i : Nat} (hi : s.index? = some i)
    (hobject : ∀ fields, c ≠ some (.object fields)) :
    (opened c s).Takes s ↔ i ≤ itemCount c + maxPadding := by
  obtain ⟨items, hopened, hcount⟩ := opened_of_index? hi hobject
  rw [hopened, ← hcount]
  simp [Takes, hi]

theorem takesAfter_of_index? {i j : Nat} (hi : s.index? = some i) (hj : t.index? = some j)
    (hobject : ∀ fields, c ≠ some (.object fields)) :
    TakesAfter c s t ↔ j ≤ max (itemCount c) (i + 1) + maxPadding := by
  obtain ⟨items, hopened, hcount⟩ := opened_of_index? hi hobject
  rw [TakesAfter, hopened, ← hcount]
  simp [withChild, Takes, hi, hj, length_setItem]

theorem not_takes_of_name {items : List Value} (hi : s.index? = none) :
    ¬ (array items).Takes s := by
  rintro ⟨i, hsome, -⟩
  cases hi.symm.trans hsome

/-- A name asks for an object, which takes every step. -/
theorem takes_of_name (hvacant : Vacant c) (hi : s.index? = none) :
    (opened c s).Takes s ∧ TakesAfter c s t := by
  unfold TakesAfter
  rw [opened_of_vacant hvacant, emptyFor, hi]
  exact ⟨trivial, trivial⟩

/-- After a place of a sequence, no name is taken. -/
theorem not_takesAfter_of_name {i : Nat} (hi : s.index? = some i) (hj : t.index? = none)
    (hobject : ∀ fields, c ≠ some (.object fields)) : ¬ TakesAfter c s t := by
  obtain ⟨items, hopened, -⟩ := opened_of_index? hi hobject
  rw [TakesAfter, hopened]
  simp only [withChild, hi]
  exact not_takes_of_name hj

/-- How a step can be taken. -/
theorem takes_cases (h : (opened c s).Takes s) :
    (∃ fields, c = some (.object fields)) ∨ (Vacant c ∧ s.index? = none) ∨
    ∃ i, s.index? = some i ∧ i ≤ itemCount c + maxPadding ∧
      ∀ fields, c ≠ some (.object fields) := by
  by_cases hobject : ∃ fields, c = some (.object fields)
  · exact Or.inl hobject
  · rw [not_exists] at hobject
    cases hi : s.index? with
    | some i => exact Or.inr (Or.inr ⟨i, rfl, (takes_of_index? hi hobject).1 h, hobject⟩)
    | none =>
      rcases vacant_or c with hvacant | ⟨w, rfl, hw⟩
      · exact Or.inr (Or.inl ⟨hvacant, rfl⟩)
      · cases w with
        | object fields => exact (hobject fields rfl).elim
        | array items => exact (not_takes_of_name hi h).elim
        | null | bool | number | string => exact hw.elim

/-! ## One step after the other -/

/-- But for a clash, a step is taken after another one if it is taken at all. -/
theorem takesAfter_iff_of_not_clash (hclash : ¬ Clash c s t) (hs : (opened c s).Takes s) :
    TakesAfter c s t ↔ (opened c t).Takes t := by
  rcases takes_cases hs with ⟨fields, rfl⟩ | ⟨hvacant, hi⟩ | ⟨i, hi, hle, hobject⟩
  · exact iff_of_true trivial trivial
  · cases hj : t.index? with
    | none => exact iff_of_true (takes_of_name hvacant hi).2 (takes_of_name (t := s) hvacant hj).1
    | some j => exact (hclash (Or.inl ⟨hvacant, by simp [hi, hj]⟩)).elim
  · cases hj : t.index? with
    | none =>
      refine iff_of_false (not_takesAfter_of_name hi hj hobject) fun ht => ?_
      rcases takes_cases ht with ⟨fields, hfields⟩ | ⟨hvacant, -⟩ | ⟨j, hsome, -⟩
      · exact hobject fields hfields
      · exact hclash (Or.inl ⟨hvacant, by simp [hi, hj]⟩)
      · cases hj.symm.trans hsome
    | some j =>
      have hreach : i ≤ itemCount c + maxPadding ↔ j ≤ itemCount c + maxPadding := by
        by_contra hreach
        exact hclash (Or.inr ⟨i, j, hi, hj, hobject, hreach⟩)
      rw [takesAfter_of_index? hi hj hobject, takes_of_index? hj hobject]
      omega

/-- In a clash, the steps cannot be taken in both orders. -/
theorem not_takesAfter_of_clash (hclash : Clash c s t) (hs : (opened c s).Takes s)
    (ht : (opened c t).Takes t) (hst : TakesAfter c s t) : ¬ TakesAfter c t s := by
  rcases hclash with ⟨hvacant, hkinds⟩ | ⟨i, j, hi, hj, hobject, hreach⟩
  · have hobject := ne_object_of_vacant hvacant
    cases hi : s.index? with
    | none =>
      cases hj : t.index? with
      | none => exact (hkinds (by rw [hi, hj])).elim
      | some j => exact not_takesAfter_of_name hj hi hobject
    | some i =>
      cases hj : t.index? with
      | none => exact (not_takesAfter_of_name hi hj hobject hst).elim
      | some j => exact (hkinds (by rw [hi, hj]; rfl)).elim
  · rw [takes_of_index? hi hobject] at hs
    rw [takes_of_index? hj hobject] at ht
    exact (hreach (iff_of_true hs ht)).elim

/-- Two steps that can be taken can be taken one after the other. -/
theorem takesAfter_or (hs : (opened c s).Takes s) (ht : (opened c t).Takes t) :
    TakesAfter c s t ∨ TakesAfter c t s := by
  rcases takes_cases hs with ⟨fields, rfl⟩ | ⟨hvacant, hi⟩ | ⟨i, hi, -, hobject⟩
  · exact Or.inl trivial
  · exact Or.inl (takes_of_name hvacant hi).2
  · rcases takes_cases ht with ⟨fields, hfields⟩ | ⟨hvacant, hj⟩ | ⟨j, hj, hle, -⟩
    · exact (hobject fields hfields).elim
    · exact Or.inr (takes_of_name hvacant hj).2
    · left
      rw [takesAfter_of_index? hi hj hobject]
      omega

/-! ## One route after the other -/

/-- Behind the step, a route can be written after the other one if it can be written at all. -/
theorem writable_look_placed (hne : t ≠ s) :
    Writable (look (some (placed c (s :: rest) v)) [t]) more ↔ Writable (look c [t]) more := by
  by_cases hpads : (opened c s).Pads s t
  · obtain ⟨hnull, hnone⟩ := look_placed_of_pads hpads rest [] v
    rw [hnull, hnone, look_nil]
    exact writable_of_vacant vacant_null
  · rw [look_placed_of_not_pads hne hpads]

theorem writable_placed_iff {common : List Segment} (hne : t ≠ s)
    (h : Writable c (common ++ s :: rest)) :
    Writable (some (placed c (common ++ s :: rest) v)) (common ++ t :: more) ↔
      TakesAfter (look c common) s t ∧ Writable (look (look c common) [t]) more := by
  have hcommon := (writable_append.1 h).1
  have hcut : look (some (placed c (common ++ s :: rest) v)) common =
      some (placed (look c common) (s :: rest) v) := by
    rw [placed_append, look_placed hcommon]
  have hwritable : Writable (some (placed c (common ++ s :: rest) v)) common :=
    writable_of_look hcut
  rw [writable_append, and_iff_right hwritable, hcut, Writable, writable_look_placed hne,
    opened_placed, placed, takesAfter_iff]

end Value

namespace Store

variable {σ : Type} {s : Store σ} {p q : Path} {v w : Value}

/-- Whether a write goes through, and the store after it. A write that is refused does nothing. -/
def attempt (s : Store σ) (p : Path) (v : Value) : Bool × Store σ :=
  match s.write p v with
  | .ok s' => (true, s')
  | .error _ => (false, s)

/-- Both writes go through, one after the other. -/
def WritesBoth (s : Store σ) (p : Path) (v : Value) (q : Path) (w : Value) : Prop :=
  (s.attempt p v).1 = true ∧ ((s.attempt p v).2.attempt q w).1 = true

/-- In both orders, the same writes go through, and they leave equal data. -/
structure Independent (s : Store σ) (p : Path) (v : Value) (q : Path) (w : Value) : Prop where
  first : (s.attempt p v).1 = ((s.attempt q w).2.attempt p v).1
  second : ((s.attempt p v).2.attempt q w).1 = (s.attempt q w).1
  same : ((s.attempt p v).2.attempt q w).2.data.same
    ((s.attempt q w).2.attempt p v).2.data = true

/-- The paths clash in the place where they part. -/
def Clash (s : Store σ) (p q : Path) : Prop :=
  ∃ t u, p.segments[(p.common q).depth]? = some t ∧ q.segments[(p.common q).depth]? = some u ∧
    Value.Clash (s.read? (p.common q)) t u

theorem clash_iff {t u : Segment} {rest more : List Segment}
    (hp : p.segments = (p.common q).segments ++ t :: rest)
    (hq : q.segments = (p.common q).segments ++ u :: more) :
    s.Clash p q ↔ Value.Clash (s.read? (p.common q)) t u := by
  rw [Clash, Path.segment_at_fork hp, Path.segment_at_fork hq]
  simp

/-! ## Attempts -/

theorem attempt_iff : (s.attempt p v).1 = true ↔ Value.Writable (some s.data) p.segments := by
  constructor
  · intro h
    rw [attempt] at h
    split at h
    · rename_i s' hwrite
      exact (data_of_write hwrite).1
    · cases h
  · intro h
    obtain ⟨s', hwrite, -⟩ := exists_write (v := v) h
    rw [attempt, hwrite]

theorem data_of_attempt (h : (s.attempt p v).1 = true) :
    (s.attempt p v).2.data = Value.placed (some s.data) p.segments v := by
  obtain ⟨s', hwrite, hdata⟩ := exists_write (v := v) (attempt_iff.1 h)
  rw [attempt, hwrite]
  exact hdata

theorem store_of_refused (h : ¬ (s.attempt p v).1 = true) : (s.attempt p v).2 = s := by
  rw [attempt] at h ⊢
  split
  · rename_i s' hwrite
    rw [hwrite] at h
    exact (h rfl).elim
  · rfl

theorem wellFormed_attempt (hs : s.data.WellFormed) (hv : v.WellFormed) :
    (s.attempt p v).2.data.WellFormed := by
  by_cases h : (s.attempt p v).1 = true
  · rw [data_of_attempt h]
    exact Value.wellFormed_placed (Value.wellFormed_some hs) hv
  · rw [store_of_refused h]
    exact hs

/-- From one start, two writes at disjoint paths that go through in both orders leave equal data. -/
theorem same_of_writesBoth (hpq : p.Disjoint q) (hs : s.data.WellFormed) (hv : v.WellFormed)
    (hw : w.WellFormed) (h : s.WritesBoth p v q w) (h' : s.WritesBoth q w p v) :
    ((s.attempt p v).2.attempt q w).2.data.same
      ((s.attempt q w).2.attempt p v).2.data = true := by
  have hne : p.segments ≠ q.segments := fun heq => hpq.1 (heq ▸ List.prefix_rfl)
  have hreorders : Value.Series.Reorders [(p.segments, v), (q.segments, w)]
      [(q.segments, w), (p.segments, v)] := by
    refine ⟨fun route => ?_, ?_, ?_⟩
    · by_cases hroute : p.segments = route
      · simp [Value.Series.valuesAt, hroute, hroute ▸ hne.symm]
      · simp [Value.Series.valuesAt, List.filterMap_cons, hroute]
    · exact List.pairwise_pair.2 fun hleads => (hpq.2 hleads).elim
    · exact List.pairwise_pair.2 fun hleads => (hpq.1 hleads).elim
  have hvalues : ∀ entry ∈ [(p.segments, v), (q.segments, w)], entry.2.WellFormed := by
    simp [hv, hw]
  have hwritable := attempt_iff.1 h.2
  have hwritable' := attempt_iff.1 h'.2
  rw [data_of_attempt h.1] at hwritable
  rw [data_of_attempt h'.1] at hwritable'
  have halike := hreorders.alike_placedAll (Value.wellFormed_some hs) hvalues
    ⟨attempt_iff.1 h.1, hwritable, trivial⟩ ⟨attempt_iff.1 h'.1, hwritable', trivial⟩
  rw [data_of_attempt h.2, data_of_attempt h'.2, data_of_attempt h.1, data_of_attempt h'.1]
  exact Value.alike_some_iff.1 halike

/-- If the same writes go through, whichever is made first, the data end up equal. -/
theorem independent_of_eq (hpq : p.Disjoint q) (hs : s.data.WellFormed) (hv : v.WellFormed)
    (hw : w.WellFormed) (hfirst : (s.attempt p v).1 = ((s.attempt q w).2.attempt p v).1)
    (hsecond : ((s.attempt p v).2.attempt q w).1 = (s.attempt q w).1) :
    s.Independent p v q w := by
  refine ⟨hfirst, hsecond, ?_⟩
  by_cases hp : (s.attempt p v).1 = true
  · by_cases hq : (s.attempt q w).1 = true
    · exact same_of_writesBoth hpq hs hv hw ⟨hp, hsecond.trans hq⟩ ⟨hq, hfirst.symm.trans hp⟩
    · have hafter : ¬ ((s.attempt p v).2.attempt q w).1 = true := by rwa [hsecond]
      rw [store_of_refused hafter, store_of_refused hq]
      exact Value.same_refl _ (wellFormed_attempt hs hv)
  · have hafter : ¬ ((s.attempt q w).2.attempt p v).1 = true := by rwa [← hfirst]
    rw [store_of_refused hafter, store_of_refused hp]
    exact Value.same_refl _ (wellFormed_attempt hs hw)

/-! ## Where the paths part -/

section Fork

variable {common : Path} {t u : Segment} {rest more : List Segment}
  (hp : p.segments = common.segments ++ t :: rest) (hq : q.segments = common.segments ++ u :: more)
  (hne : u ≠ t)

include hp in
theorem attempt_fork_iff :
    (s.attempt p v).1 = true ↔
      Value.Writable (some s.data) common.segments ∧ (Value.opened (s.read? common) t).Takes t ∧
        Value.Writable (Value.look (s.read? common) [t]) rest := by
  rw [attempt_iff, hp, Value.writable_append, Value.Writable, read?_eq_look]

include hp hq hne

/-- Behind a write that went through, the other one takes its step into what is there now. -/
theorem attempt_after_iff (h : (s.attempt p v).1 = true) :
    ((s.attempt p v).2.attempt q w).1 = true ↔ Value.TakesAfter (s.read? common) t u ∧
      Value.Writable (Value.look (s.read? common) [u]) more := by
  have hwritable := attempt_iff.1 h
  rw [hp] at hwritable
  rw [attempt_iff, data_of_attempt h, hp, hq, Value.writable_placed_iff hne hwritable,
    read?_eq_look]

theorem attempt_after_of_not_clash (hclash : ¬ Value.Clash (s.read? common) t u) :
    ((s.attempt p v).2.attempt q w).1 = (s.attempt q w).1 := by
  by_cases h : (s.attempt p v).1 = true
  · obtain ⟨hcommon, htakes, -⟩ := (attempt_fork_iff hp).1 h
    rw [Bool.eq_iff_iff, attempt_after_iff hp hq hne h, attempt_fork_iff hq,
      Value.takesAfter_iff_of_not_clash hclash htakes, and_iff_right hcommon]
  · rw [store_of_refused h]

theorem not_writesBoth_of_clash (hclash : Value.Clash (s.read? common) t u)
    (h : s.WritesBoth p v q w) : ¬ s.WritesBoth q w p v := by
  intro h'
  have hafter := (attempt_after_iff hp hq hne h.1).1 h.2
  have hafter' := (attempt_after_iff hq hp hne.symm h'.1).1 h'.2
  obtain ⟨-, htakes, -⟩ := (attempt_fork_iff hp).1 h.1
  obtain ⟨-, htakes', -⟩ := (attempt_fork_iff hq).1 h'.1
  exact Value.not_takesAfter_of_clash hclash htakes htakes' hafter.1 hafter'.1

/-- Two writes that go through go through one after the other. -/
theorem writesBoth_or (h : (s.attempt p v).1 = true) (h' : (s.attempt q w).1 = true) :
    s.WritesBoth p v q w ∨ s.WritesBoth q w p v := by
  obtain ⟨-, htakes, hrest⟩ := (attempt_fork_iff hp).1 h
  obtain ⟨-, htakes', hmore⟩ := (attempt_fork_iff hq).1 h'
  rcases Value.takesAfter_or htakes htakes' with hafter | hafter
  · exact Or.inl ⟨h, (attempt_after_iff hp hq hne h).2 ⟨hafter, hmore⟩⟩
  · exact Or.inr ⟨h', (attempt_after_iff hq hp hne.symm h').2 ⟨hafter, hrest⟩⟩

end Fork

/-- Where neither order lets both writes through, at most one of them goes through at all. -/
theorem attempts_eq_of_not_writesBoth
    (hone : (s.attempt p v).1 = true → ¬ (s.attempt q w).1 = true)
    (h : ¬ s.WritesBoth p v q w) :
    ((s.attempt p v).2.attempt q w).1 = (s.attempt q w).1 := by
  by_cases hp : (s.attempt p v).1 = true
  · have hafter : ¬ ((s.attempt p v).2.attempt q w).1 = true := fun hq => h ⟨hp, hq⟩
    rw [Bool.eq_false_of_not_eq_true hafter, Bool.eq_false_of_not_eq_true (hone hp)]
  · rw [store_of_refused hp]

end Store

/-- Two writes at disjoint paths are independent, unless the paths clash and one of the orders lets
both writes through. -/
theorem Store.independent_iff_not_clash {σ : Type} {s : Store σ} {p q : Path} {v w : Value}
    (hpq : p.Disjoint q) (hs : s.data.WellFormed) (hv : v.WellFormed) (hw : w.WellFormed) :
    s.Independent p v q w ↔
      ¬ (s.Clash p q ∧ (s.WritesBoth p v q w ∨ s.WritesBoth q w p v)) := by
  obtain ⟨t, u, rest, more, hp, hq, hne⟩ := hpq.exists_fork
  rw [clash_iff hp hq]
  constructor
  · -- Equal outcomes would let both writes through in the other order too.
    rintro ⟨hfirst, hsecond, -⟩ ⟨hclash, hboth | hboth⟩
    · refine not_writesBoth_of_clash hp hq hne hclash hboth ⟨?_, ?_⟩
      · rw [← hsecond, hboth.2]
      · rw [← hfirst, hboth.1]
    · refine not_writesBoth_of_clash hq hp hne.symm hclash.symm hboth ⟨?_, ?_⟩
      · rw [hfirst, hboth.2]
      · rw [hsecond, hboth.1]
  · intro h
    by_cases hclash : Value.Clash (s.read? (p.common q)) t u
    · have hnone : ¬ (s.WritesBoth p v q w ∨ s.WritesBoth q w p v) :=
        fun hboth => h ⟨hclash, hboth⟩
      have hone : (s.attempt p v).1 = true → ¬ (s.attempt q w).1 = true :=
        fun hwrites hwrites' => hnone (writesBoth_or hp hq hne hwrites hwrites')
      rw [not_or] at hnone
      exact independent_of_eq hpq hs hv hw
        (attempts_eq_of_not_writesBoth (fun hwrites hwrites' => hone hwrites' hwrites) hnone.2).symm
        (attempts_eq_of_not_writesBoth hone hnone.1)
    · exact independent_of_eq hpq hs hv hw
        (attempt_after_of_not_clash hq hp hne.symm fun h => hclash h.symm).symm
        (attempt_after_of_not_clash hp hq hne hclash)

/-- Both are places of the list of items, whichever is written first. -/
theorem Store.independent_order :
    Sample.itemName.Disjoint Sample.firstItem ∧
    Sample.order.Independent Sample.itemName (.string "disk") Sample.firstItem
      (.string "case") := by
  have hdisjoint : Sample.itemName.Disjoint Sample.firstItem := ⟨by decide, by decide⟩
  have horder : Sample.order.data.WellFormed := ⟨List.pairwise_singleton _ _, trivial, trivial⟩
  have hvalue (text : String) : (Value.string text).WellFormed := trivial
  refine ⟨hdisjoint, (independent_iff_not_clash hdisjoint horder (hvalue _) (hvalue _)).2 ?_⟩
  rintro ⟨⟨t, u, ht, hu, hclash⟩, -⟩
  cases ht
  cases hu
  rcases hclash with ⟨-, hkinds⟩ | ⟨i, j, hi, hj, -, hreach⟩
  · exact hkinds rfl
  · cases hi
    cases hj
    exact hreach (by decide)

/-- The number of the items, beside them. -/
def Sample.itemCount : Path := ⟨[itemsField, ⟨"count", by decide⟩]⟩

/-- Whether the items are a list or an object with a count is up to the first write; a list takes no
count, but an object takes an item. -/
theorem Store.not_independent_order :
    Sample.firstItem.Disjoint Sample.itemCount ∧
    ¬ Sample.order.Independent Sample.firstItem (.string "disk") Sample.itemCount
      (.string "one") := by
  refine ⟨⟨by decide, by decide⟩, fun h => ?_⟩
  have hrefused : ((Sample.order.attempt Sample.firstItem (.string "disk")).2.attempt
      Sample.itemCount (.string "one")).1 = false := rfl
  have htaken : (Sample.order.attempt Sample.itemCount (.string "one")).1 = true := rfl
  have hsecond := h.second
  rw [hrefused, htaken] at hsecond
  cases hsecond

end CatalogUi
