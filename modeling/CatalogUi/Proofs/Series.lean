import CatalogUi.Proofs.Sameness
import Mathlib.Algebra.Order.BigOperators.Group.List

/-!
Series of writes into one value. What a series does to a container, it does to each of its children,
with the writes that lead there. So two series that write the same at every route, in whatever order
over different routes, leave equal values, provided that neither writes above what it has written.
-/

namespace CatalogUi.Value

/-- Writes along routes, one after the other. -/
abbrev Series := List (List Segment × Value)

/-- Every write of a series goes through, after those before it. -/
def WritableAll : Option Value → Series → Prop
  | _, [] => True
  | c, (route, v) :: rest => Writable c route ∧ WritableAll (some (placed c route v)) rest

/-- What is there after a series. -/
def placedAll : Option Value → Series → Option Value
  | c, [] => c
  | c, (route, v) :: rest => placedAll (some (placed c route v)) rest

variable {c d : Option Value} {series other : Series}

theorem placedAll_append :
    placedAll c (series ++ other) = placedAll (placedAll c series) other := by
  induction series generalizing c with
  | nil => rfl
  | cons entry rest ih => exact ih

theorem writableAll_append :
    WritableAll c (series ++ other) ↔
      WritableAll c series ∧ WritableAll (placedAll c series) other := by
  induction series generalizing c with
  | nil => simp [WritableAll, placedAll]
  | cons entry rest ih =>
    rw [List.cons_append, WritableAll, WritableAll, ih, and_assoc]
    rfl

theorem wellFormed_placedAll (hc : ∀ v ∈ c, v.WellFormed)
    (hseries : ∀ entry ∈ series, entry.2.WellFormed) :
    ∀ v ∈ placedAll c series, v.WellFormed := by
  induction series generalizing c with
  | nil => exact hc
  | cons entry rest ih =>
    obtain ⟨hentry, hrest⟩ := List.forall_mem_cons.1 hseries
    exact ih (wellFormed_some (wellFormed_placed hc hentry)) hrest

/-! ## The writes of a series -/

namespace Series

/-- The values written at a route, in order. -/
def valuesAt (route : List Segment) (series : Series) : List Value :=
  series.filterMap fun entry => if entry.1 = route then some entry.2 else none

/-- Two series write the same values in the same order at every route. -/
def Agree (series other : Series) : Prop :=
  ∀ route, series.valuesAt route = other.valuesAt route

/-- No write is made above an earlier one. -/
def TopDown (series : Series) : Prop :=
  series.Pairwise fun earlier later => later.1 <+: earlier.1 → later.1 = earlier.1

/-- No write replaces everything. -/
def IsDeep (series : Series) : Prop := ∀ entry ∈ series, entry.1 ≠ []

/-- The writes that lead through some segments, from there on. -/
def below (through : Segment → Bool) (series : Series) : Series :=
  series.filterMap fun entry =>
    match entry.1 with
    | [] => none
    | s :: rest => if through s then some (rest, entry.2) else none

/-- No two segments are meant. -/
def Sole (through : Segment → Bool) : Prop :=
  ∀ s t, through s = true → through t = true → s = t

variable {through : Segment → Bool} {s : Segment} {rest route : List Segment} {v : Value}

theorem mem_valuesAt : v ∈ series.valuesAt route ↔ (route, v) ∈ series := by
  rw [valuesAt, List.mem_filterMap]
  constructor
  · rintro ⟨⟨route', w⟩, hmem, hsome⟩
    split at hsome
    · rename_i heq
      cases heq
      cases hsome
      exact hmem
    · cases hsome
  · intro hmem
    exact ⟨_, hmem, if_pos rfl⟩

theorem mem_below {entry : List Segment × Value} :
    entry ∈ series.below through ↔
      ∃ s, through s = true ∧ (s :: entry.1, entry.2) ∈ series := by
  rw [below, List.mem_filterMap]
  constructor
  · rintro ⟨⟨route, w⟩, hmem, hsome⟩
    cases route with
    | nil => cases hsome
    | cons s rest =>
      dsimp only at hsome
      split at hsome
      · rename_i hs
        cases hsome
        exact ⟨s, hs, hmem⟩
      · cases hsome
  · rintro ⟨s, hs, hmem⟩
    exact ⟨_, hmem, if_pos hs⟩

theorem below_cons_of_pos (h : through s = true) :
    below through ((s :: rest, v) :: series) = (rest, v) :: series.below through := by
  simp [below, h]

theorem below_cons_of_neg (h : ¬ through s = true) :
    below through ((s :: rest, v) :: series) = series.below through := by
  simp [below, h]

theorem valuesAt_below (hsole : Sole through) (hs : through s = true) :
    (series.below through).valuesAt route = series.valuesAt (s :: route) := by
  rw [below, valuesAt, valuesAt, List.filterMap_filterMap]
  apply List.filterMap_congr
  rintro ⟨route', w⟩ -
  cases route' with
  | nil => simp
  | cons t rest =>
    by_cases ht : through t = true
    · cases hsole s t hs ht
      simp [ht]
    · have hne : t ≠ s := fun heq => ht (heq ▸ hs)
      simp [ht, hne]

namespace Agree

theorem mem_iff (h : Agree series other) (entry : List Segment × Value) :
    entry ∈ series ↔ entry ∈ other := by
  obtain ⟨route, v⟩ := entry
  rw [← mem_valuesAt, ← mem_valuesAt, h route]

theorem below (h : Agree series other) (hsole : Sole through) :
    Agree (series.below through) (other.below through) := by
  intro route
  by_cases hs : ∃ s, through s = true
  · obtain ⟨s, hs⟩ := hs
    rw [valuesAt_below hsole hs, valuesAt_below hsole hs, h]
  · have hnil (L : Series) : L.below through = [] := by
      apply List.eq_nil_iff_forall_not_mem.2
      intro entry hmem
      obtain ⟨s, hthrough, -⟩ := mem_below.1 hmem
      exact hs ⟨s, hthrough⟩
    rw [hnil, hnil]

end Agree

theorem TopDown.below (h : TopDown series) (hsole : Sole through) :
    TopDown (series.below through) := by
  rw [TopDown, Series.below, List.pairwise_filterMap]
  refine h.imp fun {a b} hab a' ha' b' hb' hleads => ?_
  obtain ⟨_ | ⟨s, routeA⟩, v⟩ := a
  · cases ha'
  obtain ⟨_ | ⟨t, routeB⟩, w⟩ := b
  · cases hb'
  dsimp only at ha' hb' hab
  split at ha'
  · rename_i hs
    split at hb'
    · rename_i ht
      cases ha'
      cases hb'
      cases hsole s t hs ht
      exact (List.cons.inj (hab (List.cons_prefix_cons.2 ⟨rfl, hleads⟩))).2
    · cases hb'
  · cases ha'

/-- Where the first write does not replace everything, none does. -/
theorem TopDown.isDeep (h : TopDown ((s :: rest, v) :: series)) :
    IsDeep ((s :: rest, v) :: series) := by
  rintro entry hmem hnil
  rcases List.mem_cons.1 hmem with rfl | hmem
  · cases hnil
  · have heq := (List.pairwise_cons.1 h).1 entry hmem (hnil ▸ List.nil_prefix)
    rw [hnil] at heq
    cases heq

/-- Writes that replace everything come first. -/
theorem TopDown.exists_cons {values : List Value} (h : TopDown series)
    (hvalues : series.valuesAt [] = v :: values) : ∃ later, series = ([], v) :: later := by
  match series with
  | [] => cases hvalues
  | ([], w) :: later =>
    simp only [valuesAt, List.filterMap_cons, if_true, List.cons.injEq] at hvalues
    exact ⟨later, by rw [hvalues.1]⟩
  | (s :: rest, w) :: later =>
    have hmem : v ∈ valuesAt [] ((s :: rest, w) :: later) := by
      rw [hvalues]
      exact List.mem_cons_self
    exact (h.isDeep _ (mem_valuesAt.1 hmem) rfl).elim

/-- There is a write into an item, or into one behind it. -/
def Reaches (series : Series) (i : Nat) : Prop :=
  ∃ s rest v j, (s :: rest, v) ∈ series ∧ s.index? = some j ∧ i ≤ j

theorem reaches_cons {i j : Nat} (hj : s.index? = some j) :
    Reaches ((s :: rest, v) :: series) i ↔ i ≤ j ∨ series.Reaches i := by
  constructor
  · rintro ⟨t, rest', w, k, hmem, hk, hle⟩
    rcases List.mem_cons.1 hmem with heq | hmem
    · cases heq
      cases hj.symm.trans hk
      exact Or.inl hle
    · exact Or.inr ⟨t, rest', w, k, hmem, hk, hle⟩
  · rintro (hle | ⟨t, rest', w, k, hmem, hk, hle⟩)
    · exact ⟨s, rest, v, j, List.mem_cons_self, hj, hle⟩
    · exact ⟨t, rest', w, k, List.mem_cons_of_mem _ hmem, hk, hle⟩

theorem Agree.reaches_iff (h : Agree series other) (i : Nat) :
    series.Reaches i ↔ other.Reaches i := by
  simp only [Reaches, h.mem_iff]

/-- Two series that write the same, both from the top down. -/
structure Reorders (series other : Series) : Prop where
  agree : Agree series other
  topDown : TopDown series
  topDown_other : TopDown other

namespace Reorders

theorem below (h : Reorders series other) (hsole : Sole through) :
    Reorders (series.below through) (other.below through) :=
  ⟨h.agree.below hsole, h.topDown.below hsole, h.topDown_other.below hsole⟩

/-- A write that replaces everything comes first in both. -/
theorem exists_cons (h : Reorders (([], v) :: series) other) :
    ∃ later, other = ([], v) :: later ∧ Reorders series later := by
  obtain ⟨later, rfl⟩ := h.topDown_other.exists_cons (h.agree []).symm
  refine ⟨later, rfl, fun route => ?_, (List.pairwise_cons.1 h.topDown).2,
    (List.pairwise_cons.1 h.topDown_other).2⟩
  have hroute := h.agree route
  by_cases hnil : [] = route <;> simpa [valuesAt, hnil] using hroute

theorem isDeep_other (h : Reorders series other) (hdeep : IsDeep series) : IsDeep other :=
  fun entry hmem => hdeep entry ((h.agree.mem_iff entry).2 hmem)

end Reorders

end Series

/-! ## What a series does to a container -/

variable {route : List Segment} {v : Value} {s : Segment}

theorem look_singleton_of_vacant (hc : Vacant c) : look c [s] = none := by
  rw [← look_opened (s := s), opened_of_vacant hc, look_singleton, Option.bind_some,
    child?_emptyFor]

/-- What gives way is written like nothing. -/
theorem placed_of_vacant (hc : Vacant c) : placed c route v = placed none route v := by
  cases route with
  | nil => rfl
  | cons s rest =>
    rw [placed, placed, opened_of_vacant hc, opened_of_vacant vacant_none,
      look_singleton_of_vacant hc, look_singleton_of_vacant vacant_none]

theorem writable_of_vacant (hc : Vacant c) : Writable c route ↔ Writable none route := by
  cases route with
  | nil => exact Iff.rfl
  | cons s rest =>
    rw [Writable, Writable, opened_of_vacant hc, opened_of_vacant vacant_none,
      look_singleton_of_vacant hc, look_singleton_of_vacant vacant_none]

/-- A null that fills a gap is as good as the gap. -/
theorem writableAll_null : WritableAll (some null) series ↔ WritableAll none series := by
  cases series with
  | nil => exact Iff.rfl
  | cons entry rest =>
    rw [WritableAll, WritableAll, writable_of_vacant vacant_null, placed_of_vacant vacant_null]

theorem placedAll_null :
    (placedAll (some null) series).getD null = (placedAll none series).getD null := by
  cases series with
  | nil => rfl
  | cons entry rest => rw [placedAll, placedAll, placed_of_vacant vacant_null]

/-- A first step opens a container, and the series goes on with it. -/
theorem placedAll_opened {rest : List Segment} :
    placedAll c ((s :: rest, v) :: series) =
      placedAll (some (opened c s)) ((s :: rest, v) :: series) := by
  rw [placedAll, placedAll, placed, placed, opened_of_isContainer (isContainer_opened c s),
    look_opened]

theorem writableAll_opened {rest : List Segment} :
    WritableAll c ((s :: rest, v) :: series) ↔
      WritableAll (some (opened c s)) ((s :: rest, v) :: series) := by
  rw [WritableAll, WritableAll, Writable, Writable, placed, placed,
    opened_of_isContainer (isContainer_opened c s), look_opened]

/-- A series into an object is one into every field. -/
theorem exists_fields {fields : List (String × Value)} (hdeep : series.IsDeep)
    (h : WritableAll (some (object fields)) series) :
    ∃ fields', placedAll (some (object fields)) series = some (object fields') ∧
      ∀ name, WritableAll (Entries.get? fields name) (series.below fun s => s.name = name) ∧
        Entries.get? fields' name =
          placedAll (Entries.get? fields name) (series.below fun s => s.name = name) := by
  induction series generalizing fields with
  | nil => exact ⟨fields, rfl, fun name => ⟨trivial, rfl⟩⟩
  | cons entry later ih =>
    obtain ⟨_ | ⟨s, rest⟩, v⟩ := entry
    · exact (hdeep _ List.mem_cons_self rfl).elim
    obtain ⟨⟨-, hwritable⟩, hlater⟩ := h
    rw [look_singleton, Option.bind_some, child?] at hwritable
    have hplaced : placed (some (object fields)) (s :: rest) v =
        object (Entries.set fields s.name (placed (Entries.get? fields s.name) rest v)) := by
      rw [placed, look_singleton]
      rfl
    rw [hplaced] at hlater
    obtain ⟨fields', hfields', hnames⟩ :=
      ih (fun entry hmem => hdeep entry (List.mem_cons_of_mem _ hmem)) hlater
    refine ⟨fields', by rw [placedAll, hplaced, hfields'], fun name => ?_⟩
    obtain ⟨hall, hget⟩ := hnames name
    by_cases hname : s.name = name
    · subst hname
      rw [Entries.get?_set_self] at hall hget
      rw [Series.below_cons_of_pos (by simp)]
      exact ⟨⟨hwritable, hall⟩, hget⟩
    · rw [Entries.get?_set_of_ne _ _ (Ne.symm hname)] at hall hget
      rw [Series.below_cons_of_neg (by simpa using hname)]
      exact ⟨hall, hget⟩

/-- Only numbers lead into a sequence. -/
theorem isSome_index?_of_writableAll {items : List Value}
    (h : WritableAll (some (array items)) series) {rest : List Segment}
    (hmem : (s :: rest, v) ∈ series) (hdeep : series.IsDeep) : s.index?.isSome := by
  induction series generalizing items with
  | nil => cases hmem
  | cons entry later ih =>
    obtain ⟨_ | ⟨t, rest'⟩, w⟩ := entry
    · exact (hdeep _ List.mem_cons_self rfl).elim
    obtain ⟨⟨⟨i, hi, -⟩, -⟩, hlater⟩ := h
    rcases List.mem_cons.1 hmem with heq | hmem
    · cases heq
      rw [hi]
      rfl
    · have hplaced : ∃ items', placed (some (array items)) (t :: rest') w = array items' := by
        simp only [placed, opened, withChild, hi]
        exact ⟨_, rfl⟩
      obtain ⟨items', hitems'⟩ := hplaced
      rw [hitems'] at hlater
      exact ih hlater hmem fun entry hmem => hdeep entry (List.mem_cons_of_mem _ hmem)

/-- A series into a sequence is one into every item. The sequence grows up to the last place that is
written, and nulls fill the gaps. -/
theorem exists_items {items : List Value} (hdeep : series.IsDeep)
    (h : WritableAll (some (array items)) series) :
    ∃ items', placedAll (some (array items)) series = some (array items') ∧
      (∀ i, i < items'.length ↔ i < items.length ∨ series.Reaches i) ∧
      ∀ i, WritableAll items[i]? (series.below fun s => s.index? = some i) ∧
        (i < items'.length → items'[i]? =
          some ((placedAll items[i]? (series.below fun s => s.index? = some i)).getD null)) := by
  induction series generalizing items with
  | nil =>
    refine ⟨items, rfl, fun i => by simp [Series.Reaches], fun i => ⟨trivial, fun hi => ?_⟩⟩
    simp [Series.below, placedAll, List.getElem?_eq_getElem hi]
  | cons entry later ih =>
    obtain ⟨_ | ⟨s, rest⟩, v⟩ := entry
    · exact (hdeep _ List.mem_cons_self rfl).elim
    obtain ⟨⟨⟨j, hj, -⟩, hwritable⟩, hlater⟩ := h
    rw [look_singleton, Option.bind_some, child?, hj, Option.bind_some] at hwritable
    have hplaced : placed (some (array items)) (s :: rest) v =
        array (setItem items j (placed items[j]? rest v)) := by
      simp only [placed, look_singleton, opened, withChild, child?, hj, Option.bind_some]
    rw [hplaced] at hlater
    obtain ⟨items', hitems', hlength, hplaces⟩ :=
      ih (fun entry hmem => hdeep entry (List.mem_cons_of_mem _ hmem)) hlater
    refine ⟨items', by rw [placedAll, hplaced, hitems'], fun i => ?_, fun i => ?_⟩
    · have hmax : i < max items.length (j + 1) ↔ i < items.length ∨ i ≤ j := by omega
      rw [hlength, length_setItem, Series.reaches_cons hj, hmax, or_assoc]
    · obtain ⟨hall, hget⟩ := hplaces i
      by_cases hij : i = j
      · subst hij
        rw [getElem?_setItem_self] at hall hget
        rw [Series.below_cons_of_pos (by simpa using hj)]
        exact ⟨⟨hwritable, hall⟩, hget⟩
      · rw [Series.below_cons_of_neg (by simpa [hj] using Ne.symm hij)]
        rw [getElem?_setItem_of_ne _ hij] at hall hget
        split at hall
        · -- A null that fills a gap counts as nothing for the writes that follow.
          rename_i hpad
          rw [if_pos hpad, placedAll_null] at hget
          rw [List.getElem?_eq_none hpad.1]
          exact ⟨writableAll_null.1 hall, hget⟩
        · rename_i hpad
          rw [if_neg hpad] at hget
          exact ⟨hall, hget⟩

/-! ## The order of a series -/

/-- A series that opens a sequence writes to items only. -/
theorem isSome_index?_of_opened {t : Segment} {rest : List Segment} (hc : Vacant c)
    (hdeep : Series.IsDeep series) (h : WritableAll (some (opened c s)) series)
    (hs : s.index?.isSome) (hmem : (t :: rest, v) ∈ series) : t.index?.isSome := by
  rw [opened_of_vacant hc, emptyFor, if_pos hs] at h
  exact isSome_index?_of_writableAll h hmem hdeep

/-- Two series that write the same open containers of one kind. -/
theorem exists_opened (hagree : Series.Agree series other) (hdeep : Series.IsDeep series)
    (hdeep' : Series.IsDeep other) (hne : series ≠ []) (h : WritableAll c series)
    (h' : WritableAll d other) (halike : Alike c d) :
    ∃ s t, Alike (some (opened c s)) (some (opened d t)) ∧
      (placedAll c series = placedAll (some (opened c s)) series ∧
        WritableAll (some (opened c s)) series) ∧
      placedAll d other = placedAll (some (opened d t)) other ∧
        WritableAll (some (opened d t)) other := by
  obtain ⟨⟨route, v⟩, later, rfl⟩ := List.exists_cons_of_ne_nil hne
  have hmem := (hagree.mem_iff (route, v)).1 List.mem_cons_self
  obtain ⟨⟨route', w⟩, later', rfl⟩ := List.exists_cons_of_ne_nil (List.ne_nil_of_mem hmem)
  have hmem' := (hagree.mem_iff (route', w)).2 List.mem_cons_self
  obtain ⟨s, rest, rfl⟩ := List.exists_cons_of_ne_nil (hdeep _ List.mem_cons_self)
  obtain ⟨t, rest', rfl⟩ := List.exists_cons_of_ne_nil (hdeep' _ List.mem_cons_self)
  rw [writableAll_opened] at h h'
  refine ⟨s, t, ?_, ⟨placedAll_opened, h⟩, placedAll_opened, h'⟩
  rcases halike.kinds with
    ⟨hvacant, hvacant'⟩ | ⟨fields, fields', rfl, rfl⟩ | ⟨items, items', rfl, rfl⟩
  · -- Either series writes at both segments, and a sequence takes no name.
    have hkind : s.index?.isSome = t.index?.isSome := by
      rw [Bool.eq_iff_iff]
      exact ⟨fun hs => isSome_index?_of_opened hvacant hdeep h hs hmem',
        fun ht => isSome_index?_of_opened hvacant' hdeep' h' ht hmem⟩
    rw [opened_of_vacant hvacant, opened_of_vacant hvacant', emptyFor, emptyFor, hkind]
    exact Alike.refl (wellFormed_some (wellFormed_emptyFor t))
  · exact halike
  · exact halike

/-- Two runs of the same writes, from equal values, with routes up to a length. -/
structure TwinRuns (n : Nat) (c d : Option Value) (series other : Series) : Prop where
  length_le : ∀ entry ∈ series, entry.1.length ≤ n
  reorders : Series.Reorders series other
  wellFormed_values : ∀ entry ∈ series, entry.2.WellFormed
  wellFormed : ∀ v ∈ c, v.WellFormed
  wellFormed_other : ∀ v ∈ d, v.WellFormed
  writable : WritableAll c series
  writable_other : WritableAll d other
  alike : Alike c d

namespace TwinRuns

variable {n : Nat}

theorem wellFormed_placedAll (h : TwinRuns n c d series other) :
    (∀ v ∈ placedAll c series, v.WellFormed) ∧ ∀ v ∈ placedAll d other, v.WellFormed :=
  ⟨Value.wellFormed_placedAll h.wellFormed h.wellFormed_values,
    Value.wellFormed_placedAll h.wellFormed_other fun entry hmem =>
      h.wellFormed_values entry ((h.reorders.agree.mem_iff entry).2 hmem)⟩

/-- What is written below one step is written along shorter routes. -/
theorem below (h : TwinRuns (n + 1) c d series other) {through : Segment → Bool}
    (hsole : Series.Sole through) {c' d' : Option Value} (hc : ∀ v ∈ c', v.WellFormed)
    (hd : ∀ v ∈ d', v.WellFormed) (hwritable : WritableAll c' (Series.below through series))
    (hwritable' : WritableAll d' (Series.below through other)) (halike : Alike c' d') :
    TwinRuns n c' d' (Series.below through series) (Series.below through other) := by
  refine ⟨fun entry hmem => ?_, h.reorders.below hsole, fun entry hmem => ?_, hc, hd, hwritable,
    hwritable', halike⟩
  · obtain ⟨s, -, hmem⟩ := Series.mem_below.1 hmem
    exact Nat.le_of_succ_le_succ (h.length_le _ hmem)
  · obtain ⟨s, -, hmem⟩ := Series.mem_below.1 hmem
    exact h.wellFormed_values (s :: entry.1, entry.2) hmem

/-- A write that replaces everything makes both sides the same. -/
theorem tail (h : TwinRuns n c d (([], v) :: series) other) :
    ∃ later, other = ([], v) :: later ∧ TwinRuns n (some v) (some v) series later := by
  obtain ⟨later, rfl, hreorders⟩ := h.reorders.exists_cons
  obtain ⟨hv, hvalues⟩ := List.forall_mem_cons.1 h.wellFormed_values
  exact ⟨later, rfl, (List.forall_mem_cons.1 h.length_le).2, hreorders, hvalues,
    wellFormed_some hv, wellFormed_some hv, h.writable.2, h.writable_other.2,
    .some (same_refl v hv)⟩

/-- The fields of objects are written apart from each other. -/
theorem alike_object {fields fields' : List (String × Value)}
    (h : TwinRuns (n + 1) (some (object fields)) (some (object fields')) series other)
    (hdeep : Series.IsDeep series)
    (ih : ∀ {c d : Option Value} {series other : Series}, TwinRuns n c d series other →
      Alike (placedAll c series) (placedAll d other)) :
    Alike (placedAll (some (object fields)) series) (placedAll (some (object fields')) other) := by
  obtain ⟨out, hout, hnames⟩ := exists_fields hdeep h.writable
  obtain ⟨out', hout', hnames'⟩ :=
    exists_fields (h.reorders.isDeep_other hdeep) h.writable_other
  have hwell := h.wellFormed _ rfl
  have hwell' := h.wellFormed_other _ rfl
  have hfields := (same_object_iff (wellFormed_object_iff.1 hwell).1
    (wellFormed_object_iff.1 hwell').1).1 (alike_some_iff.1 h.alike)
  have hsole (name : String) : Series.Sole fun s => s.name = name := by
    rintro ⟨_, _⟩ ⟨_, _⟩ hs ht
    cases of_decide_eq_true hs
    cases of_decide_eq_true ht
    rfl
  obtain ⟨hafter, hafter'⟩ := h.wellFormed_placedAll
  rw [hout] at hafter ⊢
  rw [hout'] at hafter' ⊢
  rw [alike_some_iff, same_object_iff (wellFormed_object_iff.1 (hafter _ rfl)).1
    (wellFormed_object_iff.1 (hafter' _ rfl)).1]
  intro name
  obtain ⟨hwritable, hget⟩ := hnames name
  obtain ⟨hwritable', hget'⟩ := hnames' name
  rw [hget, hget']
  refine ih (h.below (hsole name) (fun v hv => ?_) (fun v hv => ?_) hwritable hwritable'
    (hfields name))
  · exact (wellFormed_object_iff.1 hwell).2 _ (Entries.mem_of_get? hv)
  · exact (wellFormed_object_iff.1 hwell').2 _ (Entries.mem_of_get? hv)

/-- The items of sequences are written apart from each other, and the sequences grow alike. -/
theorem alike_array {items items' : List Value}
    (h : TwinRuns (n + 1) (some (array items)) (some (array items')) series other)
    (hdeep : Series.IsDeep series)
    (ih : ∀ {c d : Option Value} {series other : Series}, TwinRuns n c d series other →
      Alike (placedAll c series) (placedAll d other)) :
    Alike (placedAll (some (array items)) series) (placedAll (some (array items')) other) := by
  obtain ⟨out, hout, hlength, hplaces⟩ := exists_items hdeep h.writable
  obtain ⟨out', hout', hlength', hplaces'⟩ :=
    exists_items (h.reorders.isDeep_other hdeep) h.writable_other
  have hwell := wellFormed_array_iff.1 (h.wellFormed _ rfl)
  have hwell' := wellFormed_array_iff.1 (h.wellFormed_other _ rfl)
  have hitems := same_array_iff.1 (alike_some_iff.1 h.alike)
  have hgrown (i : Nat) : i < out.length ↔ i < out'.length := by
    have hsame : i < items.length ↔ i < items'.length := by
      have hsome := (hitems i).isSome_eq
      rwa [Bool.eq_iff_iff, isSome_getElem?, isSome_getElem?] at hsome
    rw [hlength, hlength', hsame, h.reorders.agree.reaches_iff]
  have hsole (i : Nat) : Series.Sole fun s => s.index? = some i := by
    intro s t hs ht
    exact Segment.eq_of_index?_eq (of_decide_eq_true hs) (of_decide_eq_true ht)
  rw [hout, hout', alike_some_iff, same_array_iff]
  intro i
  by_cases hi : i < out.length
  · obtain ⟨hwritable, hget⟩ := hplaces i
    obtain ⟨hwritable', hget'⟩ := hplaces' i
    rw [hget hi, hget' ((hgrown i).1 hi), alike_some_iff]
    refine (ih (h.below (hsole i) (fun v hv => ?_) (fun v hv => ?_) hwritable hwritable'
      (hitems i))).same_getD
    · exact hwell v (List.mem_of_getElem? hv)
    · exact hwell' v (List.mem_of_getElem? hv)
  · rw [List.getElem?_eq_none (Nat.not_lt.1 hi),
      List.getElem?_eq_none (Nat.not_lt.1 (mt (hgrown i).2 hi))]
    exact .none

/-- Below the first step, the routes are shorter. -/
theorem alike_of_isDeep (h : TwinRuns (n + 1) c d series other) (hdeep : Series.IsDeep series)
    (hne : series ≠ [])
    (ih : ∀ {c d : Option Value} {series other : Series}, TwinRuns n c d series other →
      Alike (placedAll c series) (placedAll d other)) :
    Alike (placedAll c series) (placedAll d other) := by
  obtain ⟨s, t, halike, ⟨hplaced, hwritable⟩, hplaced', hwritable'⟩ :=
    exists_opened h.reorders.agree hdeep (h.reorders.isDeep_other hdeep) hne h.writable
      h.writable_other h.alike
  have hopened : TwinRuns (n + 1) (some (opened c s)) (some (opened d t)) series other :=
    ⟨h.length_le, h.reorders, h.wellFormed_values,
      wellFormed_some (wellFormed_opened h.wellFormed s),
      wellFormed_some (wellFormed_opened h.wellFormed_other t), hwritable, hwritable', halike⟩
  rw [hplaced, hplaced']
  rcases halike.kinds with ⟨hvacant, -⟩ | ⟨fields, fields', hc, hd⟩ | ⟨items, items', hc, hd⟩
  · exact (hvacant _ rfl (isContainer_opened c s)).elim
  · rw [hc, hd] at hopened ⊢
    exact hopened.alike_object hdeep ih
  · rw [hc, hd] at hopened ⊢
    exact hopened.alike_array hdeep ih

/-- Writes that replace everything are the same on both sides. -/
theorem alike_of_forall_isDeep
    (hall : ∀ {c d : Option Value} {series other : Series}, TwinRuns n c d series other →
      Series.IsDeep series → series ≠ [] → Alike (placedAll c series) (placedAll d other))
    (h : TwinRuns n c d series other) : Alike (placedAll c series) (placedAll d other) := by
  induction series generalizing c d other with
  | nil =>
    have hnil : other = [] := by
      apply List.eq_nil_iff_forall_not_mem.2
      intro entry hmem
      cases (h.reorders.agree.mem_iff entry).2 hmem
    rw [hnil]
    exact h.alike
  | cons entry later ih =>
    obtain ⟨_ | ⟨s, rest⟩, v⟩ := entry
    · obtain ⟨later', rfl, hlater⟩ := h.tail
      change Alike (placedAll (some v) later) (placedAll (some v) later')
      exact ih hlater
    · exact hall h h.reorders.topDown.isDeep (List.cons_ne_nil _ _)

/-- The same writes leave equal values. The induction is on the length of the longest route. -/
theorem alike_placedAll (h : TwinRuns n c d series other) :
    Alike (placedAll c series) (placedAll d other) := by
  induction n generalizing c d series other with
  | zero =>
    refine alike_of_forall_isDeep (fun {c d series other} h hdeep hne => ?_) h
    obtain ⟨entry, later, rfl⟩ := List.exists_cons_of_ne_nil hne
    have hlength := h.length_le entry List.mem_cons_self
    exact (hdeep entry List.mem_cons_self (List.length_eq_zero_iff.1 (Nat.le_zero.1 hlength))).elim
  | succ n ih => exact alike_of_forall_isDeep (fun h hdeep hne => h.alike_of_isDeep hdeep hne ih) h

end TwinRuns

/-- From one start, two series that write the same leave equal values. -/
theorem Series.Reorders.alike_placedAll (h : Series.Reorders series other)
    (hc : ∀ v ∈ c, v.WellFormed) (hvalues : ∀ entry ∈ series, entry.2.WellFormed)
    (hwritable : WritableAll c series) (hwritable' : WritableAll c other) :
    Alike (placedAll c series) (placedAll c other) := by
  have hlength : ∀ entry ∈ series,
      entry.1.length ≤ (series.map fun entry => entry.1.length).sum :=
    fun entry hmem => List.le_sum_of_mem (List.mem_map_of_mem hmem)
  exact TwinRuns.alike_placedAll
    ⟨hlength, h, hvalues, hc, hc, hwritable, hwritable', .refl hc⟩

end CatalogUi.Value
