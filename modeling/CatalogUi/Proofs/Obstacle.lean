import CatalogUi.Proofs.Address
import CatalogUi.Proofs.History
import CatalogUi.Proofs.Independence

/-!
Writes that are refused. On its way down a path a write is stopped by a name in front of a sequence, and
by an index too far past the end of one; where nothing stands, or a scalar, it goes on as in front of an
empty container. A write is refused just when something on its way stops it, and the first such thing is
the reason. Then nothing has happened. A write that goes through makes no sequence longer than the
padding allows, but for the sequences that it brings along.
-/

namespace CatalogUi

open Outcome

namespace Value

/-- A segment stops a write at a path, given what stands in front of the segment. -/
inductive Stops (p : Path) (c : Option Value) (s : Segment) : BindingError → Prop
  | name {items : List Value} (hc : c = some (.array items)) (hs : s.index? = none) :
      Stops p c s (.keyOnSequence p.text s.name)
  | far {i : Nat} (hs : s.index? = some i) (hc : ∀ fields, c ≠ some (.object fields))
      (hfar : itemCount c + 1024 < i) : Stops p c s (.indexOutOfRange p.text i (itemCount c))

/-- The segment at a position of a route stops a write. What stands in front of it is read before the
write. -/
def StopsAt (p : Path) (c : Option Value) (route : List Segment) (position : Nat)
    (e : BindingError) : Prop :=
  ∃ s, route[position]? = some s ∧ Stops p (look c (route.take position)) s e

variable {p : Path} {c : Option Value} {s : Segment} {route rest : List Segment} {e : BindingError}
  {u v w x out : Value} {place : Place} {step : Step} {hop : Hop}

/-! ## One segment -/

theorem stops_iff_of_name (hs : s.index? = none) :
    Stops p c s e ↔ (∃ items, c = some (.array items)) ∧ e = .keyOnSequence p.text s.name := by
  constructor
  · rintro (⟨rfl, -⟩ | ⟨hi, -, -⟩)
    · exact ⟨⟨_, rfl⟩, rfl⟩
    · cases hs.symm.trans hi
  · rintro ⟨⟨items, rfl⟩, rfl⟩
    exact .name rfl hs

theorem stops_iff_of_index? {i : Nat} (hs : s.index? = some i) :
    Stops p c s e ↔ (∀ fields, c ≠ some (.object fields)) ∧ itemCount c + 1024 < i ∧
      e = .indexOutOfRange p.text i (itemCount c) := by
  constructor
  · rintro (⟨-, hi⟩ | ⟨hi, hc, hfar⟩)
    · cases hs.symm.trans hi
    · cases hs.symm.trans hi
      exact ⟨hc, hfar, rfl⟩
  · rintro ⟨hc, hfar, rfl⟩
    exact .far hs hc hfar

/-- A container that was made for the segment stops it for the same reasons as what gave way to it. -/
theorem stops_opened_iff : Stops p (some (opened c s)) s e ↔ Stops p c s e := by
  rcases vacant_or c with hvacant | ⟨w, rfl, hw⟩
  · cases hi : s.index? with
    | none =>
      rw [stops_iff_of_name hi, stops_iff_of_name hi, opened_of_vacant hvacant, emptyFor, hi]
      refine and_congr_left fun _ => iff_of_false ?_ ?_
      · rintro ⟨items, heq⟩
        cases heq
      · rintro ⟨items, rfl⟩
        exact hvacant _ rfl trivial
    | some i =>
      rw [stops_iff_of_index? hi, stops_iff_of_index? hi, opened_of_vacant hvacant, emptyFor, hi,
        itemCount_of_vacant hvacant]
      refine and_congr_left fun _ => iff_of_true ?_ (ne_object_of_vacant hvacant)
      intro fields heq
      cases heq
  · rw [opened_of_isContainer hw]

theorem checkIndex_error_iff {i length : Nat} : checkIndex p i length = .error e ↔
    length + 1024 < i ∧ e = .indexOutOfRange p.text i length := by
  rw [checkIndex, maxPadding, eq_comm (a := e)]
  split <;> simp_all

theorem checkWritable_cons_error_iff_of_isContainer (h : w.IsContainer) :
    checkWritable p (some w) (s :: rest) = .error e ↔
      Stops p (some w) s e ∨ w.Takes s ∧ checkWritable p (w.child? s) rest = .error e := by
  cases hi : s.index? with
  | none =>
    rw [stops_iff_of_name hi]
    cases w with
    | object fields => simp [checkWritable, child?, Takes]
    | array items => simp [checkWritable, Takes, hi, eq_comm]
    | null | bool | number | string => exact h.elim
  | some i =>
    rw [stops_iff_of_index? hi]
    cases w with
    | object fields => simp [checkWritable, child?, Takes]
    | array items =>
      simp only [checkWritable, hi, check_bind_error_iff, checkIndex_error_iff, checkIndex_ok_iff,
        child?, Takes, Option.bind_some, Option.some.injEq, exists_eq_left', itemCount, ne_eq,
        reduceCtorEq, not_false_eq_true, implies_true, true_and]
    | null | bool | number | string => exact h.elim

/-- A step that is not stopped can be taken. -/
theorem takes_iff_not_stops (p : Path) (c : Option Value) (s : Segment) :
    (opened c s).Takes s ↔ ∀ e, ¬ Stops p c s e := by
  constructor
  · intro htakes e hstops
    cases hstops with
    | name hc hs =>
      subst hc
      exact not_takes_of_name hs htakes
    | far hs hc hfar =>
      rw [takes_of_index? hs hc] at htakes
      exact Nat.not_lt.2 htakes hfar
  · intro h
    by_cases hobject : ∃ fields, c = some (.object fields)
    · obtain ⟨fields, rfl⟩ := hobject
      trivial
    rw [not_exists] at hobject
    cases hi : s.index? with
    | some i =>
      rw [takes_of_index? hi hobject]
      by_contra hfar
      exact h _ (.far hi hobject (Nat.not_le.1 hfar))
    | none =>
      rcases vacant_or c with hvacant | ⟨w, rfl, hw⟩
      · exact (takes_of_name (t := s) hvacant hi).1
      · cases w with
        | object fields => exact (hobject fields rfl).elim
        | array items => exact (h _ (.name rfl hi)).elim
        | null | bool | number | string => exact hw.elim

/-- A write is stopped by its first segment, or behind a first step that it takes. -/
theorem checkWritable_cons_error_iff :
    checkWritable p c (s :: rest) = .error e ↔
      Stops p c s e ∨ (opened c s).Takes s ∧ checkWritable p (look c [s]) rest = .error e := by
  rw [checkWritable_cons_opened, checkWritable_cons_error_iff_of_isContainer (isContainer_opened c s),
    child?_opened, look_singleton, stops_opened_iff]

/-! ## The first segment that stops a write -/

theorem stopsAt_zero : StopsAt p c (s :: rest) 0 e ↔ Stops p c s e := by
  simp [StopsAt, look_nil]

theorem stopsAt_succ {position : Nat} :
    StopsAt p c (s :: rest) (position + 1) e ↔ StopsAt p (look c [s]) rest position e := by
  unfold StopsAt
  rw [List.getElem?_cons_succ, List.take_succ_cons, look_cons]

theorem checkWritable_error_iff : checkWritable p c route = .error e ↔
    ∃ position, StopsAt p c route position e ∧
      ∀ earlier < position, ∀ e', ¬ StopsAt p c route earlier e' := by
  induction route generalizing c with
  | nil =>
    refine iff_of_false (fun h => ?_) ?_
    · rw [checkWritable] at h
      cases h
    · rintro ⟨_, ⟨s, hs, -⟩, -⟩
      cases hs
  | cons s rest ih =>
    rw [checkWritable_cons_error_iff, ih, takes_iff_not_stops p]
    constructor
    · rintro (hstops | ⟨htakes, position, hstops, hfirst⟩)
      · exact ⟨0, stopsAt_zero.2 hstops, fun earlier hlt => (Nat.not_lt_zero earlier hlt).elim⟩
      · refine ⟨position + 1, stopsAt_succ.2 hstops, fun earlier hlt e' hearlier => ?_⟩
        cases earlier with
        | zero => exact htakes e' (stopsAt_zero.1 hearlier)
        | succ earlier =>
          exact hfirst earlier (Nat.lt_of_succ_lt_succ hlt) e' (stopsAt_succ.1 hearlier)
    · rintro ⟨position, hstops, hfirst⟩
      cases position with
      | zero => exact .inl (stopsAt_zero.1 hstops)
      | succ position =>
        refine .inr ⟨fun e' h => hfirst 0 (Nat.succ_pos _) e' (stopsAt_zero.2 h), position,
          stopsAt_succ.1 hstops, fun earlier hlt e' h => ?_⟩
        exact hfirst (earlier + 1) (Nat.succ_lt_succ hlt) e' (stopsAt_succ.2 h)

/-! ## The length of sequences -/

theorem part?_opened (c : Option Value) (s : Segment) (step : Step) :
    (opened c s).part? step = c.bind (·.part? step) := by
  rcases vacant_or c with hvacant | ⟨w, rfl, hw⟩
  · rw [opened_of_vacant hvacant, emptyFor]
    have hnone : c.bind (·.part? step) = none := by
      cases c with
      | none => rfl
      | some w =>
        cases w with
        | object | array => exact (hvacant _ rfl trivial).elim
        | null | bool | number | string => rfl
    rw [hnone]
    split <;> cases step <;> rfl
  · rw [opened_of_isContainer hw]
    rfl

theorem itemCount_opened (c : Option Value) (s : Segment) :
    itemCount (some (opened c s)) = itemCount c := by
  rcases vacant_or c with hvacant | ⟨w, rfl, hw⟩
  · rw [opened_of_vacant hvacant, itemCount_of_vacant hvacant, emptyFor]
    split <;> rfl
  · rw [opened_of_isContainer hw]

/-- A step that can be taken lengthens the sequence by the padding and one item at most. -/
theorem length_withChild_le {items : List Value} (htakes : u.Takes s)
    (h : u.withChild s v = .array items) : items.length ≤ itemCount (some u) + 1025 := by
  cases u with
  | object => cases h
  | array before =>
    obtain ⟨i, hi, hle⟩ := htakes
    have hlimit : maxPadding = 1024 := rfl
    simp only [withChild, hi, array.injEq] at h
    rw [← h, length_setItem]
    show max before.length (i + 1) ≤ before.length + 1025
    omega
  | null | bool | number | string => exact htakes.elim

/-- Where a hop leads into what a write has changed there, all other parts are as they were, but for
nulls. -/
theorem part?_withChild (h : (u.withChild hop.segment v).part? hop.step = some w) :
    u.part? hop.step = u.child? hop.segment ∧
      ∀ step x, step ≠ hop.step → (u.withChild hop.segment v).part? step = some x →
        u.part? step = some x ∨ x = .null := by
  cases u with
  | object fields =>
    cases hop with
    | key name hne =>
      refine ⟨rfl, fun step x hstep hx => ?_⟩
      cases step with
      | field other =>
        have hother : other ≠ name := fun heq => hstep (congrArg Step.field heq)
        exact .inl ((Entries.get?_set_of_ne fields v hother).symm.trans hx)
      | item | items => cases hx
    | index i => cases h
  | array items =>
    cases hop with
    | key name hne =>
      rw [withChild] at h
      split at h <;> cases h
    | index i =>
      rw [child?, Hop.index?_segment]
      simp only [withChild, Hop.index?_segment]
      refine ⟨rfl, fun step x hstep hx => ?_⟩
      cases step with
      | item j =>
        have hj : j ≠ i.toNat := fun heq => hstep (congrArg Step.item heq)
        have hx : (setItem items i.toNat v)[j]? = some x := hx
        rw [getElem?_setItem_of_ne v hj] at hx
        split at hx
        · exact .inr (Option.some.inj hx).symm
        · exact .inl hx
      | field | items => cases hx
  | null | bool | number | string => cases h

/-- A write makes no sequence longer than the padding allows. Below the place where it writes there is
what it brings along. -/
theorem length_le_of_placed {items : List Value} {r : Route}
    (hwritable : Writable c r.path.segments)
    (hv : (placed c r.path.segments v).at? r.place = some v)
    (hitems : (placed c r.path.segments v).at? place = some (.array items)) :
    r.place <+: place ∨ items.length ≤ itemCount (c.bind (·.at? place)) + 1025 := by
  induction r generalizing c place with
  | nil => exact .inl List.nil_prefix
  | cons hop rest ih =>
    obtain ⟨htakes, hrest⟩ := hwritable
    obtain ⟨inner, hinner, hv⟩ := at?_cons_eq_some_iff.1 hv
    -- The hop leads to what is written there, since it is written like the segment.
    have hself : look (some (placed c (hop.segment :: rest.map Hop.segment) v)) [hop.segment] =
        some (placed (look c [hop.segment]) (rest.map Hop.segment) v) :=
      look_placed_singleton htakes
    rw [look_singleton, Option.bind_some] at hself
    obtain rfl : inner = placed (look c [hop.segment]) (rest.map Hop.segment) v :=
      Option.some.inj ((child?_segment hinner).symm.trans hself)
    obtain ⟨hchild, hothers⟩ := part?_withChild hinner
    cases place with
    | nil =>
      right
      have hle := length_withChild_le htakes (Option.some.inj hitems)
      rw [itemCount_opened] at hle
      cases c <;> exact hle
    | cons step more =>
      obtain ⟨x, hx, hmore⟩ := at?_cons_eq_some_iff.1 hitems
      have hbefore : c.bind (·.at? (step :: more)) =
          ((opened c hop.segment).part? step).bind (·.at? more) := by
        rw [part?_opened, Option.bind_assoc]
        rfl
      by_cases hstep : step = hop.step
      · subst hstep
        cases hinner.symm.trans hx
        rw [hbefore, hchild, child?_opened, ← look_singleton]
        refine (ih hrest hv hmore).imp_left fun hprefix => ?_
        exact (List.prefix_cons_inj _).2 hprefix
      · right
        rcases hothers step x hstep hx with hpart | rfl
        · rw [hbefore, hpart, Option.bind_some, hmore]
          exact Nat.le_add_right _ _
        · cases more <;> cases hmore

end Value

/-- The segment at a position of a path stops a write to the data of a store. -/
def Store.StopsAt {σ : Type} (s : Store σ) (p : Path) (position : Nat) (e : BindingError) : Prop :=
  Value.StopsAt p (some s.data) p.segments position e

/-- A write is refused just when a segment stops it, and the first one that does gives the reason. A
refused write changes nothing and calls no listener. After a write that goes through, the value stands at
the place that the path addresses, and no sequence outside that value is longer than before by more than
1025 items. -/
theorem Store.write_refused_iff_stopped {σ : Type} (s : Store σ) (p : Path) (v : Value) :
    (∀ e, s.write p v = .error e ↔
      ∃ position, s.StopsAt p position e ∧ ∀ earlier < position, ∀ e', ¬ s.StopsAt p earlier e') ∧
    (∀ e, s.write p v = .error e → s.perform (.write p v) = s ∧
      ∀ id q w again, .called id q w again ∉ s.happenings (.write p v)) ∧
    ∀ s', s.write p v = .ok s' → ∃ route : Route, route.path = p ∧
      s'.data.at? route.place = some v ∧
      ∀ place items, s'.data.at? place = some (.array items) →
        route.place <+: place ∨ items.length ≤ Value.itemCount (s.data.at? place) + 1025 := by
  refine ⟨fun e => ?refused, fun e h => ?unchanged, fun s' h => ?bounded⟩
  case refused =>
    rw [write_error_iff, Value.write, map_error_iff]
    exact Value.checkWritable_error_iff
  case unchanged =>
    constructor
    · rw [perform, h]
    · intro id q w again hmem
      rw [happenings, writeEvents_of_error h, List.mem_singleton] at hmem
      cases hmem
  case bounded =>
    obtain ⟨hwritable, hdata⟩ := data_of_write h
    have hread := Value.look_placed (v := v) hwritable
    rw [hdata]
    obtain ⟨route, hroute, hplace⟩ := Value.exists_route hread
    obtain rfl : route.path = p := hroute
    refine ⟨route, rfl, hplace, fun place items hitems => ?_⟩
    exact Value.length_le_of_placed hwritable hplace hitems

namespace Sample

/-- The first place that is too far away in a sequence that is not there yet. -/
def farItem : Path := ⟨[itemsField, ⟨"1025", by decide⟩]⟩

end Sample

/-- An item that is too far away is refused at its index, and the order stays as it was. The name of the
second item can be written, and there are no more items then than the padding allows. -/
theorem Store.write_refused_iff_stopped_order :
    (∃ position, Sample.order.StopsAt Sample.farItem position
      (.indexOutOfRange "/items/1025" 1025 0)) ∧
    Sample.order.perform (.write Sample.farItem .null) = Sample.order ∧
    ∃ s', Sample.order.write Sample.itemName (.string "disk") = .ok s' ∧
      ∀ items, s'.data.at? [.field "items"] = some (.array items) → items.length ≤ 1025 := by
  obtain ⟨hrefused, hunchanged, -⟩ := write_refused_iff_stopped Sample.order Sample.farItem .null
  have herror : Sample.order.write Sample.farItem .null =
      .error (.indexOutOfRange "/items/1025" 1025 0) := rfl
  obtain ⟨position, hstops, -⟩ := (hrefused _).1 herror
  obtain ⟨-, -, hbounded⟩ :=
    write_refused_iff_stopped Sample.order Sample.itemName (.string "disk")
  have hwrite : ∃ s', Sample.order.write Sample.itemName (.string "disk") = .ok s' := ⟨_, rfl⟩
  obtain ⟨s', hs'⟩ := hwrite
  obtain ⟨route, hroute, -, hlength⟩ := hbounded s' hs'
  refine ⟨⟨position, hstops⟩, (hunchanged _ herror).1, s', hs', fun items hitems => ?_⟩
  rcases hlength _ items hitems with hprefix | hle
  · -- The path has more segments than the place of the items has steps.
    have hdepth : route.place.length = 3 := by
      have hsegments := congrArg Path.depth hroute
      simpa [Route.place, Route.path, Path.depth, Sample.itemName] using hsegments
    have hshort := hprefix.length_le
    rw [hdepth] at hshort
    exact absurd hshort (by decide)
  · exact hle

end CatalogUi
