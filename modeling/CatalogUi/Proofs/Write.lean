import CatalogUi.Proofs.Outcome
import CatalogUi.Proofs.Step

/-!
Writing along a route takes two walks. The first one finds out whether every step can be taken, and the
second one, which then cannot be stopped, writes. Both are told here by what stands in front of each
segment, nothing included. A route can be cut anywhere, and reading and both walks go on from what stands
at the cut.
-/

namespace CatalogUi.Value

open Outcome

/-- What stands at the end of a route, if anything does. -/
def look (c : Option Value) (route : List Segment) : Option Value :=
  c.bind (·.get? route)

/-- Every step can be taken into the container that is there or that will be made. -/
def Writable : Option Value → List Segment → Prop
  | _, [] => True
  | c, s :: rest => (opened c s).Takes s ∧ Writable (look c [s]) rest

/-- The value after a write at the end of a route. -/
def placed : Option Value → List Segment → Value → Value
  | _, [], v => v
  | c, s :: rest, v => (opened c s).withChild s (placed (look c [s]) rest v)

variable {path : Path} {c : Option Value} {s : Segment} {route rest more : List Segment}
  {v w out : Value}

/-! ## Reading -/

theorem look_nil : look c [] = c := by
  cases c with
  | none => rfl
  | some v => cases v <;> rfl

theorem look_singleton : look c [s] = c.bind (·.child? s) := by
  cases c with
  | none => rfl
  | some v =>
    rw [look, Option.bind_some, Option.bind_some, get?_cons]
    exact look_nil

theorem look_cons : look c (s :: rest) = look (look c [s]) rest := by
  rw [look_singleton, look, look, Option.bind_assoc]
  simp only [get?_cons]

theorem look_append : look c (route ++ more) = look (look c route) more := by
  induction route generalizing c with
  | nil => rw [List.nil_append, look_nil]
  | cons s rest ih => rw [List.cons_append, look_cons, ih, ← look_cons]

/-- A container that was opened shows what was there before. -/
theorem look_opened {t : Segment} : look (some (opened c s)) [t] = look c [t] := by
  rw [look_singleton, look_singleton, Option.bind_some, child?_opened]

/-! ## The walk that checks -/

theorem checkIndex_ok_iff {i length : Nat} :
    checkIndex path i length = .ok () ↔ i ≤ length + maxPadding := by
  rw [checkIndex]
  split <;> simp <;> omega

/-- Where a container is missing, the check goes on as in front of the empty one that will be made. -/
theorem checkWritable_cons_opened :
    checkWritable path c (s :: rest) = checkWritable path (some (opened c s)) (s :: rest) := by
  rcases vacant_or c with hvacant | ⟨w, rfl, hw⟩
  · rw [opened_of_vacant hvacant, emptyFor]
    cases c with
    | none => cases hi : s.index? <;> simp [checkWritable, hi, Entries.get?]
    | some w =>
      cases w with
      | object | array => exact (hvacant _ rfl trivial).elim
      | null | bool | number | string =>
        cases hi : s.index? <;> simp [checkWritable, hi, Entries.get?]
  · rw [opened_of_isContainer hw]

theorem checkWritable_cons_ok_iff_of_isContainer (h : w.IsContainer) :
    checkWritable path (some w) (s :: rest) = .ok () ↔
      w.Takes s ∧ checkWritable path (w.child? s) rest = .ok () := by
  cases w with
  | object fields => simp only [checkWritable, child?, Takes, true_and]
  | array items =>
    cases hi : s.index? with
    | none => simp [checkWritable, Takes, hi]
    | some i => simp [checkWritable, Takes, child?, hi, check_bind_ok_iff, checkIndex_ok_iff]
  | null | bool | number | string => exact h.elim

theorem checkWritable_ok_iff : checkWritable path c route = .ok () ↔ Writable c route := by
  induction route generalizing c with
  | nil => simp [checkWritable, Writable]
  | cons s rest ih =>
    rw [checkWritable_cons_opened, checkWritable_cons_ok_iff_of_isContainer (isContainer_opened c s),
      child?_opened, ← look_singleton, ih, Writable]

/-! ## The walk that writes -/

/-- Nothing is written like null, which gives way to a container as well. -/
theorem asContainer_getD : asContainer (c.getD .null) s = opened c s := by
  cases c with
  | none => rfl
  | some w => cases w <;> rfl

/-- Into a container that takes the step, the walk goes on from the child in the slot. -/
theorem place_cons_of_takes (h : (opened c s).Takes s) :
    place (c.getD .null) (s :: rest) v =
      (opened c s).withChild s (place ((look c [s]).getD .null) rest v) := by
  rw [place, asContainer_getD, look_singleton, ← child?_opened c s s]
  cases hw : opened c s with
  | object fields => rfl
  | array items =>
    rw [hw] at h
    obtain ⟨i, hi, -⟩ := h
    simp only [hi, child?, withChild, Option.bind_some]
  | null | bool | number | string =>
    rw [hw] at h
    exact h.elim

/-- Once the check has gone well, the walk that writes cannot be stopped. -/
theorem place_eq_placed (h : Writable c route) : place (c.getD .null) route v = placed c route v := by
  induction route generalizing c with
  | nil => rw [place, placed]
  | cons s rest ih => rw [place_cons_of_takes h.1, ih h.2, placed]

theorem write_ok_iff {p : Path} :
    v.write p w = .ok out ↔ Writable (some v) p.segments ∧ placed (some v) p.segments w = out := by
  rw [write, map_ok_iff]
  constructor
  · rintro ⟨_, hcheck, rfl⟩
    have hwritable := checkWritable_ok_iff.1 hcheck
    exact ⟨hwritable, (place_eq_placed hwritable).symm⟩
  · rintro ⟨hwritable, rfl⟩
    exact ⟨(), checkWritable_ok_iff.2 hwritable, place_eq_placed hwritable⟩

/-! ## Cutting a route -/

theorem look_placed_singleton (h : (opened c s).Takes s) :
    look (some (placed c (s :: rest) v)) [s] = some (placed (look c [s]) rest v) := by
  rw [look_singleton, Option.bind_some, placed, child?_withChild_self h]

theorem opened_placed (t : Segment) :
    opened (some (placed c (s :: rest) v)) t = placed c (s :: rest) v :=
  opened_of_isContainer (isContainer_withChild (isContainer_opened c s)) t

theorem writable_append :
    Writable c (route ++ more) ↔ Writable c route ∧ Writable (look c route) more := by
  induction route generalizing c with
  | nil => simp [Writable, look_nil]
  | cons s rest ih => rw [List.cons_append, Writable, Writable, ih, ← look_cons, and_assoc]

theorem placed_append :
    placed c (route ++ more) v = placed c route (placed (look c route) more v) := by
  induction route generalizing c with
  | nil => rw [List.nil_append, look_nil, placed]
  | cons s rest ih => rw [List.cons_append, placed, placed, ih, ← look_cons]

/-! ## The laws of a route -/

/-- What was written is read back. -/
theorem look_placed (h : Writable c route) : look (some (placed c route v)) route = some v := by
  induction route generalizing c with
  | nil => exact look_nil
  | cons s rest ih => rw [look_cons, look_placed_singleton h.1, ih h.2]

/-- What is there already can be written, and changes nothing. -/
theorem writable_of_look (h : look c route = some v) : Writable c route := by
  induction route generalizing c with
  | nil => trivial
  | cons s rest ih =>
    rw [look_cons] at h
    obtain ⟨child, hchild, -⟩ := Option.bind_eq_some_iff.1 h
    rw [← look_opened (s := s), look_singleton, Option.bind_some] at hchild
    exact ⟨takes_of_child? hchild, ih h⟩

theorem placed_of_look (h : look (some v) route = some w) : placed (some v) route w = v := by
  induction route generalizing v with
  | nil =>
    rw [look_nil] at h
    cases h
    rfl
  | cons s rest ih =>
    rw [look_cons] at h
    obtain ⟨child, hchild, -⟩ := Option.bind_eq_some_iff.1 h
    rw [hchild] at h
    rw [placed, hchild, ih h]
    rw [look_singleton, Option.bind_some] at hchild
    rw [opened_of_isContainer (takes_isContainer (takes_of_child? hchild)),
      withChild_child? hchild]

/-- After a write, another write at the same place can be made, and the first one is forgotten. -/
theorem writable_placed (h : Writable c route) : Writable (some (placed c route v)) route :=
  writable_of_look (look_placed h)

theorem placed_placed (h : Writable c route) :
    placed (some (placed c route v)) route w = placed c route w := by
  induction route generalizing c with
  | nil => rfl
  | cons s rest ih =>
    rw [placed, opened_placed, look_placed_singleton h.1, ih h.2, placed, withChild_withChild,
      ← placed]

end CatalogUi.Value
