import CatalogUi.Proofs.Segment
import CatalogUi.Value.Access

/-!
One step into a value: what stands one segment further down, and what a write makes of it. A write
first opens the container that it steps into; a scalar, or nothing, gives way to an empty one.
-/

namespace CatalogUi.Value

/-! ## Items of a sequence -/

theorem getElem?_setItem_self (items : List Value) (i : Nat) (v : Value) :
    (setItem items i v)[i]? = some v := by
  unfold setItem
  split
  · rename_i hlt
    rw [List.getElem?_set_self hlt]
  · rename_i hle
    rw [List.getElem?_append_right (by simp; omega)]
    have hpos : i - (items ++ List.replicate (i - items.length) null).length = 0 := by
      simp
      omega
    rw [hpos, List.getElem?_cons_zero]

theorem length_setItem (items : List Value) (i : Nat) (v : Value) :
    (setItem items i v).length = max items.length (i + 1) := by
  unfold setItem
  split
  · rw [List.length_set]
    omega
  · simp
    omega

/-- Other items stay, and the places between the end and a new item are filled with nulls. -/
theorem getElem?_setItem_of_ne {items : List Value} {i j : Nat} (v : Value) (hne : j ≠ i) :
    (setItem items i v)[j]? = if items.length ≤ j ∧ j < i then some null else items[j]? := by
  unfold setItem
  split
  · rename_i hlt
    rw [List.getElem?_set_ne (Ne.symm hne), if_neg (by omega)]
  · rename_i hle
    rw [List.append_assoc]
    by_cases hj : j < items.length
    · rw [if_neg (by omega), List.getElem?_append_left hj]
    · rw [List.getElem?_append_right (by omega)]
      by_cases hpad : j < i
      · rw [if_pos ⟨by omega, hpad⟩, List.getElem?_append_left (by simp; omega),
          List.getElem?_replicate, if_pos (by omega)]
      · rw [if_neg (by omega), List.getElem?_eq_none (l := items) (by omega),
          List.getElem?_eq_none]
        simp
        omega

theorem setItem_setItem (items : List Value) (i : Nat) (v w : Value) :
    setItem (setItem items i v) i w = setItem items i w := by
  apply List.ext_getElem?
  intro j
  by_cases hj : j = i
  · rw [hj, getElem?_setItem_self, getElem?_setItem_self]
  · rw [getElem?_setItem_of_ne _ hj, getElem?_setItem_of_ne _ hj, getElem?_setItem_of_ne _ hj,
      length_setItem]
    rw [if_neg (by omega)]

theorem setItem_getElem? {items : List Value} {i : Nat} {v : Value} (h : items[i]? = some v) :
    setItem items i v = items := by
  obtain ⟨hlt, hv⟩ := List.getElem?_eq_some_iff.1 h
  rw [setItem, if_pos hlt, ← hv, List.set_getElem_self]

/-! ## Children -/

/-- Whether a value is there for others to stand in. -/
def IsContainer : Value → Prop
  | .object _ | .array _ => True
  | _ => False

/-- What stands one segment further down. -/
def child? : Value → Segment → Option Value
  | .object fields, s => Entries.get? fields s.name
  | .array items, s => s.index?.bind fun i => items[i]?
  | _, _ => none

/-- A value with something else one segment further down. -/
def withChild : Value → Segment → Value → Value
  | .object fields, s, v => .object (Entries.set fields s.name v)
  | .array items, s, v =>
    match s.index? with
    | some i => .array (setItem items i v)
    | none => .array items
  | c, _, _ => c

/-- Whether a write can take a step into a container: a place of a sequence must not lie too far past
its end. -/
def Takes : Value → Segment → Prop
  | .object _, _ => True
  | .array items, s => ∃ i, s.index? = some i ∧ i ≤ items.length + maxPadding
  | _, _ => False

/-- The container that a write steps into: the one that is there, or else an empty one. -/
def opened : Option Value → Segment → Value
  | some (.object fields), _ => .object fields
  | some (.array items), _ => .array items
  | _, s => emptyFor s

/-- Nothing, or a value that nothing stands in. -/
def Vacant (c : Option Value) : Prop :=
  ∀ v, c = some v → ¬ v.IsContainer

theorem get?_cons (v : Value) (s : Segment) (rest : List Segment) :
    v.get? (s :: rest) = (v.child? s).bind (·.get? rest) := by
  cases v with
  | object fields =>
    rw [get?, child?]
    cases Entries.get? fields s.name <;> rfl
  | array items =>
    rw [get?, child?]
    cases s.index? with
    | none => rfl
    | some i => cases h : items[i]? <;> simp [h]
  | null | bool | number | string => rfl

section Opened

variable {c : Option Value} {v w : Value} {s t : Segment}

theorem isContainer_emptyFor (s : Segment) : (emptyFor s).IsContainer := by
  unfold emptyFor
  split <;> trivial

theorem child?_emptyFor (s t : Segment) : (emptyFor s).child? t = none := by
  unfold emptyFor
  split
  · rw [child?]
    cases t.index? <;> rfl
  · rfl

theorem opened_of_isContainer (h : v.IsContainer) (s : Segment) : opened (some v) s = v := by
  cases v with
  | object | array => rfl
  | null | bool | number | string => exact h.elim

theorem opened_of_vacant (h : Vacant c) (s : Segment) : opened c s = emptyFor s := by
  cases c with
  | none => rfl
  | some v =>
    cases v with
    | object | array => exact (h _ rfl trivial).elim
    | null | bool | number | string => rfl

theorem vacant_none : Vacant none := nofun

theorem vacant_null : Vacant (some null) := by
  rintro v ⟨⟩
  exact id

/-- Either there is a container, or a write makes one. -/
theorem vacant_or (c : Option Value) : Vacant c ∨ ∃ v, c = some v ∧ v.IsContainer := by
  by_cases h : ∃ v, c = some v ∧ v.IsContainer
  · exact Or.inr h
  · exact Or.inl fun v hc hv => h ⟨v, hc, hv⟩

theorem isContainer_opened (c : Option Value) (s : Segment) : (opened c s).IsContainer := by
  rcases vacant_or c with hvacant | ⟨v, rfl, hv⟩
  · rw [opened_of_vacant hvacant]
    exact isContainer_emptyFor s
  · rwa [opened_of_isContainer hv]

/-- An opened container holds what was there before. -/
theorem child?_opened (c : Option Value) (s t : Segment) :
    (opened c s).child? t = c.bind (·.child? t) := by
  rcases vacant_or c with hvacant | ⟨v, rfl, hv⟩
  · rw [opened_of_vacant hvacant, child?_emptyFor]
    cases c with
    | none => rfl
    | some v =>
      cases v with
      | object | array => exact (hvacant _ rfl trivial).elim
      | null | bool | number | string => rfl
  · rw [opened_of_isContainer hv, Option.bind_some]

theorem isContainer_withChild (h : v.IsContainer) : (v.withChild s w).IsContainer := by
  cases v with
  | object => trivial
  | array =>
    rw [withChild]
    split <;> trivial
  | null | bool | number | string => exact h.elim

theorem takes_isContainer (h : v.Takes s) : v.IsContainer := by
  cases v with
  | object | array => trivial
  | null | bool | number | string => exact h.elim

end Opened

/-! ## The laws of one step -/

section Laws

variable {c v w : Value} {s t : Segment}

/-- A step down to something that is there can be taken. -/
theorem takes_of_child? (h : c.child? s = some v) : c.Takes s := by
  cases c with
  | object => trivial
  | array items =>
    obtain ⟨i, hi, hv⟩ := Option.bind_eq_some_iff.1 h
    obtain ⟨hlt, -⟩ := List.getElem?_eq_some_iff.1 hv
    exact ⟨i, hi, by omega⟩
  | null | bool | number | string => cases h

theorem child?_withChild_self (h : c.Takes s) : (c.withChild s v).child? s = some v := by
  cases c with
  | object fields => exact Entries.get?_set_self fields s.name v
  | array items =>
    obtain ⟨i, hi, -⟩ := h
    simp only [withChild, child?, hi, Option.bind_some]
    exact getElem?_setItem_self items i v
  | null | bool | number | string => exact h.elim

theorem withChild_child? (h : c.child? s = some v) : c.withChild s v = c := by
  cases c with
  | object fields => exact congrArg object (Entries.set_get? h)
  | array items =>
    obtain ⟨i, hi, hv⟩ := Option.bind_eq_some_iff.1 h
    simp only [withChild, hi]
    rw [setItem_getElem? hv]
  | null | bool | number | string => rfl

theorem withChild_withChild : (c.withChild s v).withChild s w = c.withChild s w := by
  cases c with
  | object fields => exact congrArg object (Entries.set_set fields s.name v w)
  | array items =>
    cases hi : s.index? with
    | none => simp only [withChild, hi]
    | some i =>
      simp only [withChild, hi]
      rw [setItem_setItem]
  | null | bool | number | string => rfl

/-- The place of `t` lies past the end of a sequence, and a write at the place of `s` fills it. -/
def Pads (c : Value) (s t : Segment) : Prop :=
  ∃ items i j, c = .array items ∧ s.index? = some i ∧ t.index? = some j ∧ items.length ≤ j ∧ j < i

/-- Writing one segment further down changes nothing else there, but for nulls. -/
theorem child?_withChild_of_not_pads (hne : t ≠ s) (hpads : ¬ c.Pads s t) :
    (c.withChild s v).child? t = c.child? t := by
  cases c with
  | object fields =>
    apply Entries.get?_set_of_ne
    intro hname
    obtain ⟨name, _⟩ := s
    obtain ⟨name', _⟩ := t
    cases hname
    exact hne rfl
  | array items =>
    cases hi : s.index? with
    | none => simp only [withChild, hi]
    | some i =>
      simp only [withChild, child?, hi]
      cases hj : t.index? with
      | none => rfl
      | some j =>
        have hji : j ≠ i := by
          rintro rfl
          exact hne (Segment.eq_of_index?_eq hj hi)
        rw [Option.bind_some, Option.bind_some, getElem?_setItem_of_ne v hji,
          if_neg fun hpad => hpads ⟨items, i, j, rfl, hi, hj, hpad⟩]
  | null | bool | number | string => rfl

theorem child?_withChild_of_pads (hpads : c.Pads s t) :
    (c.withChild s v).child? t = some null ∧ c.child? t = none := by
  obtain ⟨items, i, j, rfl, hi, hj, hle, hlt⟩ := hpads
  simp only [withChild, child?, hi, hj, Option.bind_some]
  rw [getElem?_setItem_of_ne v (by omega), if_pos ⟨hle, hlt⟩, List.getElem?_eq_none hle]
  exact ⟨rfl, rfl⟩

end Laws

end CatalogUi.Value
