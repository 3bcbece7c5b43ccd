import CatalogUi.Proofs.Lens

/-!
What a write leaves alone. Two paths of which neither leads on from the other have a common beginning
and then fork; a write at one of them changes at the other at most what was absent, to a null that
fills the gap in front of a new item.
-/

namespace CatalogUi

namespace Path

/-- The segments that two routes have in common before they part. -/
def shared : List Segment → List Segment → List Segment
  | s :: p, t :: q => if s = t then s :: shared p q else []
  | _, _ => []

/-- The longest path with which both paths begin. -/
def common (p q : Path) : Path := ⟨shared p.segments q.segments⟩

/-- Neither path is a beginning of the other. -/
def Disjoint (p q : Path) : Prop :=
  ¬ p.segments <+: q.segments ∧ ¬ q.segments <+: p.segments

variable {p q : Path}

theorem exists_fork_of_not_prefix : ∀ {a b : List Segment}, ¬ a <+: b → ¬ b <+: a →
    ∃ s t rest more, a = shared a b ++ s :: rest ∧ b = shared a b ++ t :: more ∧ t ≠ s
  | [], b, h, _ => (h List.nil_prefix).elim
  | a, [], _, h => (h List.nil_prefix).elim
  | s :: a, t :: b, hab, hba => by
    by_cases heq : s = t
    · subst heq
      rw [List.cons_prefix_cons, and_iff_right rfl] at hab hba
      obtain ⟨s', t', rest, more, ha, hb, hne⟩ := exists_fork_of_not_prefix hab hba
      refine ⟨s', t', rest, more, ?_, ?_, hne⟩ <;> rw [shared, if_pos rfl, List.cons_append]
      · rw [← ha]
      · rw [← hb]
    · exact ⟨s, t, a, b, by simp [shared, heq], by simp [shared, heq], Ne.symm heq⟩

/-- Disjoint paths go on differently after their common beginning. -/
theorem Disjoint.exists_fork (h : p.Disjoint q) :
    ∃ s t rest more, p.segments = (p.common q).segments ++ s :: rest ∧
      q.segments = (p.common q).segments ++ t :: more ∧ t ≠ s :=
  exists_fork_of_not_prefix h.1 h.2

/-- The first segment behind a common beginning. -/
theorem segment_at_fork {common : Path} {s : Segment} {rest : List Segment}
    (h : p.segments = common.segments ++ s :: rest) : p.segments[common.depth]? = some s := by
  rw [h, depth, List.getElem?_append_right (Nat.le_refl _), Nat.sub_self, List.getElem?_cons_zero]

end Path

namespace Value

variable {c : Option Value} {s t : Segment} {route rest more : List Segment} {v : Value}

/-- A write behind a cut leaves at the cut what a write there alone would leave. -/
theorem look_placed_append (h : Writable c route) :
    look (some (placed c (route ++ rest) v)) (route ++ more) =
      look (some (placed (look c route) rest v)) more := by
  rw [placed_append, look_append, look_placed h]

theorem look_placed_of_not_pads (hne : t ≠ s) (hpads : ¬ (opened c s).Pads s t) :
    look (some (placed c (s :: rest) v)) (t :: more) = look c (t :: more) := by
  rw [look_cons, look_cons (c := c), look_singleton, Option.bind_some, placed,
    child?_withChild_of_not_pads hne hpads, child?_opened, ← look_singleton]

theorem look_placed_of_pads (hpads : (opened c s).Pads s t) (rest more : List Segment)
    (v : Value) :
    look (some (placed c (s :: rest) v)) (t :: more) = look (some null) more ∧
      look c (t :: more) = none := by
  obtain ⟨hnull, hnone⟩ :=
    child?_withChild_of_pads (v := placed (look c [s]) rest v) hpads
  rw [child?_opened, ← look_singleton] at hnone
  rw [look_cons, look_cons (c := c), look_singleton, Option.bind_some, placed, hnull, hnone]
  exact ⟨rfl, rfl⟩

/-- What stands at a disjoint route is still there after a write. -/
theorem look_placed_of_look {w : Value} (hroute : ¬ route <+: more) (hmore : ¬ more <+: route)
    (h : Writable c route) (hlook : look c more = some w) :
    look (some (placed c route v)) more = some w := by
  obtain ⟨s, t, rest, rest', hp, hq, hne⟩ := Path.exists_fork_of_not_prefix hroute hmore
  generalize Path.shared route more = common at hp hq
  subst hp hq
  rw [look_append] at hlook
  have hpads : ¬ (opened (look c common) s).Pads s t := by
    intro hpads
    rw [(look_placed_of_pads hpads rest rest' v).2] at hlook
    cases hlook
  rw [look_placed_append (writable_append.1 h).1, look_placed_of_not_pads hne hpads, hlook]

/-- A place is filled when an item behind it is written, nothing is there, and what holds both is no
object. -/
theorem pads_opened_iff :
    (opened c s).Pads s t ↔ ∃ i j, s.index? = some i ∧ t.index? = some j ∧ j < i ∧
      (∀ fields, c ≠ some (.object fields)) ∧ look c [t] = none := by
  constructor
  · intro hpads
    have hnone := (child?_withChild_of_pads (v := null) hpads).2
    rw [child?_opened, ← look_singleton] at hnone
    obtain ⟨items, i, j, hitems, hi, hj, -, hlt⟩ := hpads
    refine ⟨i, j, hi, hj, hlt, ?_, hnone⟩
    rintro fields rfl
    cases hitems
  · rintro ⟨i, j, hi, hj, hlt, hobject, hnone⟩
    rcases vacant_or c with hvacant | ⟨w, rfl, hw⟩
    · rw [opened_of_vacant hvacant, emptyFor, hi]
      exact ⟨[], i, j, rfl, hi, hj, Nat.zero_le _, hlt⟩
    · cases w with
      | object fields => exact (hobject fields rfl).elim
      | array items =>
        rw [look_singleton, Option.bind_some, child?, hj, Option.bind_some,
          List.getElem?_eq_none_iff] at hnone
        exact ⟨items, i, j, rfl, hi, hj, hnone, hlt⟩
      | null | bool | number | string => exact hw.elim

theorem look_null : look (some null) more = if more = [] then some null else none := by
  cases more <;> rfl

end Value

namespace Store

variable {σ : Type} {s : Store σ} {p q : Path}

/-- Where the paths fork, `p` goes on to an item and `q` ends at an earlier item, which is not there
yet, of a sequence or of something that gives way to one. -/
def FillsGap (s : Store σ) (p q : Path) : Prop :=
  ∃ i j, p.segments[(p.common q).depth]?.bind Segment.index? = some i ∧
    q.depth = (p.common q).depth + 1 ∧ q.segments.getLast?.bind Segment.index? = some j ∧ j < i ∧
    (∀ fields, s.read? (p.common q) ≠ some (.object fields)) ∧ s.read? q = none

theorem read?_at_fork {common : Path} {t : Segment} {rest : List Segment}
    (h : p.segments = common.segments ++ t :: rest) :
    s.read? p = Value.look (s.read? common) (t :: rest) := by
  rw [read?_eq_look, h, Value.look_append, ← read?_eq_look]

/-- In terms of the step behind the common beginning. -/
theorem fillsGap_iff {t u : Segment} {rest more : List Segment}
    (hp : p.segments = (p.common q).segments ++ t :: rest)
    (hq : q.segments = (p.common q).segments ++ u :: more) :
    s.FillsGap p q ↔
      (Value.opened (s.read? (p.common q)) t).Pads t u ∧ more = [] := by
  have hlength : q.depth = (p.common q).depth + 1 ↔ more = [] := by
    rw [Path.depth, hq, Path.depth, List.length_append, List.length_cons,
      ← List.length_eq_zero_iff]
    omega
  rw [FillsGap, Path.segment_at_fork hp, hlength, read?_at_fork hq, Value.pads_opened_iff]
  constructor
  · rintro ⟨i, j, hi, rfl, hj, hlt, hobject, hnone⟩
    rw [hq, List.getLast?_concat] at hj
    exact ⟨⟨i, j, hi, hj, hlt, hobject, hnone⟩, rfl⟩
  · rintro ⟨⟨i, j, hi, hj, hlt, hobject, hnone⟩, rfl⟩
    refine ⟨i, j, hi, rfl, ?_, hlt, hobject, hnone⟩
    rw [hq, List.getLast?_concat]
    exact hj

end Store

/-- A write changes nothing at a disjoint path, unless it fills a gap there with a null. -/
theorem Store.read?_of_write_disjoint {σ : Type} {s s' : Store σ} {p q : Path} {v : Value}
    (h : s.write p v = .ok s') (hpq : p.Disjoint q) :
    (s.FillsGap p q → s'.read? q = some .null) ∧
    (¬ s.FillsGap p q → s'.read? q = s.read? q) := by
  obtain ⟨hwritable, hdata⟩ := data_of_write h
  obtain ⟨t, u, rest, more, hp, hq, hne⟩ := hpq.exists_fork
  rw [hp, Value.writable_append] at hwritable
  have hafter : s'.read? q =
      Value.look (some (Value.placed (s.read? (p.common q)) (t :: rest) v)) (u :: more) := by
    rw [read?_eq_look, hdata, hp, hq, Value.look_placed_append hwritable.1, ← read?_eq_look]
  rw [fillsGap_iff hp hq, hafter, read?_at_fork hq]
  -- A gap that is filled has nothing below its null, so only the null itself is new.
  by_cases hpads : (Value.opened (s.read? (p.common q)) t).Pads t u
  · obtain ⟨hnull, hnone⟩ := Value.look_placed_of_pads hpads rest more v
    rw [hnull, hnone, Value.look_null]
    refine ⟨fun hgap => if_pos hgap.2, fun hgap => if_neg fun hmore => hgap ⟨hpads, hmore⟩⟩
  · exact ⟨fun hgap => (hpads hgap.1).elim, fun _ => Value.look_placed_of_not_pads hne hpads⟩

/-- The first item, before it is there. -/
def Sample.firstItem : Path := ⟨[itemsField, ⟨"0", by decide⟩]⟩

def Sample.remark : Path := ⟨[⟨"remark", by decide⟩]⟩

/-- Writing into the second item puts a null where the first one would be, and leaves the remark. -/
theorem Store.read?_of_write_disjoint_order :
    ∃ s', Sample.order.write Sample.itemName (.string "disk") = .ok s' ∧
      (Sample.itemName.Disjoint Sample.firstItem ∧ Sample.order.read? Sample.firstItem = none ∧
        s'.read? Sample.firstItem = some .null) ∧
      Sample.itemName.Disjoint Sample.remark ∧ s'.read? Sample.remark = some (.string "soon") := by
  have hwrite : ∃ s', Sample.order.write Sample.itemName (.string "disk") = .ok s' := ⟨_, rfl⟩
  obtain ⟨s', hs'⟩ := hwrite
  have hitem : Sample.itemName.Disjoint Sample.firstItem := ⟨by decide, by decide⟩
  have hremark : Sample.itemName.Disjoint Sample.remark := ⟨by decide, by decide⟩
  have hgap : Sample.order.FillsGap Sample.itemName Sample.firstItem :=
    ⟨1, 0, rfl, rfl, rfl, by decide, nofun, rfl⟩
  have hnogap : ¬ Sample.order.FillsGap Sample.itemName Sample.remark := by
    rintro ⟨i, j, hi, -⟩
    cases hi
  refine ⟨s', hs', ⟨hitem, rfl, ?_⟩, hremark, ?_⟩
  · exact (read?_of_write_disjoint hs' hitem).1 hgap
  · exact (read?_of_write_disjoint hs' hremark).2 hnogap

end CatalogUi
