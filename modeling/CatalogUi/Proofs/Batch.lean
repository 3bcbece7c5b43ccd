import CatalogUi.Proofs.Frame
import CatalogUi.Proofs.Series

/-!
Batches. A batch is written from the shorter paths to the longer ones, and the entries of one path in
their order; so the last value given for a path is there afterwards, if nothing is written below it,
and the order of entries for different paths does not matter.
-/

namespace CatalogUi

namespace Value

variable {c : Option Value} {series : Series} {route : List Segment} {v : Value}

/-- What stands at a route is still there after writes that are disjoint from it. -/
theorem look_placedAll_of_look
    (hdisjoint : ∀ entry ∈ series, ¬ entry.1 <+: route ∧ ¬ route <+: entry.1)
    (h : WritableAll c series) (hlook : look c route = some v) :
    look (placedAll c series) route = some v := by
  induction series generalizing c with
  | nil => exact hlook
  | cons entry later ih =>
    obtain ⟨hentry, hlater⟩ := List.forall_mem_cons.1 hdisjoint
    exact ih hlater h.2 (look_placed_of_look hentry.1 hentry.2 h.1 hlook)

end Value

theorem Path.isAncestorOf_iff {p q : Path} :
    p.isAncestorOf q = true ↔ p.segments <+: q.segments ∧ p ≠ q := by
  rw [isAncestorOf, Bool.and_eq_true, decide_eq_true_eq, List.isPrefixOf_iff_prefix, and_comm]
  refine and_congr_right fun hleads => ⟨?_, fun hne => ?_⟩
  · rintro hlt rfl
    exact Nat.lt_irrefl _ hlt
  · by_contra hle
    obtain ⟨segments⟩ := p
    obtain ⟨segments'⟩ := q
    cases hleads.eq_of_length_le (Nat.not_lt.1 hle)
    exact hne rfl

namespace Store

/-- The entries of a batch for one path. -/
def entriesFor (p : Path) (batch : List (Path × Value)) : List (Path × Value) :=
  batch.filter (·.1 = p)

/-- The value that a batch gives for a path last. -/
def lastValue? (p : Path) (batch : List (Path × Value)) : Option Value :=
  (entriesFor p batch).getLast?.map (·.2)

/-- The same entries in another order, where those for one path keep theirs. -/
structure Reordering (batch batch' : List (Path × Value)) : Prop where
  perm : batch.Perm batch'
  stable : ∀ p, entriesFor p batch = entriesFor p batch'

/-- The entries of a batch, as writes along routes. -/
def routes (batch : List (Path × Value)) : Value.Series :=
  batch.map fun entry => (entry.1.segments, entry.2)

variable {σ : Type} {s t : Store σ} {batch batch' earlier later : List (Path × Value)} {p q : Path}
  {v : Value}

theorem exists_last (h : p ∈ batch.map (·.1)) :
    ∃ earlier v later, batch = earlier ++ (p, v) :: later ∧ ∀ entry ∈ later, entry.1 ≠ p := by
  induction batch with
  | nil => cases h
  | cons entry rest ih =>
    by_cases hrest : p ∈ rest.map (·.1)
    · obtain ⟨earlier, v, later, rfl, hlater⟩ := ih hrest
      exact ⟨entry :: earlier, v, later, rfl, hlater⟩
    · obtain ⟨p', v⟩ := entry
      rcases List.mem_cons.1 h with rfl | hmem
      · exact ⟨[], v, rest, rfl, fun entry hmem heq => hrest (heq ▸ List.mem_map_of_mem hmem)⟩
      · exact (hrest hmem).elim

theorem lastValue?_append (h : ∀ entry ∈ later, entry.1 ≠ p) :
    lastValue? p (earlier ++ (p, v) :: later) = some v := by
  have hlater : later.filter (·.1 = p) = [] := by
    apply List.filter_eq_nil_iff.2
    intro entry hmem
    simpa using h entry hmem
  simp [lastValue?, entriesFor, hlater]

theorem valuesAt_routes (route : List Segment) :
    (routes batch).valuesAt route = (entriesFor ⟨route⟩ batch).map (·.2) := by
  induction batch with
  | nil => rfl
  | cons entry rest ih =>
    obtain ⟨⟨segments⟩, v⟩ := entry
    simp only [routes, Value.Series.valuesAt, entriesFor] at ih ⊢
    by_cases h : segments = route <;> simp [h, ih]

/-- Writes that all go through leave what they leave of the data alone. -/
theorem data_of_writeInOrder (h : (s.writeInOrder batch).2 = .ok ()) :
    Value.WritableAll (some s.data) (routes batch) ∧
      Value.placedAll (some s.data) (routes batch) = some (s.writeInOrder batch).1.data := by
  induction batch generalizing s with
  | nil => exact ⟨trivial, rfl⟩
  | cons entry later ih =>
    obtain ⟨p, v⟩ := entry
    cases hwrite : s.write p v with
    | error e =>
      rw [writeInOrder, hwrite] at h
      cases h
    | ok s' =>
      simp only [writeInOrder, hwrite] at h ⊢
      obtain ⟨hwritable, hdata⟩ := data_of_write hwrite
      obtain ⟨hall, hplaced⟩ := ih h
      rw [hdata] at hall hplaced
      exact ⟨⟨hwritable, hall⟩, hplaced⟩

/-! ## The order of a batch -/

theorem decide_depth_le_trans (a b c : Path × Value)
    (hab : decide (a.1.depth ≤ b.1.depth) = true) (hbc : decide (b.1.depth ≤ c.1.depth) = true) :
    decide (a.1.depth ≤ c.1.depth) = true := by
  simp only [decide_eq_true_eq] at hab hbc ⊢
  omega

theorem decide_depth_le_total (a b : Path × Value) :
    (decide (a.1.depth ≤ b.1.depth) || decide (b.1.depth ≤ a.1.depth)) = true := by
  simp only [Bool.or_eq_true, decide_eq_true_eq]
  omega

theorem pairwise_batchOrder (batch : List (Path × Value)) :
    (batchOrder batch).Pairwise fun a b => a.1.depth ≤ b.1.depth :=
  (List.pairwise_mergeSort decide_depth_le_trans decide_depth_le_total batch).imp of_decide_eq_true

theorem perm_batchOrder (batch : List (Path × Value)) : (batchOrder batch).Perm batch :=
  List.mergeSort_perm _ _

/-- The entries of one path stay in their order. -/
theorem entriesFor_batchOrder (p : Path) (batch : List (Path × Value)) :
    entriesFor p (batchOrder batch) = entriesFor p batch := by
  have hsub : (entriesFor p batch).Sublist (batchOrder batch) := by
    apply List.sublist_mergeSort decide_depth_le_trans decide_depth_le_total
    · apply List.pairwise_of_forall_mem_list
      intro a ha b hb
      have hpa : a.1 = p := of_decide_eq_true (List.mem_filter.1 ha).2
      have hpb : b.1 = p := of_decide_eq_true (List.mem_filter.1 hb).2
      rw [hpa, hpb]
      exact decide_eq_true (Nat.le_refl _)
    · exact List.filter_sublist
  have hlength : (entriesFor p batch).length = (entriesFor p (batchOrder batch)).length :=
    ((perm_batchOrder batch).filter _).length_eq.symm
  have hfiltered : (entriesFor p (entriesFor p batch)).Sublist (entriesFor p (batchOrder batch)) :=
    hsub.filter _
  have htwice : entriesFor p (entriesFor p batch) = entriesFor p batch := by
    rw [entriesFor, entriesFor, List.filter_filter]
    simp only [Bool.and_self]
  rw [htwice] at hfiltered
  exact (hfiltered.eq_of_length hlength).symm

/-- Shorter paths come first, so nothing is written above what is there already. -/
theorem topDown_batchOrder (batch : List (Path × Value)) :
    (routes (batchOrder batch)).TopDown := by
  rw [Value.Series.TopDown, routes, List.pairwise_map]
  exact (pairwise_batchOrder batch).imp fun hle hleads => hleads.eq_of_length_le hle

theorem Reordering.reorders (h : Reordering batch batch') :
    Value.Series.Reorders (routes (batchOrder batch)) (routes (batchOrder batch')) := by
  refine ⟨fun route => ?_, topDown_batchOrder batch, topDown_batchOrder batch'⟩
  rw [valuesAt_routes, valuesAt_routes, entriesFor_batchOrder, entriesFor_batchOrder, h.stable]

/-- After the last entry of a path comes nothing that leads there. -/
theorem disjoint_of_batchOrder (h : batchOrder batch = earlier ++ (p, v) :: later)
    (hlast : ∀ entry ∈ later, entry.1 ≠ p)
    (hdeepest : ∀ q ∈ batch.map (·.1), p.isAncestorOf q = false) :
    ∀ entry ∈ later, ¬ entry.1.segments <+: p.segments ∧ ¬ p.segments <+: entry.1.segments := by
  intro entry hmem
  have hnotAncestor : ¬ p.isAncestorOf entry.1 = true := by
    have hbatch : entry ∈ batch := by
      rw [← (perm_batchOrder batch).mem_iff, h]
      exact List.mem_append_right _ (List.mem_cons_of_mem _ hmem)
    rw [hdeepest entry.1 (List.mem_map_of_mem hbatch)]
    exact Bool.false_ne_true
  rw [Path.isAncestorOf_iff] at hnotAncestor
  have hbelow : ¬ p.segments <+: entry.1.segments :=
    fun hleads => hnotAncestor ⟨hleads, (hlast entry hmem).symm⟩
  -- Nothing shorter comes later, so what leads to the path would be the path itself.
  refine ⟨fun hleads => ?_, hbelow⟩
  have hsorted := pairwise_batchOrder batch
  rw [h, List.pairwise_append, List.pairwise_cons] at hsorted
  have hle : p.depth ≤ entry.1.depth := hsorted.2.1.1 entry hmem
  exact hbelow (hleads.eq_of_length_le hle ▸ List.prefix_rfl)

/-- The last value for a path with nothing below it is written after all that leads there. -/
theorem read?_writeAll (h : (s.writeAll batch).2 = .ok ()) (hp : p ∈ batch.map (·.1))
    (hdeepest : ∀ q ∈ batch.map (·.1), p.isAncestorOf q = false) :
    ∃ v, lastValue? p batch = some v ∧ (s.writeAll batch).1.read? p = some v := by
  obtain ⟨hwritable, hplaced⟩ := data_of_writeInOrder h
  obtain ⟨earlier, v, later, hbatch, hlast⟩ :=
    exists_last (((perm_batchOrder batch).map _).mem_iff.2 hp)
  have hroutes : routes (batchOrder batch) =
      routes earlier ++ (p.segments, v) :: routes later := by
    rw [hbatch, routes, List.map_append]
    rfl
  have hdisjoint : ∀ entry ∈ routes later,
      ¬ entry.1 <+: p.segments ∧ ¬ p.segments <+: entry.1 := by
    intro entry hmem
    obtain ⟨entry, hentry, rfl⟩ := List.mem_map.1 hmem
    exact disjoint_of_batchOrder hbatch hlast hdeepest entry hentry
  rw [hroutes, Value.writableAll_append] at hwritable
  obtain ⟨-, hwrite, hlater⟩ := hwritable
  refine ⟨v, ?_, ?_⟩
  · rw [lastValue?, ← entriesFor_batchOrder, ← lastValue?, hbatch, lastValue?_append hlast]
  · rw [read?_eq_look, writeAll, ← hplaced, hroutes, Value.placedAll_append, Value.placedAll]
    exact Value.look_placedAll_of_look hdisjoint hlater (Value.look_placed hwrite)

/-- The order of entries for different paths does not matter, as long as they all go through. -/
theorem same_writeAll_of_reordering (hdata : s.data.WellFormed)
    (hvalues : ∀ entry ∈ batch, entry.2.WellFormed) (ht : t.data = s.data)
    (hreordering : Reordering batch batch') (h : (s.writeAll batch).2 = .ok ())
    (h' : (t.writeAll batch').2 = .ok ()) :
    (s.writeAll batch).1.data.same (t.writeAll batch').1.data = true := by
  obtain ⟨hwritable, hplaced⟩ := data_of_writeInOrder h
  obtain ⟨hwritable', hplaced'⟩ := data_of_writeInOrder h'
  rw [ht] at hwritable' hplaced'
  have hroutes : ∀ entry ∈ routes (batchOrder batch), entry.2.WellFormed := by
    intro entry hmem
    obtain ⟨entry, hentry, rfl⟩ := List.mem_map.1 hmem
    exact hvalues entry ((perm_batchOrder batch).mem_iff.1 hentry)
  have halike := hreordering.reorders.alike_placedAll (Value.wellFormed_some hdata) hroutes
    hwritable hwritable'
  rw [hplaced, hplaced'] at halike
  exact Value.alike_some_iff.1 halike

end Store

/-- After a batch, a path below which nothing was written holds the last value given for it, and
another order of entries for different paths would have left equal data. -/
theorem Store.most_specific_wins {σ : Type} {s : Store σ} {batch : List (Path × Value)}
    (h : (s.writeAll batch).2 = .ok ()) :
    (∀ p ∈ batch.map (·.1), (∀ q ∈ batch.map (·.1), p.isAncestorOf q = false) →
      ∃ v, lastValue? p batch = some v ∧ (s.writeAll batch).1.read? p = some v) ∧
    (s.data.WellFormed → (∀ entry ∈ batch, entry.2.WellFormed) →
      ∀ (t : Store σ) (batch' : List (Path × Value)), t.data = s.data →
        Reordering batch batch' → (t.writeAll batch').2 = .ok () →
        (s.writeAll batch).1.data.same (t.writeAll batch').1.data = true) := by
  constructor
  · intro p hp hdeepest
    exact read?_writeAll h hp hdeepest
  · intro hdata hvalues t batch' ht hreordering h'
    exact same_writeAll_of_reordering hdata hvalues ht hreordering h h'

namespace Sample

def items : Path := ⟨[itemsField]⟩

/-- The name of an item before the items, and the remark twice. -/
def changes : List (Path × Value) :=
  [(itemName, .string "disk"), (items, .array []), (remark, .string "now"),
    (remark, .string "late")]

/-- The remarks come first, still in their order. -/
def remarksFirst : List (Path × Value) :=
  [(remark, .string "now"), (remark, .string "late"), (itemName, .string "disk"),
    (items, .array [])]

theorem batchOrder_changes : Store.batchOrder changes =
    [(items, .array []), (remark, .string "now"), (remark, .string "late"),
      (itemName, .string "disk")] := by
  simp [Store.batchOrder, changes, List.mergeSort, List.MergeSort.Internal.splitInTwo, Path.depth,
    itemName, items, remark]

theorem batchOrder_remarksFirst : Store.batchOrder remarksFirst =
    [(remark, .string "now"), (remark, .string "late"), (items, .array []),
      (itemName, .string "disk")] := by
  simp [Store.batchOrder, remarksFirst, List.mergeSort, List.MergeSort.Internal.splitInTwo,
    Path.depth, itemName, items, remark]

theorem reordering_changes : Store.Reordering changes remarksFirst where
  perm :=
    show (changes.take 2 ++ changes.drop 2).Perm (changes.drop 2 ++ changes.take 2) from
      List.perm_append_comm
  stable p := by
    by_cases h : remark = p
    · subst h
      rfl
    · simp [Store.entriesFor, changes, remarksFirst, List.filter_cons, h]

end Sample

/-- The name outlives the items that were given after it, the later remark stays, and it does not
matter that the remarks came last. -/
theorem Store.most_specific_wins_order :
    (Sample.order.writeAll Sample.changes).2 = .ok () ∧
    (Sample.order.writeAll Sample.changes).1.read? Sample.itemName = some (.string "disk") ∧
    (Sample.order.writeAll Sample.changes).1.read? Sample.remark = some (.string "late") ∧
    (Sample.order.writeAll Sample.changes).1.data.same
      (Sample.order.writeAll Sample.remarksFirst).1.data = true := by
  have hok : (Sample.order.writeAll Sample.changes).2 = .ok () := by
    rw [writeAll, Sample.batchOrder_changes]
    rfl
  have hok' : (Sample.order.writeAll Sample.remarksFirst).2 = .ok () := by
    rw [writeAll, Sample.batchOrder_remarksFirst]
    rfl
  obtain ⟨hlast, hsame⟩ := most_specific_wins hok
  obtain ⟨v, hv, hname⟩ := hlast Sample.itemName (by decide) (by decide)
  obtain ⟨w, hw, hremark⟩ := hlast Sample.remark (by decide) (by decide)
  cases hv
  cases hw
  refine ⟨hok, hname, hremark, ?_⟩
  apply hsame _ _ Sample.order Sample.remarksFirst rfl Sample.reordering_changes hok'
  · exact ⟨List.pairwise_singleton _ _, trivial, trivial⟩
  · simp [Sample.changes, Value.WellFormed, Value.WellFormedItems]

end CatalogUi
