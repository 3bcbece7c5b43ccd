import CatalogUi.Proofs.Batch
import CatalogUi.Proofs.Delimiter
import CatalogUi.Proofs.Grammar

/-!
The order of paths. A path is an ancestor of another when the other leads on from it. Comparing paths
segment by segment, hop by hop, or as texts comes to the same: what leads on from a path that is not
the root starts with its text and a slash. The ancestors of a path are in a line, from the root down,
and a batch writes each of them before what leads on from it.
-/

namespace CatalogUi

namespace Segment

theorem part_injective : Function.Injective part := by
  intro s t h
  have hname : some s.name.toList = some t.name.toList := by
    rw [← unescape?_escape s.name.toList, ← unescape?_escape t.name.toList]
    exact congrArg unescape? h
  obtain ⟨name, _⟩ := s
  obtain ⟨name', _⟩ := t
  cases String.toList_injective (Option.some.inj hname)
  rfl

theorem hop_injective : Function.Injective hop := by
  intro s t h
  rw [← segment_hop s, ← segment_hop t, h]

end Segment

namespace Path

/-! ## Texts of segments -/

/-- Segments as they stand in the text of a path, each behind a slash. -/
def spelled (segments : List Segment) : List Char :=
  segments.flatMap fun s => '/' :: s.part

theorem spelled_cons (s : Segment) (rest : List Segment) :
    spelled (s :: rest) = '/' :: (s.part ++ spelled rest) := rfl

theorem toList_text_eq_spelled {p : Path} (h : p.segments ≠ []) :
    p.text.toList = spelled p.segments := by
  obtain ⟨segments⟩ := p
  obtain ⟨first, rest, rfl⟩ := List.exists_cons_of_ne_nil h
  exact String.toList_ofList

/-- A slash follows the segments, so that the last of them ends there and not in the middle of a
longer one. -/
theorem spelled_slash_prefix_cons_iff {s t : Segment} {a b : List Segment} :
    spelled (s :: a) ++ ['/'] <+: spelled (t :: b) ↔
      s = t ∧ spelled a ++ ['/'] <+: spelled b := by
  rw [spelled_cons, spelled_cons, List.cons_append, List.cons_prefix_cons, and_iff_right rfl,
    List.append_assoc]
  constructor
  · rintro ⟨more, h⟩
    have hslash : ∃ rest, spelled a ++ ['/'] = '/' :: rest := by
      cases a with
      | nil => exact ⟨[], rfl⟩
      | cons first rest => exact ⟨_, rfl⟩
    obtain ⟨rest, hrest⟩ := hslash
    rw [hrest, List.append_assoc, List.cons_append] at h
    cases b with
    | nil =>
      rw [spelled, List.flatMap_nil, List.append_nil] at h
      have hmem : '/' ∈ t.part := by
        rw [← h]
        exact List.mem_append_right _ List.mem_cons_self
      exact (Segment.slash_not_mem_escape _ hmem).elim
    | cons next later =>
      rw [spelled_cons] at h ⊢
      obtain ⟨hpart, htail⟩ := Text.append_cons_inj (Segment.slash_not_mem_escape _)
        (Segment.slash_not_mem_escape _) h
      exact ⟨Segment.part_injective hpart, more, by rw [hrest, List.cons_append, htail]⟩
  · rintro ⟨rfl, h⟩
    exact (List.prefix_append_right_inj _).2 h

/-- Segments lead on to others just when their text does, with a slash behind it. -/
theorem spelled_slash_prefix_iff {a b : List Segment} :
    spelled a ++ ['/'] <+: spelled b ↔ a <+: b ∧ a ≠ b := by
  induction a generalizing b with
  | nil => cases b <;> simp [spelled]
  | cons s a ih =>
    cases b with
    | nil => simp [spelled]
    | cons t b =>
      rw [spelled_slash_prefix_cons_iff, ih, List.cons_prefix_cons, and_assoc]
      refine and_congr_right fun heq => and_congr_right fun _ => ?_
      rw [heq, Ne, Ne, List.cons.injEq, and_iff_right rfl]

/-! ## Ancestors -/

variable {p q r : Path}

theorem isAncestorOf_iff_route :
    p.isAncestorOf q = true ↔ p.route <+: q.route ∧ p.route ≠ q.route := by
  have hne : p ≠ q ↔ p.route ≠ q.route :=
    not_congr ⟨congrArg route, fun h => by rw [← path_route p, ← path_route q, h]⟩
  rw [isAncestorOf_iff, route, route, List.prefix_map_iff_of_injective Segment.hop_injective, hne]
  rfl

theorem root_isAncestorOf_iff : root.isAncestorOf q = true ↔ q ≠ root := by
  rw [isAncestorOf_iff, ne_comm]
  exact and_iff_right List.nil_prefix

/-- What leads on from a path that is not the root starts with its text and a slash. -/
theorem isAncestorOf_iff_text (h : p ≠ root) :
    p.isAncestorOf q = true ↔ ∃ rest, q.text = p.text ++ "/" ++ rest := by
  have hp : p.segments ≠ [] := fun hnil => h (congrArg Path.mk hnil)
  have htext : (∃ rest, q.text = p.text ++ "/" ++ rest) ↔ spelled p.segments ++ ['/'] <+:
      q.text.toList := by
    rw [← toList_text_eq_spelled hp]
    constructor
    · rintro ⟨rest, hrest⟩
      exact ⟨rest.toList, by simp [hrest]⟩
    · rintro ⟨rest, hrest⟩
      refine ⟨String.ofList rest, String.toList_injective ?_⟩
      simp [← hrest]
  have hne : p ≠ q ↔ p.segments ≠ q.segments :=
    not_congr ⟨congrArg segments, fun heq => congrArg Path.mk heq⟩
  rw [htext, isAncestorOf_iff, hne]
  by_cases hq : q.segments = []
  · -- The text of the root is one slash, which is too short for a segment and a slash.
    have hroot : q.text.toList = ['/'] := by
      rw [show q = root from congrArg Path.mk hq]
      rfl
    obtain ⟨first, rest, hfirst⟩ := List.exists_cons_of_ne_nil hp
    rw [hq, hroot, hfirst, spelled_cons]
    simp
  · rw [toList_text_eq_spelled hq, spelled_slash_prefix_iff]

theorem not_isAncestorOf_self (p : Path) : p.isAncestorOf p = false := by
  rw [Bool.eq_false_iff, Ne, isAncestorOf_iff]
  exact fun h => h.2 rfl

theorem depth_lt_of_isAncestorOf (h : p.isAncestorOf q = true) : p.depth < q.depth := by
  rw [isAncestorOf, Bool.and_eq_true] at h
  exact of_decide_eq_true h.1

theorem isAncestorOf_trans (h : p.isAncestorOf q = true) (h' : q.isAncestorOf r = true) :
    p.isAncestorOf r = true := by
  have hlt := (depth_lt_of_isAncestorOf h).trans (depth_lt_of_isAncestorOf h')
  rw [isAncestorOf_iff] at h h' ⊢
  refine ⟨h.1.trans h'.1, ?_⟩
  rintro rfl
  exact Nat.lt_irrefl _ hlt

/-- The ancestors of a path are in a line. -/
theorem isAncestorOf_or (h : p.isAncestorOf r = true) (h' : q.isAncestorOf r = true) :
    p = q ∨ p.isAncestorOf q = true ∨ q.isAncestorOf p = true := by
  rw [isAncestorOf_iff] at h h'
  simp only [isAncestorOf_iff]
  by_cases heq : p = q
  · exact .inl heq
  · rcases List.prefix_or_prefix_of_prefix h.1 h'.1 with hleads | hleads
    · exact .inr (.inl ⟨hleads, heq⟩)
    · exact .inr (.inr ⟨hleads, Ne.symm heq⟩)

end Path

/-- Nothing in a batch is written before an entry for an ancestor of its path. -/
theorem Store.not_isAncestorOf_of_batchOrder (batch : List (Path × Value)) :
    (batchOrder batch).Pairwise fun earlier later =>
      later.1.isAncestorOf earlier.1 = false := by
  refine (pairwise_batchOrder batch).imp fun hle => ?_
  rw [Bool.eq_false_iff]
  exact fun h => Nat.not_lt.2 hle (Path.depth_lt_of_isAncestorOf h)

/-- A path is an ancestor of another just when it is the root and the other is not, or it is not the
root and the text of the other starts with its text and a slash; its hops are then those that the other
begins with. No path is its own ancestor, an ancestor of an ancestor is one, and of two ancestors of
a path one is an ancestor of the other, unless they are equal. An ancestor is less deep, so that a
batch never writes it after what leads on from it. -/
theorem Path.isAncestorOf_textual :
    (∀ {s t : String} {p q : Path}, parse s = .ok p → parse t = .ok q →
      (p.isAncestorOf q = true ↔
        p = root ∧ q ≠ root ∨ p ≠ root ∧ ∃ rest, t = s ++ "/" ++ rest) ∧
      (p.isAncestorOf q = true ↔ p.route <+: q.route ∧ p.route ≠ q.route)) ∧
    (∀ p : Path, p.isAncestorOf p = false) ∧
    (∀ p q r : Path, p.isAncestorOf q = true → q.isAncestorOf r = true →
      p.isAncestorOf r = true) ∧
    (∀ p q r : Path, p.isAncestorOf r = true → q.isAncestorOf r = true →
      p = q ∨ p.isAncestorOf q = true ∨ q.isAncestorOf p = true) ∧
    (∀ p q : Path, p.isAncestorOf q = true → p.depth < q.depth) ∧
    ∀ batch, (Store.batchOrder batch).Pairwise fun earlier later =>
      later.1.isAncestorOf earlier.1 = false := by
  refine ⟨fun {s t p q} hs ht => ⟨?text, isAncestorOf_iff_route⟩, not_isAncestorOf_self,
    fun p q r => isAncestorOf_trans, fun p q r => isAncestorOf_or,
    fun p q => depth_lt_of_isAncestorOf, Store.not_isAncestorOf_of_batchOrder⟩
  case text =>
    obtain rfl := parse_ok_iff.1 hs
    obtain rfl := parse_ok_iff.1 ht
    by_cases h : p = root
    · subst h
      simp [root_isAncestorOf_iff]
    · simp [h, isAncestorOf_iff_text h]

/-- A disk is an ancestor of its size, but not of a disk whose number begins with its own. The slash
in the name of the list of disks begins no segment. -/
theorem Path.isAncestorOf_textual_disks :
    ∃ p q r, parse "/disks~1/0" = .ok p ∧ parse "/disks~1/0/size" = .ok q ∧
      parse "/disks~1/01" = .ok r ∧ p.isAncestorOf q = true ∧ p.isAncestorOf r = false ∧
      p.depth < q.depth := by
  have hp : ∃ p, parse "/disks~1/0" = .ok p ∧ p ≠ root := ⟨_, rfl, by decide⟩
  have hq : ∃ q, parse "/disks~1/0/size" = .ok q := ⟨_, rfl⟩
  have hr : ∃ r, parse "/disks~1/01" = .ok r := ⟨_, rfl⟩
  obtain ⟨p, hp, hne⟩ := hp
  obtain ⟨q, hq⟩ := hq
  obtain ⟨r, hr⟩ := hr
  obtain ⟨htext, -, -, -, hdepth, -⟩ := isAncestorOf_textual
  have hleads : p.isAncestorOf q = true :=
    (htext hp hq).1.2 (.inr ⟨hne, "size", by decide⟩)
  have hother : p.isAncestorOf r = false := by
    rw [Bool.eq_false_iff, Ne, (htext hp hr).1]
    rintro (⟨hroot, -⟩ | ⟨-, rest, hrest⟩)
    · exact hne hroot
    · have hchars := congrArg String.toList hrest
      simp at hchars
  exact ⟨p, q, r, hp, hq, hr, hleads, hother, hdepth p q hleads⟩

end CatalogUi
