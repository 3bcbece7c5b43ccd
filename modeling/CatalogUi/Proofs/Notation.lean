import CatalogUi.Path

/-!
The notation of paths. Escaping a name and reading it back are inverse to each other, and so are
joining parts by slashes and splitting a text at them. Hence every path is read from its own text,
and from no other.
-/

namespace CatalogUi

namespace Segment

theorem unescape?_escape (name : List Char) : unescape? (escape name) = some name := by
  fun_induction escape name with
  | case1 => rfl
  | case2 rest ih => simp [unescape?, ih]
  | case3 rest ih => simp [unescape?, ih]
  | case4 c rest htilde _ ih =>
    have hc : c ≠ '~' := htilde
    simp [unescape?, hc, ih]

theorem slash_not_mem_escape (name : List Char) : '/' ∉ escape name := by
  fun_induction escape name with
  | case1 => exact List.not_mem_nil
  | case2 rest ih => simpa using ih
  | case3 rest ih => simpa using ih
  | case4 c rest _ hslash ih =>
    have hc : '/' ≠ c := fun heq => hslash heq.symm
    simpa [hc] using ih

theorem escape_ne_nil {name : List Char} (h : name ≠ []) : escape name ≠ [] := by
  fun_induction escape name <;> simp_all

theorem escape_of_unescape? {part name : List Char} (hpart : '/' ∉ part)
    (h : unescape? part = some name) : escape name = part := by
  fun_induction unescape? part generalizing name with
  | case1 =>
    cases h
    rfl
  | case2 rest ih =>
    obtain ⟨tail, htail, rfl⟩ := Option.map_eq_some_iff.1 h
    rw [escape, ih (by simpa using hpart) htail]
  | case3 rest ih =>
    obtain ⟨tail, htail, rfl⟩ := Option.map_eq_some_iff.1 h
    rw [escape, ih (by simpa using hpart) htail]
  | case4 => cases h
  | case5 c rest _ _ htilde ih =>
    obtain ⟨tail, htail, rfl⟩ := Option.map_eq_some_iff.1 h
    rw [List.mem_cons, not_or] at hpart
    rw [escape, ih hpart.2 htail]
    · exact htilde
    · exact fun heq => hpart.1 heq.symm

/-- A part without slashes is read as the name that it escapes. -/
theorem unescape?_eq_some_iff {part name : List Char} (hpart : '/' ∉ part) :
    unescape? part = some name ↔ escape name = part := by
  constructor
  · exact escape_of_unescape? hpart
  · rintro rfl
    exact unescape?_escape name

/-- The segment as it stands in the text of a path. -/
def part (s : Segment) : List Char := escape s.name.toList

theorem part_ne_nil (s : Segment) : s.part ≠ [] :=
  escape_ne_nil fun h => s.name_ne (String.toList_eq_nil_iff.1 h)

end Segment

namespace Path

/-! ## Parts -/

theorem parts_eq_splitOn (text : List Char) : parts text = text.splitOn '/' := by
  induction text with
  | nil => rfl
  | cons c rest ih =>
    rw [List.splitOn_eq_splitOnP, List.splitOnP_cons_eq_if_modifyHead, ← List.splitOn_eq_splitOnP,
      ← ih, parts]
    by_cases hc : c = '/'
    · simp [hc]
    · have hne : parts rest ≠ [] := by
        rw [ih]
        exact List.splitOn_ne_nil '/' rest
      cases hparts : parts rest with
      | nil => exact (hne hparts).elim
      | cons part more => simp [hc]

theorem slash_not_mem_parts {text part : List Char} (h : part ∈ parts text) : '/' ∉ part := by
  induction text generalizing part with
  | nil =>
    cases List.mem_singleton.1 h
    exact List.not_mem_nil
  | cons c rest ih =>
    rw [parts] at h
    split at h
    · rcases List.mem_cons.1 h with rfl | h
      · exact List.not_mem_nil
      · exact ih h
    · rename_i hc
      have hc : '/' ≠ c := fun heq => hc heq.symm
      split at h
      · cases List.mem_singleton.1 h
        simpa using hc
      · rename_i first more hparts
        rw [hparts] at ih
        rcases List.mem_cons.1 h with rfl | h
        · simpa [hc] using ih List.mem_cons_self
        · exact ih (List.mem_cons_of_mem _ h)

/-- Parts are read as segments just when they are the parts of these segments. -/
theorem readParts_ok_iff {path : String} {position : Nat} {found : List (List Char)}
    {segments : List Segment} (hfound : ∀ part ∈ found, '/' ∉ part) :
    readParts path position found = .ok segments ↔ segments.map Segment.part = found := by
  induction found generalizing position segments with
  | nil => simp [readParts, eq_comm]
  | cons first rest ih =>
    obtain ⟨hfirst, hrest⟩ := List.forall_mem_cons.1 hfound
    constructor
    · intro h
      rw [readParts] at h
      split at h
      · cases h
      split at h
      · cases h
      · rename_i name hname
        split at h
        · cases h
        split at h
        · cases h
        · rename_i more hmore
          cases h
          rw [Segment.unescape?_eq_some_iff hfirst] at hname
          rw [List.map_cons, (ih hrest).1 hmore, Segment.part, String.toList_ofList, hname]
    · intro h
      obtain ⟨s, more, rfl, rfl, hmore⟩ := List.map_eq_cons_iff.1 h
      have hread : Segment.unescape? s.part = some s.name.toList := Segment.unescape?_escape _
      rw [readParts, if_neg (by simpa using s.part_ne_nil), hread]
      dsimp only
      rw [dif_neg (by simpa using s.name_ne), (ih hrest).2 hmore]
      obtain ⟨name, hname⟩ := s
      simp

/-! ## Texts -/

theorem flatMap_part (first : Segment) (rest : List Segment) :
    (first :: rest).flatMap (fun s => '/' :: s.part) =
      '/' :: ['/'].intercalate ((first :: rest).map Segment.part) := by
  induction rest generalizing first with
  | nil => simp
  | cons next rest ih =>
    rw [List.flatMap_cons, ih, List.map_cons, List.map_cons, List.map_cons,
      List.intercalate_cons_cons]
    simp

theorem toList_text {p : Path} (h : p.segments ≠ []) :
    p.text.toList = '/' :: ['/'].intercalate (p.segments.map Segment.part) := by
  obtain ⟨segments⟩ := p
  obtain ⟨first, rest, rfl⟩ := List.exists_cons_of_ne_nil h
  calc (text ⟨first :: rest⟩).toList
    _ = (first :: rest).flatMap (fun s => '/' :: s.part) := String.toList_ofList
    _ = '/' :: ['/'].intercalate ((first :: rest).map Segment.part) := flatMap_part first rest

theorem slash_not_mem_map_part (segments : List Segment) :
    ∀ part ∈ segments.map Segment.part, '/' ∉ part := by
  intro part hmem
  obtain ⟨s, -, rfl⟩ := List.mem_map.1 hmem
  exact Segment.slash_not_mem_escape _

theorem parts_intercalate {segments : List Segment} (h : segments ≠ []) :
    parts (['/'].intercalate (segments.map Segment.part)) = segments.map Segment.part := by
  rw [parts_eq_splitOn]
  exact List.splitOn_intercalate '/' (slash_not_mem_map_part segments) (by simpa using h)

/-- A text is read as a path just when it is the text of that path. -/
theorem parse_ok_iff {t : String} {p : Path} : parse t = .ok p ↔ p.text = t := by
  constructor
  · intro h
    apply String.toList_injective
    rw [parse] at h
    split at h
    · rename_i hroot
      cases h
      exact hroot.symm
    · rename_i rest _ hrest
      split at h
      · cases h
      · rename_i segments hsegments
        cases h
        rw [readParts_ok_iff fun part => slash_not_mem_parts] at hsegments
        have hne : segments ≠ [] := by
          rintro rfl
          apply List.splitOn_ne_nil '/' rest
          rw [← parts_eq_splitOn, ← hsegments, List.map_nil]
        rw [toList_text hne, hsegments, parts_eq_splitOn, List.intercalate_splitOn, hrest]
    · cases h
  · rintro rfl
    by_cases h : p.segments = []
    · obtain ⟨segments⟩ := p
      cases h
      rfl
    have hparts := parts_intercalate h
    rw [parse, toList_text h]
    split
    · -- No part is empty, so there is something behind the first slash.
      rename_i hroot
      have hmem : [] ∈ p.segments.map Segment.part := by
        rw [← hparts, (List.cons.inj hroot).2]
        exact List.mem_singleton_self []
      obtain ⟨s, -, hs⟩ := List.mem_map.1 hmem
      exact (s.part_ne_nil hs).elim
    · rename_i rest _ hrest
      cases hrest
      rw [hparts, (readParts_ok_iff (slash_not_mem_map_part _)).2 rfl]
    · rename_i hother
      exact (hother _ rfl).elim

end Path

end CatalogUi
