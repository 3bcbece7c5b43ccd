import CatalogUi.Proofs.Address

/-!
The grammar of paths. The text of a path is a slash alone, or a slash in front of parts with slashes
between them. No part is empty, and in each of them every tilde is followed by a zero or a one; it spells
a name. Any other text is refused for the first thing that is wrong with it. What was read is written as
it was, so that no two texts are read as the same path.
-/

namespace CatalogUi

namespace Segment

/-! ## Parts that spell names -/

/-- A part of a text spells a name: a tilde with a zero behind it stands for a tilde and one with a one
for a slash, and every other character stands for itself. -/
inductive Spells : List Char → List Char → Prop
  | nil : Spells [] []
  | tilde {part name : List Char} (h : Spells part name) : Spells ('~' :: '0' :: part) ('~' :: name)
  | slash {part name : List Char} (h : Spells part name) : Spells ('~' :: '1' :: part) ('/' :: name)
  | plain {c : Char} {part name : List Char} (hc : c ≠ '~') (h : Spells part name) :
      Spells (c :: part) (c :: name)

/-- Every tilde is followed by a zero or a one. -/
def WellEscaped (part : List Char) : Prop :=
  ∀ before after, part = before ++ '~' :: after → after.head? = some '0' ∨ after.head? = some '1'

variable {part name : List Char} {c : Char} {s : Segment}

theorem spells_iff : Spells part name ↔ unescape? part = some name := by
  constructor
  · intro h
    induction h with
    | nil => rfl
    | tilde _ ih | slash _ ih => simp [unescape?, ih]
    | plain hc _ ih => simp [unescape?, hc, ih]
  · intro h
    fun_induction unescape? part generalizing name with
    | case1 =>
      cases h
      exact .nil
    | case2 rest ih =>
      obtain ⟨tail, htail, rfl⟩ := Option.map_eq_some_iff.1 h
      exact .tilde (ih htail)
    | case3 rest ih =>
      obtain ⟨tail, htail, rfl⟩ := Option.map_eq_some_iff.1 h
      exact .slash (ih htail)
    | case4 => cases h
    | case5 c rest _ _ hc ih =>
      obtain ⟨tail, htail, rfl⟩ := Option.map_eq_some_iff.1 h
      exact .plain hc (ih htail)

theorem wellEscaped_cons_of_ne (hc : c ≠ '~') : WellEscaped (c :: part) ↔ WellEscaped part := by
  constructor
  · intro h before after heq
    exact h (c :: before) after (congrArg (c :: ·) heq)
  · intro h before after heq
    cases before with
    | nil => exact (hc (List.cons.inj heq).1).elim
    | cons _ before => exact h before after (List.cons.inj heq).2

theorem wellEscaped_tilde : WellEscaped ('~' :: part) ↔
    (part.head? = some '0' ∨ part.head? = some '1') ∧ WellEscaped part := by
  constructor
  · intro h
    exact ⟨h [] part rfl, fun before after heq => h ('~' :: before) after (congrArg ('~' :: ·) heq)⟩
  · rintro ⟨hhead, h⟩ before after heq
    cases before with
    | nil =>
      cases heq
      exact hhead
    | cons _ before => exact h before after (List.cons.inj heq).2

/-- A part spells a name when its tildes are as they should be. -/
theorem isSome_unescape?_iff : (unescape? part).isSome ↔ WellEscaped part := by
  fun_induction unescape? part with
  | case1 => simp [WellEscaped]
  | case2 rest ih => simp [ih, wellEscaped_tilde, wellEscaped_cons_of_ne]
  | case3 rest ih => simp [ih, wellEscaped_tilde, wellEscaped_cons_of_ne]
  | case4 rest hzero hone =>
    rw [wellEscaped_tilde]
    refine iff_of_false Bool.false_ne_true ?_
    rintro ⟨hhead, -⟩
    cases rest with
    | nil => cases hhead <;> contradiction
    | cons c tail =>
      rcases hhead with hhead | hhead
      · exact hzero tail (congrArg (· :: tail) (Option.some.inj hhead))
      · exact hone tail (congrArg (· :: tail) (Option.some.inj hhead))
  | case5 c rest _ _ hc ih => simp [ih, wellEscaped_cons_of_ne hc]

theorem wellEscaped_part (s : Segment) : WellEscaped s.part := by
  rw [← isSome_unescape?_iff, part, unescape?_escape]
  rfl

theorem spells_part (s : Segment) : Spells s.part s.name.toList :=
  spells_iff.2 (unescape?_escape _)

/-- An empty name is spelled by an empty part only. -/
theorem Spells.ne_nil (h : Spells part name) (hne : part ≠ []) : name ≠ [] := by
  cases h with
  | nil => exact absurd rfl hne
  | tilde | slash | plain => exact List.cons_ne_nil _ _

/-! ## Segments as hops -/

/-- What a segment stands for: an index if its name is the decimal of one, and a key otherwise. -/
def hop (s : Segment) : Hop :=
  match s.index? with
  | some i => .index (UInt64.ofNat i)
  | none => .key s.name s.name_ne

theorem segment_hop (s : Segment) : s.hop.segment = s := by
  unfold hop
  split
  · rename_i i hi
    obtain ⟨-, hlt, hvalue⟩ := index?_eq_some_iff.1 hi
    rw [hvalue] at hlt
    have hnat : (UInt64.ofNat i).toNat = i := UInt64.toNat_ofNat_of_lt' hlt
    refine eq_of_index?_eq ?_ hi
    rw [Hop.index?_segment, hnat]
  · rfl

end Segment

/-- The name under which a hop leads into an object; an index does so by its decimal. -/
def Hop.name : Hop → String
  | .key name _ => name
  | .index i => toString i.toNat

theorem Hop.name_segment (hop : Hop) : hop.segment.name = hop.name := by
  cases hop <;> rfl

namespace Segment

theorem name_hop (s : Segment) : s.hop.name = s.name := by
  rw [← Hop.name_segment, segment_hop]

theorem hop_eq_index_iff {s : Segment} {i : UInt64} :
    s.hop = .index i ↔ s.hop.name = toString i.toNat := by
  constructor
  · intro h
    rw [h]
    rfl
  · intro h
    rw [name_hop] at h
    have hs : s = (Hop.index i).segment := by
      obtain ⟨name, _⟩ := s
      cases h
      rfl
    have hindex : s.index? = some i.toNat := by rw [hs, Hop.index?_segment]
    unfold hop
    rw [hindex]
    simp

end Segment

namespace Path

/-- The hops that a path is made of. -/
def route (p : Path) : Route := p.segments.map Segment.hop

theorem path_route (p : Path) : p.route.path = p := by
  obtain ⟨segments⟩ := p
  simp [route, Route.path, Function.comp_def, Segment.segment_hop]

/-! ## Texts in parts -/

/-- A text is a slash in front of parts with slashes between them. -/
structure HasParts (text : String) (parts : List (List Char)) : Prop where
  ne_nil : parts ≠ []
  no_slash : ∀ part ∈ parts, '/' ∉ part
  text_eq : text.toList = '/' :: ['/'].intercalate parts

/-- A part that spells a name. -/
def IsSound (part : List Char) : Prop := part ≠ [] ∧ Segment.WellEscaped part

/-- The text of a path. -/
def IsText (text : String) : Prop :=
  text = "/" ∨ ∃ parts, HasParts text parts ∧ ∀ part ∈ parts, IsSound part

/-- What is wrong with a part of a text, given the position of the part. -/
inductive PartDefect (text : String) (position : Nat) : List Char → BindingError → Prop
  | empty : PartDefect text position [] (.emptySegment text position)
  | escape {part : List Char} (hne : part ≠ []) (h : ¬ Segment.WellEscaped part) :
      PartDefect text position part (.invalidEscape text (String.ofList part))

/-- What is wrong with a text: it does not start with a slash, or else its first defective part. -/
inductive Defect (text : String) : BindingError → Prop
  | notAbsolute (h : text.toList.head? ≠ some '/') : Defect text (.notAbsolute text)
  | part {before after : List (List Char)} {part : List Char} {e : BindingError} (htext : text ≠ "/")
      (hparts : HasParts text (before ++ part :: after)) (hbefore : ∀ part ∈ before, IsSound part)
      (h : PartDefect text before.length part e) : Defect text e

variable {text : String} {found rest : List (List Char)} {e : BindingError} {p : Path}

/-- A text that starts with a slash has parts in just one way. -/
theorem hasParts_iff :
    HasParts text found ↔ ∃ rest, text.toList = '/' :: rest ∧ parts rest = found := by
  constructor
  · intro h
    refine ⟨_, h.text_eq, ?_⟩
    rw [parts_eq_splitOn]
    exact List.splitOn_intercalate '/' h.no_slash h.ne_nil
  · rintro ⟨rest, htext, rfl⟩
    refine ⟨?_, fun part => slash_not_mem_parts, ?_⟩
    · rw [parts_eq_splitOn]
      exact List.splitOn_ne_nil '/' rest
    · rw [htext, parts_eq_splitOn, List.intercalate_splitOn]

/-! ## The first defective part -/

theorem isSound_iff (text : String) (position : Nat) {part : List Char} :
    IsSound part ↔ ∀ e, ¬ PartDefect text position part e := by
  constructor
  · rintro ⟨hne, hescaped⟩ e (_ | ⟨-, h⟩)
    · exact hne rfl
    · exact h hescaped
  · intro h
    have hne : part ≠ [] := by
      rintro rfl
      exact h _ .empty
    refine ⟨hne, ?_⟩
    by_contra hescaped
    exact h _ (.escape hne hescaped)

theorem readParts_cons_error_iff {position : Nat} {part : List Char} :
    readParts text position (part :: rest) = .error e ↔
      PartDefect text position part e ∨
        IsSound part ∧ readParts text (position + 1) rest = .error e := by
  by_cases hempty : part = []
  · subst hempty
    have hread : readParts text position ([] :: rest) = .error (.emptySegment text position) := rfl
    rw [hread, Except.error.injEq]
    constructor
    · rintro rfl
      exact .inl .empty
    · rintro ((_ | ⟨hne, -⟩) | ⟨hsound, -⟩)
      · rfl
      · exact absurd rfl hne
      · exact absurd rfl hsound.1
  rw [readParts, if_neg (by simpa using hempty)]
  cases hname : Segment.unescape? part with
  | none =>
    have hescaped : ¬ Segment.WellEscaped part := by
      rw [← Segment.isSome_unescape?_iff, hname]
      exact Bool.false_ne_true
    rw [Except.error.injEq]
    constructor
    · rintro rfl
      exact .inl (.escape hempty hescaped)
    · rintro ((_ | _) | ⟨hsound, -⟩)
      · exact absurd rfl hempty
      · rfl
      · exact absurd hsound.2 hescaped
  | some name =>
    have hsound : IsSound part := by
      refine ⟨hempty, ?_⟩
      rw [← Segment.isSome_unescape?_iff, hname]
      rfl
    have hne := (Segment.spells_iff.2 hname).ne_nil hempty
    dsimp only
    rw [dif_neg (by simpa using hne)]
    have hnot := (isSound_iff text position).1 hsound e
    cases readParts text (position + 1) rest <;> simp [hsound, hnot]

/-- Parts are refused at the first one that is defective. -/
theorem readParts_error_iff {position : Nat} : readParts text position found = .error e ↔
    ∃ before part after, found = before ++ part :: after ∧ (∀ part ∈ before, IsSound part) ∧
      PartDefect text (position + before.length) part e := by
  induction found generalizing position with
  | nil => simp [readParts]
  | cons first rest ih =>
    rw [readParts_cons_error_iff, ih]
    constructor
    · rintro (h | ⟨hsound, before, part, after, rfl, hbefore, h⟩)
      · exact ⟨[], first, rest, rfl, List.forall_mem_nil _, h⟩
      · refine ⟨first :: before, part, after, rfl, List.forall_mem_cons.2 ⟨hsound, hbefore⟩, ?_⟩
        rwa [List.length_cons, Nat.add_comm before.length, ← Nat.add_assoc]
    · rintro ⟨before, part, after, hfound, hbefore, h⟩
      cases before with
      | nil =>
        cases hfound
        exact .inl h
      | cons sound before =>
        cases hfound
        obtain ⟨hsound, hbefore⟩ := List.forall_mem_cons.1 hbefore
        refine .inr ⟨hsound, before, part, after, rfl, hbefore, ?_⟩
        rwa [List.length_cons, Nat.add_comm before.length, ← Nat.add_assoc] at h

/-! ## Whole texts -/

theorem parse_of_ne_root {rest : List Char} (htext : text.toList = '/' :: rest) (hne : rest ≠ []) :
    parse text = (readParts text 0 (parts rest)).map Path.mk := by
  rw [parse]
  split
  · rename_i hroot
    exact absurd (List.cons.inj (htext.symm.trans hroot)).2 hne
  · rename_i tail _ htail
    cases htext.symm.trans htail
    cases readParts text 0 (parts rest) <;> rfl
  · rename_i hother
    exact (hother rest htext).elim

theorem parse_of_not_absolute (h : text.toList.head? ≠ some '/') :
    parse text = .error (.notAbsolute text) := by
  rw [parse]
  split
  · rename_i htext
    exact absurd (htext ▸ rfl) h
  · rename_i htext
    exact absurd (htext ▸ rfl) h
  · rfl

theorem HasParts.head?_eq (h : HasParts text found) : text.toList.head? = some '/' := by
  rw [h.text_eq, List.head?_cons]

theorem HasParts.unique {other : List (List Char)} (h : HasParts text found)
    (h' : HasParts text other) : found = other := by
  obtain ⟨rest, htext, rfl⟩ := hasParts_iff.1 h
  obtain ⟨rest', htext', rfl⟩ := hasParts_iff.1 h'
  rw [(List.cons.inj (htext.symm.trans htext')).2]

/-- A text is refused for what is wrong with it. -/
theorem parse_error_iff : parse text = .error e ↔ Defect text e := by
  by_cases habsolute : text.toList.head? = some '/'
  · obtain ⟨rest, htext⟩ := List.head?_eq_some_iff.1 habsolute
    by_cases hroot : text = "/"
    · subst hroot
      refine iff_of_false nofun ?_
      rintro (h | h)
      · exact h rfl
      · exact h rfl
    · have hne : rest ≠ [] := by
        rintro rfl
        exact hroot (String.toList_injective htext)
      rw [parse_of_ne_root htext hne, Outcome.map_error_iff, readParts_error_iff]
      constructor
      · rintro ⟨before, part, after, hparts, hbefore, h⟩
        rw [Nat.zero_add] at h
        exact .part hroot (hasParts_iff.2 ⟨rest, htext, hparts⟩) hbefore h
      · rintro (h | ⟨-, hparts, hbefore, h⟩)
        · exact absurd habsolute h
        · refine ⟨_, _, _, (hasParts_iff.2 ⟨rest, htext, rfl⟩).unique hparts, hbefore, ?_⟩
          rwa [Nat.zero_add]
  · rw [parse_of_not_absolute habsolute, Except.error.injEq]
    constructor
    · rintro rfl
      exact .notAbsolute habsolute
    · rintro (_ | ⟨-, hparts, -, -⟩)
      · rfl
      · exact absurd hparts.head?_eq habsolute

theorem hasParts_text (h : p.segments ≠ []) : HasParts p.text (p.segments.map Segment.part) :=
  ⟨by simpa using h, slash_not_mem_map_part _, toList_text h⟩

theorem segments_ne_nil (h : p.text ≠ "/") : p.segments ≠ [] := by
  obtain ⟨segments⟩ := p
  rintro rfl
  exact h rfl

/-- A text is read just when nothing is wrong with it. -/
theorem exists_parse_iff : (∃ p, parse text = .ok p) ↔ IsText text := by
  constructor
  · rintro ⟨p, h⟩
    obtain rfl := parse_ok_iff.1 h
    by_cases hroot : p.text = "/"
    · exact .inl hroot
    · refine .inr ⟨_, hasParts_text (segments_ne_nil hroot), fun part hmem => ?_⟩
      obtain ⟨s, -, rfl⟩ := List.mem_map.1 hmem
      exact ⟨s.part_ne_nil, s.wellEscaped_part⟩
  · intro h
    cases hparse : parse text with
    | ok p => exact ⟨p, rfl⟩
    | error e =>
      rcases h with rfl | ⟨found, hfound, hsound⟩
      · cases hparse
      · rcases parse_error_iff.1 hparse with hhead | ⟨-, hparts, -, hdefect⟩
        · exact absurd hfound.head?_eq hhead
        · obtain rfl := hfound.unique hparts
          have hpart := hsound _ (List.mem_append_right _ List.mem_cons_self)
          exact absurd hdefect ((isSound_iff text _).1 hpart e)

theorem text_route (p : Path) : p.route.text = p.text := by
  rw [← Route.text_path, path_route]

/-- The parts of the text of a path spell the names of its hops. -/
theorem forall₂_spells (p : Path) :
    List.Forall₂ (fun part hop => Segment.Spells part hop.name.toList ∧
      ∀ i, hop = .index i ↔ hop.name = toString i.toNat) (p.segments.map Segment.part) p.route := by
  refine List.forall₂_map_left_iff.2 (List.forall₂_map_right_iff.2 (List.forall₂_same.2 ?_))
  intro s _
  refine ⟨?_, fun i => Segment.hop_eq_index_iff⟩
  rw [Segment.name_hop]
  exact s.spells_part

end Path

/-- Texts are read as paths just when they are written by the grammar, and are refused for the first
thing that is wrong otherwise. What was read is written as it was, part by part, and no other text is
read as the same path. -/
theorem Path.parse_grammatical (text : String) :
    ((∃ p, parse text = .ok p) ↔ IsText text) ∧
    (∀ e, parse text = .error e ↔ Defect text e) ∧
    (∀ p, parse text = .ok p →
      p.text = text ∧ p.route.text = text ∧ (text = "/" → p.route = []) ∧
      (text ≠ "/" → ∃ parts, HasParts text parts ∧ List.Forall₂ (fun part hop =>
        Segment.Spells part hop.name.toList ∧
          ∀ i, hop = .index i ↔ hop.name = toString i.toNat) parts p.route) ∧
      ∀ other q, parse other = .ok q → q.route = p.route → other = text) ∧
    ∀ p : Path, parse p.text = .ok p := by
  refine ⟨exists_parse_iff, fun e => parse_error_iff, fun p h => ?_, fun p => parse_ok_iff.2 rfl⟩
  obtain rfl := parse_ok_iff.1 h
  refine ⟨rfl, text_route p, fun hroot => ?root, fun hroot => ?parts,
    fun other q hq hroute => ?unique⟩
  case root =>
    rw [hroot] at h
    cases h
    rfl
  case parts => exact ⟨_, hasParts_text (segments_ne_nil hroot), forall₂_spells p⟩
  case unique => rw [← parse_ok_iff.1 hq, ← text_route, hroute, text_route]

/-- Two slashes in a row leave an empty part between them. A number with a leading zero is a key, and one
without is an index. -/
theorem Path.parse_grammatical_oddTexts :
    parse "/server//~2" = .error (.emptySegment "/server//~2" 1) ∧
      Defect "/server//~2" (.emptySegment "/server//~2" 1) ∧
      ∃ p, parse "/a~1b/007/7" = .ok p ∧
        p.route = [.key "a/b" (by decide), .key "007" (by decide), .index 7] ∧
        p.route.text = "/a~1b/007/7" := by
  have hempty : parse "/server//~2" = .error (.emptySegment "/server//~2" 1) := rfl
  obtain ⟨-, hdefect, -, -⟩ := parse_grammatical "/server//~2"
  obtain ⟨-, -, hread, -⟩ := parse_grammatical "/a~1b/007/7"
  have hparse : ∃ p, parse "/a~1b/007/7" = .ok p ∧
      p.route = [.key "a/b" (by decide), .key "007" (by decide), .index 7] := ⟨_, rfl, rfl⟩
  obtain ⟨p, hp, hroute⟩ := hparse
  exact ⟨hempty, (hdefect _).1 hempty, p, hp, hroute, (hread p hp).2.1⟩

end CatalogUi
