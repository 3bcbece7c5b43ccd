import CatalogUi.Store
import CatalogUi.Proofs.Notation
import CatalogUi.Proofs.Parts
import CatalogUi.Proofs.Spelling
import CatalogUi.Proofs.Write

/-!
Addresses of the parts of the data. A route into data names a field of each object and an item of each
sequence on the way; any name will do that is not empty, also one with slashes and tildes in it or one
that looks like a number. Every route has a path that reads what stands at its end, and what a path
reads stands at the end of a route with the same text.
-/

namespace CatalogUi

/-- A step of a route into data. Names are not empty, and indices are those that fit a word. -/
inductive Hop where
  | key (name : String) (name_ne : name ≠ "")
  | index (i : UInt64)

namespace Segment

/-! ## Numbers as names -/

theorem decimalValue_toDigits (n : Nat) : decimalValue (Nat.toDigits 10 n) = n := by
  calc decimalValue (Nat.toDigits 10 n)
    _ = Nat.ofDigitChars 10 (Nat.toDigits 10 n) 0 := by
        unfold decimalValue Nat.ofDigitChars
        congr 1
        funext m c
        rw [Nat.mul_comm]
    _ = n := Nat.ofDigitChars_ten_toDigits

theorem isDigit_of_mem_toDigits {n : Nat} {c : Char} (h : c ∈ Nat.toDigits 10 n) :
    c.isDigit = true :=
  Nat.isDigit_of_mem_toDigits (by decide) (by decide) h

theorem isCanonical_toDigits (n : Nat) : isCanonical (Nat.toDigits 10 n) = true := by
  cases hdigits : Nat.toDigits 10 n with
  | nil => exact absurd hdigits Nat.toDigits_ne_nil
  | cons first rest =>
    have hall : ∀ c ∈ first :: rest, c.isDigit = true := by
      intro c hc
      rw [← hdigits] at hc
      exact isDigit_of_mem_toDigits hc
    obtain ⟨hfirst, hrest⟩ := List.forall_mem_cons.1 hall
    by_cases hzero : first = '0'
    · subst hzero
      rw [(Json.eq_zero_of_toDigits hdigits).2]
      rfl
    · simp [isCanonical, hzero, hfirst, List.all_eq_true.2 hrest]

theorem escape_of_digits {name : List Char} (h : ∀ c ∈ name, c.isDigit = true) :
    escape name = name := by
  induction name with
  | nil => rfl
  | cons c rest ih =>
    obtain ⟨hc, hrest⟩ := List.forall_mem_cons.1 h
    rw [escape, ih hrest]
    · rintro rfl
      cases hc
    · rintro rfl
      cases hc

/-- The segment is taken as a key, or as the place in a sequence that it addresses. -/
def TakenAs (s : Segment) : Hop → Prop
  | .key name _ => s.name = name
  | .index i => s.index? = some i.toNat

end Segment

namespace Hop

def step : Hop → Step
  | .key name _ => .field name
  | .index i => .item i.toNat

/-- A key is written with its tildes and slashes escaped, an index in decimal. -/
def text : Hop → String
  | .key name _ => String.ofList (Segment.escape name.toList)
  | .index i => toString i.toNat

/-- The segment that is written like the hop. -/
def segment : Hop → Segment
  | .key name name_ne => ⟨name, name_ne⟩
  | .index i => ⟨toString i.toNat, fun h =>
      Nat.toDigits_ne_nil (Nat.toList_repr.symm.trans (String.toList_eq_nil_iff.2 h))⟩

theorem toList_text (hop : Hop) : hop.text.toList = hop.segment.part := by
  cases hop with
  | key name => exact String.toList_ofList
  | index i =>
    show i.toNat.repr.toList = Segment.escape i.toNat.repr.toList
    rw [Nat.toList_repr, Segment.escape_of_digits fun c => Segment.isDigit_of_mem_toDigits]

theorem index?_segment (i : UInt64) : (index i).segment.index? = some i.toNat := by
  have hdigits : (index i).segment.name.toList = Nat.toDigits 10 i.toNat := Nat.toList_repr
  rw [Segment.index?_eq_some_iff, hdigits, Segment.decimalValue_toDigits]
  exact ⟨Segment.isCanonical_toDigits _, i.toNat_lt, rfl⟩

theorem takenAs_segment (hop : Hop) : hop.segment.TakenAs hop := by
  cases hop with
  | key => rfl
  | index i => exact index?_segment i

end Hop

/-- A way into data, from the outside in. -/
abbrev Route := List Hop

namespace Route

def place (route : Route) : Place := route.map Hop.step

/-- A slash, and the hops with slashes between them. -/
def text (route : Route) : String := "/" ++ "/".intercalate (route.map Hop.text)

def path (route : Route) : Path := ⟨route.map Hop.segment⟩

theorem text_path (route : Route) : route.path.text = route.text := by
  by_cases h : route = []
  · subst h
    rfl
  · apply String.toList_injective
    have hsegments : route.path.segments ≠ [] := by simpa [path] using h
    calc route.path.text.toList
      _ = '/' :: ['/'].intercalate ((route.map Hop.segment).map Segment.part) :=
          Path.toList_text hsegments
      _ = '/' :: ['/'].intercalate ((route.map Hop.text).map String.toList) := by
          rw [List.map_map, List.map_map]
          congr 3
          funext hop
          exact hop.toList_text.symm
      _ = route.text.toList := by
          rw [text, String.toList_append, String.toList_intercalate]
          rfl

end Route

namespace Value

variable {v x : Value}

theorem child?_segment {hop : Hop} (h : v.part? hop.step = some x) :
    v.child? hop.segment = some x := by
  cases v with
  | object entries =>
    cases hop with
    | key => exact h
    | index => cases h
  | array items =>
    cases hop with
    | key => cases h
    | index i =>
      rw [child?, Hop.index?_segment]
      exact h
  | null | bool | number | string => cases h

/-- What stands one segment further down is one hop away, and the hop is written like the segment. -/
theorem exists_hop {s : Segment} (h : v.child? s = some x) :
    ∃ hop : Hop, hop.segment = s ∧ v.part? hop.step = some x := by
  cases v with
  | object entries => exact ⟨.key s.name s.name_ne, rfl, h⟩
  | array items =>
    -- A number has one decimal only, so the segment is the one that the index is written as.
    obtain ⟨i, hi, hitem⟩ := Option.bind_eq_some_iff.1 h
    obtain ⟨-, hlt, hvalue⟩ := Segment.index?_eq_some_iff.1 hi
    rw [hvalue] at hlt
    have hnat : (UInt64.ofNatLT i hlt).toNat = i := UInt64.toNat_ofNatLT
    have hsegment : (Hop.index (UInt64.ofNatLT i hlt)).segment.index? = some i := by
      rw [Hop.index?_segment, hnat]
    refine ⟨.index (UInt64.ofNatLT i hlt), Segment.eq_of_index?_eq hsegment hi, ?_⟩
    show items[(UInt64.ofNatLT i hlt).toNat]? = some x
    rw [hnat]
    exact hitem
  | null | bool | number | string => cases h

theorem get?_path {route : Route} (h : v.at? route.place = some x) :
    v.get? route.path.segments = some x := by
  induction route generalizing v with
  | nil =>
    cases h
    cases x <;> rfl
  | cons hop rest ih =>
    obtain ⟨inner, hinner, hrest⟩ := at?_cons_eq_some_iff.1 h
    rw [Route.path, List.map_cons, get?_cons, child?_segment hinner]
    exact ih hrest

theorem exists_route {segments : List Segment} (h : v.get? segments = some x) :
    ∃ route : Route, route.path = ⟨segments⟩ ∧ v.at? route.place = some x := by
  induction segments generalizing v with
  | nil =>
    refine ⟨[], rfl, ?_⟩
    rw [← h]
    cases v <;> rfl
  | cons s rest ih =>
    rw [get?_cons] at h
    obtain ⟨inner, hinner, hrest⟩ := Option.bind_eq_some_iff.1 h
    obtain ⟨hop, rfl, hhop⟩ := exists_hop hinner
    obtain ⟨route, hroute, hat⟩ := ih hrest
    cases hroute
    exact ⟨hop :: route, rfl, at?_cons_eq_some_iff.2 ⟨inner, hhop, hat⟩⟩

end Value

/-- Every route into the data of a store is written as a path that reads just what stands at its end.
Conversely, what a path reads stands at the end of a route that is written like the path, on which
each segment is taken as a key into an object or as an index into a sequence. -/
theorem Store.read?_addresses {σ : Type} (s : Store σ) :
    (∀ (route : Route) (x : Value), s.data.at? route.place = some x →
      ∃ p, Path.parse route.text = .ok p ∧ s.read? p = some x) ∧
    ∀ (text : String) (p : Path) (x : Value), Path.parse text = .ok p → s.read? p = some x →
      ∃ route : Route, route.text = text ∧ List.Forall₂ Segment.TakenAs p.segments route ∧
        s.data.at? route.place = some x := by
  constructor
  · intro route x h
    exact ⟨route.path, Path.parse_ok_iff.2 route.text_path, Value.get?_path h⟩
  · intro text p x hparse hread
    obtain ⟨route, hroute, hat⟩ := Value.exists_route hread
    obtain rfl : route.path = p := hroute
    refine ⟨route, ?_, ?_, hat⟩
    · rw [← route.text_path]
      exact Path.parse_ok_iff.1 hparse
    · refine List.forall₂_map_left_iff.2 (List.forall₂_same.2 fun hop _ => ?_)
      exact hop.takenAs_segment

namespace Sample

/-- Data with a slash and a tilde in its names, and with names that look like numbers. -/
def oddNames : Value :=
  .object [("a/b", .object [("007", .array [.bool true, .object [("~", .string "deep")]])]),
    ("0", .string "zero")]

/-- A route through all of them. -/
def oddRoute : Route :=
  [.key "a/b" (by decide), .key "007" (by decide), .index 1, .key "~" (by decide)]

end Sample

/-- The route through the odd names is written with escapes, and a digit is a key in an object. -/
theorem Store.read?_addresses_oddNames :
    Route.text Sample.oddRoute = "/a~1b/007/1/~0" ∧
      (∃ p, Path.parse "/a~1b/007/1/~0" = .ok p ∧
        (Store.create Sample.oddNames ()).read? p = some (.string "deep")) ∧
      ∃ route : Route, route.text = "/0" ∧ Sample.oddNames.at? route.place = some (.string "zero") := by
  have htext : Route.text Sample.oddRoute = "/a~1b/007/1/~0" := by decide
  obtain ⟨hreads, hroutes⟩ := read?_addresses (Store.create Sample.oddNames ())
  refine ⟨htext, ?_, ?_⟩
  · rw [← htext]
    exact hreads Sample.oddRoute (.string "deep") rfl
  · obtain ⟨route, hroute, -, hat⟩ := hroutes "/0" ⟨[⟨"0", by decide⟩]⟩ (.string "zero") rfl rfl
    exact ⟨route, hroute, hat⟩

end CatalogUi
