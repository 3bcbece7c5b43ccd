import CatalogUi.Proofs.Condition

/-!
What a condition says, and what compiling makes of it. A condition and the conditions inside it are
its parts; each part stands at a depth, and each of them can have a defect of its own. Compiling gives
a visibility that says the same as the condition about all data, or else the issues of the defective
parts in the order in which the parts are written.
-/

namespace CatalogUi.Condition

/-! ## What a condition says -/

/-- Something is stored at the path, and it is equal to the value. -/
def HoldsValue (data : Value) (path : String) (value : Value) : Prop :=
  ∃ p v, Path.parse path = .ok p ∧ data.read? p = some v ∧ v.same value = true

mutual

/-- The condition is true of the data. -/
def Holds (data : Value) : Condition → Prop
  | .present path => ∃ p v, Path.parse path = .ok p ∧ data.read? p = some v
  | .equals path value => HoldsValue data path value
  | .differs path value => ¬ HoldsValue data path value
  | .not inner => ¬ Holds data inner
  | .all items => AllHold data items
  | .any items => AnyHolds data items

def AllHold (data : Value) : List Condition → Prop
  | [] => True
  | c :: rest => Holds data c ∧ AllHold data rest

def AnyHolds (data : Value) : List Condition → Prop
  | [] => False
  | c :: rest => Holds data c ∨ AnyHolds data rest

end

/-! ## Parts and their defects -/

mutual

/-- A condition that stands at a depth, and all conditions inside it, each with its own depth, in the
order in which they are written. -/
def parts (depth : Nat) : Condition → List (Nat × Condition)
  | .present path => [(depth, .present path)]
  | .equals path value => [(depth, .equals path value)]
  | .differs path value => [(depth, .differs path value)]
  | .not inner => (depth, .not inner) :: parts (depth + 1) inner
  | .all items => (depth, .all items) :: partsOfItems (depth + 1) items
  | .any items => (depth, .any items) :: partsOfItems (depth + 1) items

def partsOfItems (depth : Nat) : List Condition → List (Nat × Condition)
  | [] => []
  | c :: rest => parts depth c ++ partsOfItems depth rest

end

/-- The path that a condition itself names, if it names one. -/
def ownPath? : Condition → Option String
  | .present path => some path
  | .equals path _ => some path
  | .differs path _ => some path
  | .not _ | .all _ | .any _ => none

/-- The issue of a part: what stands one level too deep is too deep, and what stands higher must
name no unreadable path. What stands deeper still has no issue of its own. -/
def partIssue? (limit : Nat) (part : Nat × Condition) : Option ConditionIssue :=
  if part.1 ≤ limit then
    part.2.ownPath?.bind fun path =>
      match Path.parse path with
      | .ok _ => none
      | .error e => some (.binding e)
  else if part.1 = limit + 1 then some .tooDeep
  else none

mutual

theorem le_depth_of_mem_parts : ∀ {depth : Nat} (c : Condition),
    ∀ part ∈ c.parts depth, depth ≤ part.1
  | depth, .present _ | depth, .equals _ _ | depth, .differs _ _ => by
    simp [parts]
  | depth, .not inner => by
    rw [parts, List.forall_mem_cons]
    exact ⟨Nat.le_refl _, fun part hmem => Nat.le_of_succ_le (le_depth_of_mem_parts inner part hmem)⟩
  | depth, .all items | depth, .any items => by
    rw [parts, List.forall_mem_cons]
    exact ⟨Nat.le_refl _,
      fun part hmem => Nat.le_of_succ_le (le_depth_of_mem_partsOfItems items part hmem)⟩

theorem le_depth_of_mem_partsOfItems : ∀ {depth : Nat} (items : List Condition),
    ∀ part ∈ partsOfItems depth items, depth ≤ part.1
  | _, [] => by simp [partsOfItems]
  | _, c :: rest => by
    rw [partsOfItems, List.forall_mem_append]
    exact ⟨le_depth_of_mem_parts c, le_depth_of_mem_partsOfItems rest⟩

end

/-- A condition is the first of its parts, and the others stand deeper. -/
theorem exists_parts_eq (depth : Nat) (c : Condition) :
    ∃ below, c.parts depth = (depth, c) :: below ∧ ∀ part ∈ below, depth + 1 ≤ part.1 := by
  cases c with
  | present | equals | differs => exact ⟨[], rfl, nofun⟩
  | not inner => exact ⟨_, rfl, le_depth_of_mem_parts inner⟩
  | all items | any items => exact ⟨_, rfl, le_depth_of_mem_partsOfItems items⟩

mutual

/-- The depth of a condition is how far its deepest part lies below its own place. -/
theorem forall_parts_le_iff : ∀ {depth limit : Nat} (c : Condition),
    (∀ part ∈ c.parts depth, part.1 ≤ limit) ↔ depth + c.depth ≤ limit + 1
  | depth, limit, .present _ | depth, limit, .equals _ _ | depth, limit, .differs _ _ => by
    simp [parts, Condition.depth]
  | depth, limit, .not inner => by
    have hpos := inner.depth_pos
    rw [parts, List.forall_mem_cons, forall_parts_le_iff inner, Condition.depth]
    omega
  | depth, limit, .all items | depth, limit, .any items => by
    rw [parts, List.forall_mem_cons, forall_partsOfItems_le_iff items, Condition.depth]
    omega

theorem forall_partsOfItems_le_iff : ∀ {depth limit : Nat} (items : List Condition),
    (∀ part ∈ partsOfItems depth items, part.1 ≤ limit) ↔
      depthOfItems items = 0 ∨ depth + depthOfItems items ≤ limit + 1
  | depth, limit, [] => by simp [partsOfItems, depthOfItems]
  | depth, limit, c :: rest => by
    have hpos := c.depth_pos
    rw [partsOfItems, List.forall_mem_append, forall_parts_le_iff c,
      forall_partsOfItems_le_iff rest, depthOfItems]
    omega

end

mutual

theorem mem_paths_iff : ∀ (depth : Nat) {path : String} (c : Condition),
    path ∈ c.paths ↔ ∃ part ∈ c.parts depth, part.2.ownPath? = some path
  | _, _, .present _ | _, _, .equals _ _ | _, _, .differs _ _ => by
    simp [paths, parts, ownPath?, eq_comm]
  | depth, _, .not inner => by
    rw [paths, parts, mem_paths_iff (depth + 1) inner]
    simp only [List.mem_cons, exists_eq_or_imp]
    exact (or_iff_right nofun).symm
  | depth, _, .all items | depth, _, .any items => by
    rw [paths, parts, mem_pathsOfItems_iff (depth + 1) items]
    simp only [List.mem_cons, exists_eq_or_imp]
    exact (or_iff_right nofun).symm

theorem mem_pathsOfItems_iff : ∀ (depth : Nat) {path : String} (items : List Condition),
    path ∈ pathsOfItems items ↔ ∃ part ∈ partsOfItems depth items, part.2.ownPath? = some path
  | _, _, [] => by simp [pathsOfItems, partsOfItems]
  | depth, _, c :: rest => by
    rw [pathsOfItems, partsOfItems, List.mem_append, mem_paths_iff depth c,
      mem_pathsOfItems_iff depth rest]
    simp only [List.mem_append, or_and_right, exists_or]

end

/-- A condition fits when no part is too deep and every path of a part can be read. -/
theorem fitsWithin_iff {limit : Nat} {c : Condition} : c.FitsWithin limit ↔
    ∀ part ∈ c.parts 1, part.1 ≤ limit ∧
      ∀ path, part.2.ownPath? = some path → ∃ p, Path.parse path = .ok p := by
  have hdepth : c.depth ≤ limit ↔ ∀ part ∈ c.parts 1, part.1 ≤ limit := by
    rw [forall_parts_le_iff]
    omega
  rw [FitsWithin, hdepth]
  simp only [mem_paths_iff 1 c]
  constructor
  · rintro ⟨hle, hreadable⟩ part hmem
    exact ⟨hle part hmem, fun path hpath => hreadable path ⟨part, hmem, hpath⟩⟩
  · intro h
    refine ⟨fun part hmem => (h part hmem).1, ?_⟩
    rintro path ⟨part, hmem, hpath⟩
    exact (h part hmem).2 path hpath

/-! ## The issues of compiling -/

/-- The issues of an outcome; a result has none. -/
def issuesOf {α : Type} : Except (List ConditionIssue) α → List ConditionIssue
  | .ok _ => []
  | .error issues => issues

theorem issuesOf_map {α β : Type} {f : α → β} (x : Except (List ConditionIssue) α) :
    issuesOf (x.map f) = issuesOf x := by
  cases x <;> rfl

theorem issuesOf_compileItems_cons {levels : Nat} {c : Condition} {rest : List Condition} :
    issuesOf (compileItems levels (c :: rest)) =
      issuesOf (c.compile levels) ++ issuesOf (compileItems levels rest) := by
  rw [compileItems]
  cases c.compile levels <;> cases compileItems levels rest <;> simp [issuesOf]

/-- A condition one level too deep has this issue, and what stands below it has none. -/
theorem filterMap_partIssue?_of_tooDeep (limit : Nat) (c : Condition) :
    (c.parts (limit + 1)).filterMap (partIssue? limit) = [.tooDeep] := by
  obtain ⟨below, hparts, hbelow⟩ := exists_parts_eq (limit + 1) c
  have hnone : below.filterMap (partIssue? limit) = [] := by
    refine List.filterMap_eq_nil_iff.2 fun part hmem => ?_
    have hdeep := hbelow part hmem
    rw [partIssue?, if_neg (by omega), if_neg (by omega)]
  rw [hparts, List.filterMap_cons, hnone, partIssue?, if_neg (by simp), if_pos rfl]

/-- A part that is allowed and names no path has no issue of its own. -/
theorem partIssue?_of_group {limit depth : Nat} {c : Condition} (h : depth ≤ limit)
    (hpath : c.ownPath? = none) : partIssue? limit (depth, c) = none := by
  rw [partIssue?, if_pos h, hpath, Option.bind_none]

/-- A part that is allowed and names a path has the issue of reading it. -/
theorem filterMap_partIssue?_of_path {limit depth : Nat} {c : Condition} {path : String}
    (h : depth ≤ limit) (hpath : c.ownPath? = some path) :
    [(depth, c)].filterMap (partIssue? limit) = issuesOf (compilePath path) := by
  rw [List.filterMap_cons, List.filterMap_nil, partIssue?, if_pos h, hpath, Option.bind_some,
    compilePath]
  cases Path.parse path <;> rfl

mutual

/-- Compiling finds the issues of all parts, when as many levels are left as there are down to the
limit. -/
theorem issuesOf_compile : ∀ {levels depth limit : Nat} (c : Condition), depth + levels = limit + 1 →
    issuesOf (c.compile levels) = (c.parts depth).filterMap (partIssue? limit)
  | 0, depth, limit, c, h => by
    obtain rfl : depth = limit + 1 := h
    rw [filterMap_partIssue?_of_tooDeep, compile]
    rfl
  | levels + 1, depth, limit, .present path, h | levels + 1, depth, limit, .equals path _, h
  | levels + 1, depth, limit, .differs path _, h => by
    rw [compile, issuesOf_map, parts]
    exact (filterMap_partIssue?_of_path (by omega) rfl).symm
  | levels + 1, depth, limit, .not inner, h => by
    rw [compile, issuesOf_map, parts, List.filterMap_cons,
      partIssue?_of_group (by omega) rfl]
    exact issuesOf_compile inner (by omega)
  | levels + 1, depth, limit, .all items, h | levels + 1, depth, limit, .any items, h => by
    rw [compile, issuesOf_map, parts, List.filterMap_cons,
      partIssue?_of_group (by omega) rfl]
    exact issuesOf_compileItems items (by omega)

theorem issuesOf_compileItems : ∀ {levels depth limit : Nat} (items : List Condition),
    depth + levels = limit + 1 → issuesOf (compileItems levels items) =
      (partsOfItems depth items).filterMap (partIssue? limit)
  | levels, depth, limit, [], _ => by
    rw [compileItems]
    rfl
  | levels, depth, limit, c :: rest, h => by
    rw [issuesOf_compileItems_cons, partsOfItems, List.filterMap_append, issuesOf_compile c h,
      issuesOf_compileItems rest h]

end

/-! ## The meaning of compiling -/

theorem compilePath_ok {path : String} {p : Path} (h : compilePath path = .ok p) :
    Path.parse path = .ok p := by
  rw [compilePath] at h
  cases hparse : Path.parse path with
  | ok q =>
    rw [hparse] at h
    cases h
    rfl
  | error e =>
    rw [hparse] at h
    cases h

theorem evaluate_equals_iff {data : Value} {path : String} {p : Path} {value : Value}
    (h : Path.parse path = .ok p) :
    (Visibility.equals p value).evaluate data = true ↔ HoldsValue data path value := by
  rw [Visibility.evaluate, HoldsValue]
  simp only [h, Except.ok.injEq, exists_and_left, exists_eq_left']
  cases data.read? p <;> simp

mutual

theorem evaluate_iff_holds {data : Value} : ∀ {levels : Nat} {c : Condition} {v : Visibility},
    c.compile levels = .ok v → (v.evaluate data = true ↔ c.Holds data)
  | 0, c, v, h => by
    rw [compile] at h
    cases h
  | levels + 1, .present path, v, h => by
    rw [compile, Outcome.map_ok_iff] at h
    obtain ⟨p, hp, rfl⟩ := h
    rw [Visibility.evaluate, Holds, Option.isSome_iff_exists]
    simp only [compilePath_ok hp, Except.ok.injEq, exists_and_left, exists_eq_left']
  | levels + 1, .equals path value, v, h => by
    rw [compile, Outcome.map_ok_iff] at h
    obtain ⟨p, hp, rfl⟩ := h
    exact evaluate_equals_iff (compilePath_ok hp)
  | levels + 1, .differs path value, v, h => by
    rw [compile, Outcome.map_ok_iff] at h
    obtain ⟨p, hp, rfl⟩ := h
    rw [Visibility.evaluate, Holds, ← evaluate_equals_iff (compilePath_ok hp)]
    simp
  | levels + 1, .not inner, v, h => by
    rw [compile, Outcome.map_ok_iff] at h
    obtain ⟨w, hw, rfl⟩ := h
    rw [Visibility.evaluate, Holds, ← evaluate_iff_holds hw]
    simp
  | levels + 1, .all items, v, h => by
    rw [compile, Outcome.map_ok_iff] at h
    obtain ⟨vs, hvs, rfl⟩ := h
    exact (evaluateItems_iff hvs).1
  | levels + 1, .any items, v, h => by
    rw [compile, Outcome.map_ok_iff] at h
    obtain ⟨vs, hvs, rfl⟩ := h
    exact (evaluateItems_iff hvs).2

theorem evaluateItems_iff {data : Value} : ∀ {levels : Nat} {items : List Condition}
    {vs : List Visibility}, compileItems levels items = .ok vs →
    (Visibility.evaluateAll data vs = true ↔ AllHold data items) ∧
      (Visibility.evaluateAny data vs = true ↔ AnyHolds data items)
  | levels, [], vs, h => by
    rw [compileItems] at h
    cases h
    simp [Visibility.evaluateAll, Visibility.evaluateAny, AllHold, AnyHolds]
  | levels, c :: rest, vs, h => by
    rw [compileItems] at h
    cases hc : c.compile levels with
    | error issues =>
      rw [hc] at h
      cases hrest : compileItems levels rest <;> rw [hrest] at h <;> cases h
    | ok v =>
      cases hrest : compileItems levels rest with
      | error issues =>
        rw [hc, hrest] at h
        cases h
      | ok more =>
        rw [hc, hrest] at h
        cases h
        obtain ⟨hall, hany⟩ := evaluateItems_iff hrest
        rw [Visibility.evaluateAll, Visibility.evaluateAny, AllHold, AnyHolds,
          Bool.and_eq_true, Bool.or_eq_true, evaluate_iff_holds hc, hall, hany]
        exact ⟨Iff.rfl, Iff.rfl⟩

end

end CatalogUi.Condition

namespace CatalogUi

/-- A condition compiles when no part of it is too deep and all its paths can be read, and then it
says the same about all data as before. Otherwise there are issues: one for every unreadable path at
an allowed depth and one for every part that is one level too deep, as they are written. -/
theorem Condition.compile_faithful (c : Condition) (limit : Nat) :
    ((∃ v, c.compile limit = .ok v) ↔ ∀ part ∈ c.parts 1, part.1 ≤ limit ∧
      ∀ path, part.2.ownPath? = some path → ∃ p, Path.parse path = .ok p) ∧
    (∀ v, c.compile limit = .ok v → ∀ data, v.evaluate data = true ↔ c.Holds data) ∧
    ∀ issues, c.compile limit = .error issues →
      issues ≠ [] ∧ issues = (c.parts 1).filterMap (partIssue? limit) := by
  refine ⟨?compiles, fun v h data => evaluate_iff_holds h, fun issues h => ⟨?_, ?reported⟩⟩
  case compiles => rw [compile_ok_iff, fitsWithin_iff]
  case reported =>
    rw [← issuesOf_compile c (Nat.add_comm 1 limit), h, issuesOf]
  exact compile_error_ne_nil h

namespace Sample

/-- The box is not open. -/
def notOpen : Condition := .not (.equals "/open" (.bool true))

/-- A path that cannot be read, and a path that cannot be reached within two levels. -/
def defective : Condition := .all [.present "server", .not (.present "/ok")]

end Sample

/-- Where nothing is stored the box is not open, and both defects are reported in their order. -/
theorem Condition.compile_faithful_notOpen :
    (∃ v, Sample.notOpen.compile 2 = .ok v ∧
      (v.evaluate .emptyObject = true ↔ Sample.notOpen.Holds .emptyObject)) ∧
    ∃ issues, Sample.defective.compile 2 = .error issues ∧
      issues = [.binding (.notAbsolute "server"), .tooDeep] := by
  obtain ⟨-, hmeaning, -⟩ := compile_faithful Sample.notOpen 2
  obtain ⟨-, -, hissues⟩ := compile_faithful Sample.defective 2
  have hcompile : ∃ v, Sample.notOpen.compile 2 = .ok v := ⟨_, rfl⟩
  obtain ⟨v, hv⟩ := hcompile
  have herror : ∃ issues, Sample.defective.compile 2 = .error issues := ⟨_, rfl⟩
  obtain ⟨issues, hi⟩ := herror
  refine ⟨⟨v, hv, hmeaning v hv _⟩, issues, hi, (hissues issues hi).2.trans ?_⟩
  rfl

end CatalogUi
