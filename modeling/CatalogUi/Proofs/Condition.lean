import CatalogUi.Condition
import CatalogUi.Proofs.Outcome

/-!
Which conditions compile: those with readable paths only that are not nested too deep. A condition
that does not compile always has an issue.
-/

namespace CatalogUi.Condition

open Outcome

mutual

/-- How deep a condition is nested, itself included. -/
def depth : Condition → Nat
  | .present _ => 1
  | .equals _ _ => 1
  | .differs _ _ => 1
  | .not inner => depth inner + 1
  | .all items => depthOfItems items + 1
  | .any items => depthOfItems items + 1

def depthOfItems : List Condition → Nat
  | [] => 0
  | c :: rest => max (depth c) (depthOfItems rest)

end

mutual

/-- The texts of all paths in a condition, from left to right. -/
def paths : Condition → List String
  | .present path => [path]
  | .equals path _ => [path]
  | .differs path _ => [path]
  | .not inner => paths inner
  | .all items => pathsOfItems items
  | .any items => pathsOfItems items

def pathsOfItems : List Condition → List String
  | [] => []
  | c :: rest => paths c ++ pathsOfItems rest

end

/-- All paths of a condition can be read, and nothing in it lies deeper than the given level. -/
def FitsWithin (levels : Nat) (c : Condition) : Prop :=
  c.depth ≤ levels ∧ ∀ path ∈ c.paths, ∃ p, Path.parse path = .ok p

theorem depth_pos (c : Condition) : 0 < c.depth := by
  cases c <;> simp [depth]

theorem compilePath_ok_iff (path : String) :
    (∃ p, compilePath path = .ok p) ↔ ∃ p, Path.parse path = .ok p := by
  rw [compilePath]
  cases Path.parse path with
  | ok p => simp
  | error e => simp

theorem compilePath_error_ne_nil {path : String} {issues : List ConditionIssue}
    (h : compilePath path = .error issues) : issues ≠ [] := by
  rw [compilePath] at h
  cases hparse : Path.parse path with
  | ok p =>
    rw [hparse] at h
    cases h
  | error e =>
    rw [hparse] at h
    cases h
    exact List.cons_ne_nil _ _

mutual

/-- A condition compiles just when its paths can be read and it is not nested too deep. -/
theorem compile_ok_iff : ∀ (levels : Nat) (c : Condition),
    (∃ v, c.compile levels = .ok v) ↔ c.FitsWithin levels
  | 0, c => by
    have hdepth := c.depth_pos
    rw [compile, FitsWithin]
    constructor
    · rintro ⟨v, h⟩
      cases h
    · rintro ⟨h, -⟩
      omega
  | levels + 1, .present path | levels + 1, .equals path _ | levels + 1, .differs path _ => by
    rw [compile, exists_map_ok_iff, compilePath_ok_iff]
    simp [FitsWithin, depth, paths]
  | levels + 1, .not inner => by
    rw [compile, exists_map_ok_iff, compile_ok_iff levels inner]
    simp [FitsWithin, depth, paths]
  | levels + 1, .all items | levels + 1, .any items => by
    rw [compile, exists_map_ok_iff, compileItems_ok_iff levels items]
    simp [FitsWithin, depth, paths]

theorem compileItems_ok_iff : ∀ (levels : Nat) (items : List Condition),
    (∃ vs, compileItems levels items = .ok vs) ↔
      depthOfItems items ≤ levels ∧ ∀ path ∈ pathsOfItems items, ∃ p, Path.parse path = .ok p
  | levels, [] => by
    rw [compileItems]
    simp [depthOfItems, pathsOfItems]
  | levels, c :: rest => by
    have hsplit : (∃ vs, compileItems levels (c :: rest) = .ok vs) ↔
        (∃ v, c.compile levels = .ok v) ∧ ∃ vs, compileItems levels rest = .ok vs := by
      rw [compileItems]
      cases c.compile levels <;> cases compileItems levels rest <;> simp
    rw [hsplit, compile_ok_iff levels c, compileItems_ok_iff levels rest]
    simp only [FitsWithin, depthOfItems, pathsOfItems, List.mem_append, Nat.max_le]
    constructor
    · rintro ⟨⟨hc, hpaths⟩, hrest, hmore⟩
      exact ⟨⟨hc, hrest⟩, fun path hmem => hmem.elim (hpaths path) (hmore path)⟩
    · rintro ⟨⟨hc, hrest⟩, hpaths⟩
      exact ⟨⟨hc, fun path hmem => hpaths path (.inl hmem)⟩, hrest,
        fun path hmem => hpaths path (.inr hmem)⟩

end

mutual

/-- There is an issue whenever a condition does not compile. -/
theorem compile_error_ne_nil : ∀ {levels : Nat} {c : Condition} {issues : List ConditionIssue},
    c.compile levels = .error issues → issues ≠ []
  | 0, c, issues, h => by
    rw [compile] at h
    cases h
    exact List.cons_ne_nil _ _
  | levels + 1, .present path, issues, h | levels + 1, .equals path _, issues, h
  | levels + 1, .differs path _, issues, h => by
    rw [compile, map_error_iff] at h
    exact compilePath_error_ne_nil h
  | levels + 1, .not inner, issues, h => by
    rw [compile, map_error_iff] at h
    exact compile_error_ne_nil h
  | levels + 1, .all items, issues, h | levels + 1, .any items, issues, h => by
    rw [compile, map_error_iff] at h
    exact compileItems_error_ne_nil h

theorem compileItems_error_ne_nil : ∀ {levels : Nat} {items : List Condition}
    {issues : List ConditionIssue}, compileItems levels items = .error issues → issues ≠ []
  | levels, [], issues, h => by
    rw [compileItems] at h
    cases h
  | levels, c :: rest, issues, h => by
    rw [compileItems] at h
    cases hc : c.compile levels with
    | ok v =>
      cases hrest : compileItems levels rest with
      | ok vs =>
        rw [hc, hrest] at h
        cases h
      | error more =>
        rw [hc, hrest] at h
        cases h
        exact compileItems_error_ne_nil hrest
    | error before =>
      have hne := compile_error_ne_nil hc
      cases hrest : compileItems levels rest with
      | ok vs =>
        rw [hc, hrest] at h
        cases h
        exact hne
      | error more =>
        rw [hc, hrest] at h
        cases h
        exact List.append_ne_nil_of_left_ne_nil hne _

end

end CatalogUi.Condition
