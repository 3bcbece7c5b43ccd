import CatalogUi.Proofs.Acceptance
import CatalogUi.Proofs.Descent
import CatalogUi.Proofs.Exactness
import CatalogUi.Proofs.Visibility

/-!
What the report on a tree says, and in which order. The findings are those of a depth-first search by
recursion from the root, followed by what the same kind of search finds below the elements that it
left out; in front of them stand the findings about keys and about the root.
-/

namespace CatalogUi

namespace Validation

/-! ## Single elements -/

/-- The findings of an outcome; a result has none. -/
def findingsOf {α : Type} : Except (List Finding) α → List Finding
  | .ok _ => []
  | .error findings => findings

/-- The findings about an element on its own: that its type is not known, or else the errors of its
props, then children that its type does not accept, then the issues of its condition. -/
def ownFindings (catalog : Catalog) (config : Config) (e : Element) : List Finding :=
  match catalog.component? e.type with
  | none => [.structural (.unknownType e.key e.type)]
  | some spec =>
    (Checked.errors (spec.props.validate config.rejectUnknownProps (some e.props))).map
        (.props e.key) ++
      (if spec.acceptsChildren = false ∧ e.children ≠ [] then
        [.structural (.childrenNotAllowed e.key e.type e.children.length)] else []) ++
      (e.visible.toList.flatMap fun c =>
        Condition.issuesOf (c.compile config.maxConditionDepth)).map fun
          | .binding error => .binding e.key error
          | .tooDeep => .structural (.conditionTooDeep e.key config.maxConditionDepth)

section Element

variable {catalog : Catalog} {config : Config} {e : Element} {spec : ComponentSpec}

theorem findingsOf_checkProps (hspec : catalog.component? e.type = some spec) :
    findingsOf (checkProps catalog config e) =
      (Checked.errors (spec.props.validate config.rejectUnknownProps (some e.props))).map
        (.props e.key) := by
  rw [checkProps, Catalog.validateProps, hspec]
  dsimp only
  cases spec.props.validate config.rejectUnknownProps (some e.props) with
  | ok v => cases v <;> rfl
  | error errors => rfl

theorem findingsOf_checkCondition :
    findingsOf (checkCondition config e) =
      (e.visible.toList.flatMap fun c =>
        Condition.issuesOf (c.compile config.maxConditionDepth)).map fun
          | .binding error => .binding e.key error
          | .tooDeep => .structural (.conditionTooDeep e.key config.maxConditionDepth) := by
  rw [checkCondition]
  cases e.visible with
  | none => rfl
  | some c =>
    dsimp only [Option.toList]
    rw [List.flatMap_singleton]
    cases c.compile config.maxConditionDepth <;> rfl

theorem childrenFindings_eq :
    childrenFindings spec e =
      if spec.acceptsChildren = false ∧ e.children ≠ [] then
        [.structural (.childrenNotAllowed e.key e.type e.children.length)] else [] := by
  rw [childrenFindings]
  simp

/-- The check of an element finds what its parts find, one after the other. -/
theorem elementFindings_eq : elementFindings catalog config e = ownFindings catalog config e := by
  have heq : elementFindings catalog config e = findingsOf (checkElement catalog config e) := by
    rw [elementFindings]
    cases checkElement catalog config e <;> rfl
  rw [heq, ownFindings, checkElement]
  cases hkind : catalog.kind? e.type with
  | none =>
    rw [Catalog.component?_eq_bind, hkind]
    rfl
  | some kind =>
    obtain ⟨spec, hspec, htype⟩ := Catalog.exists_componentOfKind? hkind
    simp only [hspec, htype]
    rw [← findingsOf_checkProps htype, ← findingsOf_checkCondition, ← childrenFindings_eq]
    cases checkProps catalog config e <;> cases checkCondition config e <;>
      cases childrenFindings spec e <;> simp [findingsOf]

end Element

/-! ## The search from the root -/

variable (catalog : Catalog) (config : Config) (t : Tree)

/-- What a depth-first search finds at some children of an element, and below them. There is a path
from the root down to the element, and some elements were visited before; in the end more are. -/
inductive Search : List String → List String → String → List String → List Finding → List String → Prop
  | done {path visited : List String} {parent : String} : Search path visited parent [] [] visited
  | cycle {path visited final rest : List String} {parent child : String} {found : List Finding}
      (hpath : child ∈ path) (hrest : Search path visited parent rest found final) :
      Search path visited parent (child :: rest) (.structural (.cycle parent child) :: found) final
  | shared {path visited final rest : List String} {parent child : String} {found : List Finding}
      (hpath : child ∉ path) (hvisited : child ∈ visited)
      (hrest : Search path visited parent rest found final) :
      Search path visited parent (child :: rest)
        (.structural (.sharedChild parent child) :: found) final
  | missing {path visited final rest : List String} {parent child : String} {found : List Finding}
      (hpath : child ∉ path) (hnew : child ∉ visited) (hchild : t.element? child = none)
      (hrest : Search path visited parent rest found final) :
      Search path visited parent (child :: rest)
        (.structural (.missingChild parent child) :: found) final
  /-- A new element: whether it declares the parent, the element itself, and its children. -/
  | element {path visited between final rest : List String} {parent child : String} {e : Element}
      {below after : List Finding} (hpath : child ∉ path) (hnew : child ∉ visited)
      (hchild : t.element? child = some e)
      (hbelow : Search (child :: path) (child :: visited) child e.children below between)
      (hrest : Search path between parent rest after final) :
      Search path visited parent (child :: rest)
        ((if e.parentKey = some parent then []
          else [.structural (.parentMismatch parent child e.parentKey)]) ++
          ownFindings catalog config e ++ below ++ after) final

/-! ## The search among the elements that are left -/

/-- What a depth-first search finds at some children of an element that the root does not reach: new
elements are orphans, and a child on the path closes a cycle. -/
inductive StraySearch :
    List String → List String → String → List String → List Finding → List String → Prop
  | done {path visited : List String} {parent : String} :
      StraySearch path visited parent [] [] visited
  | cycle {path visited final rest : List String} {parent child : String} {found : List Finding}
      (hpath : child ∈ path) (hrest : StraySearch path visited parent rest found final) :
      StraySearch path visited parent (child :: rest)
        (.structural (.cycle parent child) :: found) final
  | nothing {path visited final rest : List String} {parent child : String} {found : List Finding}
      (hpath : child ∉ path) (h : child ∈ visited ∨ t.element? child = none)
      (hrest : StraySearch path visited parent rest found final) :
      StraySearch path visited parent (child :: rest) found final
  | orphan {path visited between final rest : List String} {parent child : String} {e : Element}
      {below after : List Finding} (hpath : child ∉ path) (hnew : child ∉ visited)
      (hchild : t.element? child = some e)
      (hbelow : StraySearch (child :: path) (child :: visited) child e.children below between)
      (hrest : StraySearch path between parent rest after final) :
      StraySearch path visited parent (child :: rest)
        (.structural (.orphan child) :: (below ++ after)) final

/-- What is found when a search is started at each of some elements that was not visited by then. -/
inductive Leftover : List String → List String → List Finding → Prop
  | done {visited : List String} : Leftover visited [] []
  | visited {visited rest : List String} {key : String} {found : List Finding}
      (hvisited : key ∈ visited) (hrest : Leftover visited rest found) :
      Leftover visited (key :: rest) found
  | orphan {visited between rest : List String} {key : String} {e : Element}
      {below after : List Finding} (hnew : key ∉ visited) (hkey : t.element? key = some e)
      (hbelow : StraySearch t [key] (key :: visited) key e.children below between)
      (hrest : Leftover between rest after) :
      Leftover visited (key :: rest) (.structural (.orphan key) :: (below ++ after))

/-- The elements that stand under another key than they declare. -/
def misplaced : List Finding :=
  (t.elements.filter fun entry => entry.2.key ≠ entry.1).map fun entry =>
    .structural (.keyMismatch entry.1 entry.2.key)

/-- The findings about a tree in their order. -/
inductive Reports : List Finding → Prop
  | tooLarge (hsize : config.maxNodes < t.elements.length) :
      Reports [.structural (.nodeCountExceeded t.elements.length config.maxNodes)]
  | rootless (hsize : t.elements.length ≤ config.maxNodes) (hroot : t.element? t.root = none) :
      Reports (misplaced t ++ [.structural (.missingRoot t.root)])
  | searched {root : Element} {visited : List String} {found stray : List Finding}
      (hsize : t.elements.length ≤ config.maxNodes) (hroot : t.element? t.root = some root)
      (hsearch : Search catalog config t [t.root] [t.root] t.root root.children found visited)
      (hleft : Leftover t visited (Entries.names t.elements) stray) :
      Reports (misplaced t ++
        (root.parentKey.toList.map fun parent => .structural (.rootHasParent t.root parent)) ++
        ownFindings catalog config root ++ found ++ stray)

variable {catalog config t}

/-! ## The walk searches -/

variable {path visited final children : List String} {key : String} {visits : List Walk.Visit}
  {e : Element} {found : List Finding}

theorem get?_links_eq_none_iff : Entries.get? t.links key = none ↔ t.element? key = none := by
  rw [Tree.get?_links, Option.map_eq_none_iff]

theorem get?_links_of_element? (h : t.element? key = some e) :
    Entries.get? t.links key = some e.children := by
  rw [Tree.get?_links, h, Option.map_some]

theorem exists_element_of_links (h : Entries.get? t.links key = some children) :
    ∃ e, t.element? key = some e ∧ e.children = children := by
  rw [Tree.get?_links] at h
  exact Option.map_eq_some_iff.1 h

theorem reachedFindings_first {parent : String} (hkey : t.element? key = some e) :
    reachedFindings catalog config t (.first (some parent) key) =
      (if e.parentKey = some parent then []
        else [.structural (.parentMismatch parent key e.parentKey)]) ++
        ownFindings catalog config e := by
  rw [reachedFindings, hkey, ← elementFindings_eq]
  rfl

/-- The findings at the visits of a descent are those of a search. -/
theorem search_of_descent (h : Walk.Descent t.links path visited key children visits final) :
    Search catalog config t path visited key children
      (visits.flatMap (reachedFindings catalog config t)) final := by
  induction h with
  | done => exact .done
  | cycle hpath _ ih => exact .cycle hpath ih
  | again hpath hvisited _ ih => exact .shared hpath hvisited ih
  | missing hpath hnew hchild _ ih =>
    exact .missing hpath hnew (get?_links_eq_none_iff.1 hchild) ih
  | first hpath hnew hchild _ _ ihbelow ihrest =>
    obtain ⟨e, he, rfl⟩ := exists_element_of_links hchild
    rw [List.flatMap_cons, reachedFindings_first he, List.flatMap_append, ← List.append_assoc]
    exact .element hpath hnew he ihbelow ihrest

theorem exists_descent_of_search
    (h : Search catalog config t path visited key children found final) :
    ∃ visits, Walk.Descent t.links path visited key children visits final ∧
      visits.flatMap (reachedFindings catalog config t) = found := by
  induction h with
  | done => exact ⟨[], .done, rfl⟩
  | cycle hpath _ ih =>
    obtain ⟨visits, hvisits, rfl⟩ := ih
    exact ⟨_, .cycle hpath hvisits, rfl⟩
  | shared hpath hvisited _ ih =>
    obtain ⟨visits, hvisits, rfl⟩ := ih
    exact ⟨_, .again hpath hvisited hvisits, rfl⟩
  | missing hpath hnew hchild _ ih =>
    obtain ⟨visits, hvisits, rfl⟩ := ih
    exact ⟨_, .missing hpath hnew (get?_links_eq_none_iff.2 hchild) hvisits, rfl⟩
  | element hpath hnew hchild _ _ ihbelow ihrest =>
    obtain ⟨below, hbelow, rfl⟩ := ihbelow
    obtain ⟨after, hafter, rfl⟩ := ihrest
    refine ⟨_, .first hpath hnew (get?_links_of_element? hchild) hbelow hafter, ?_⟩
    rw [List.flatMap_cons, reachedFindings_first hchild, List.flatMap_append, ← List.append_assoc]

theorem detachedFindings_first {parent : Option String} :
    (.first parent key :: visits).flatMap detachedFindings =
      .structural (.orphan key) :: visits.flatMap detachedFindings := rfl

theorem straySearch_of_descent (h : Walk.Descent t.links path visited key children visits final) :
    StraySearch t path visited key children (visits.flatMap detachedFindings) final := by
  induction h with
  | done => exact .done
  | cycle hpath _ ih => exact .cycle hpath ih
  | again hpath hvisited _ ih => exact .nothing hpath (.inl hvisited) ih
  | missing hpath _ hchild _ ih => exact .nothing hpath (.inr (get?_links_eq_none_iff.1 hchild)) ih
  | first hpath hnew hchild _ _ ihbelow ihrest =>
    obtain ⟨e, he, rfl⟩ := exists_element_of_links hchild
    rw [detachedFindings_first, List.flatMap_append]
    exact .orphan hpath hnew he ihbelow ihrest

theorem exists_descent_of_straySearch
    (h : StraySearch t path visited key children found final) :
    ∃ visits, Walk.Descent t.links path visited key children visits final ∧
      visits.flatMap detachedFindings = found := by
  induction h with
  | done => exact ⟨[], .done, rfl⟩
  | cycle hpath _ ih =>
    obtain ⟨visits, hvisits, rfl⟩ := ih
    exact ⟨_, .cycle hpath hvisits, rfl⟩
  | @nothing _ visited _ _ _ child _ hpath h _ ih =>
    obtain ⟨visits, hvisits, rfl⟩ := ih
    by_cases hvisited : child ∈ visited
    · exact ⟨_, .again hpath hvisited hvisits, rfl⟩
    · have hchild := get?_links_eq_none_iff.2 (h.resolve_left hvisited)
      exact ⟨_, .missing hpath hvisited hchild hvisits, rfl⟩
  | orphan hpath hnew hchild _ _ ihbelow ihrest =>
    obtain ⟨below, hbelow, rfl⟩ := ihbelow
    obtain ⟨after, hafter, rfl⟩ := ihrest
    refine ⟨_, .first hpath hnew (get?_links_of_element? hchild) hbelow hafter, ?_⟩
    rw [detachedFindings_first, List.flatMap_append]

theorem leftover_of_swept {keys : List String} (h : Walk.Swept t.links visited keys visits) :
    Leftover t visited keys (visits.flatMap detachedFindings) := by
  induction h with
  | done => exact .done
  | skip hvisited _ ih => exact .visited hvisited ih
  | start hstart _ ih =>
    obtain ⟨e, he, rfl⟩ := exists_element_of_links hstart.children_eq
    rw [detachedFindings_first, List.flatMap_append]
    exact .orphan hstart.new he (straySearch_of_descent hstart.descent) ih

theorem eq_of_leftover {keys : List String} (h : Leftover t visited keys found) :
    found = (Walk.sweep t.links visited keys).flatMap detachedFindings := by
  induction h with
  | done => rfl
  | visited hvisited _ ih => rw [Walk.sweep, if_pos hvisited, ih]
  | orphan hnew hkey hbelow _ ih =>
    obtain ⟨below, hdescent, rfl⟩ := exists_descent_of_straySearch hbelow
    have hstart : Walk.Start t.links _ _ _ below _ := ⟨hnew, get?_links_of_element? hkey, hdescent⟩
    rw [hstart.sweep_eq, detachedFindings_first, List.flatMap_append, ih]

/-! ## Reports -/

theorem keyFindings_eq : keyFindings t = misplaced t := by
  rw [keyFindings, misplaced, ← List.filterMap_eq_map, List.filterMap_filter]
  refine List.filterMap_congr fun entry _ => ?_
  by_cases h : entry.2.key = entry.1 <;> simp [h]

theorem rootFindings_eq {root : Element} : rootFindings t root =
    root.parentKey.toList.map fun parent => .structural (.rootHasParent t.root parent) := by
  rw [rootFindings]
  cases root.parentKey <;> rfl

/-- With the walk from the root known, the findings about a tree that is not too large. -/
theorem findings_of_start {root : Element} (hsize : t.elements.length ≤ config.maxNodes)
    (hroot : t.element? t.root = some root)
    (h : Walk.Start t.links [] t.root root.children visits final) :
    findings catalog config t (Walk.survey t.links t.root) =
      misplaced t ++
        (root.parentKey.toList.map fun parent => .structural (.rootHasParent t.root parent)) ++
        ownFindings catalog config root ++ visits.flatMap (reachedFindings catalog config t) ++
        (Walk.sweep t.links final (Entries.names t.elements)).flatMap detachedFindings := by
  have hfirst : reachedFindings catalog config t (.first none t.root) =
      ownFindings catalog config root := by
    rw [reachedFindings, hroot, ← elementFindings_eq]
    rfl
  rw [findings, if_neg (Nat.not_lt.2 hsize), hroot, Walk.survey,
    h.walk_eq, Tree.names_links]
  dsimp only
  rw [List.flatMap_cons, hfirst, keyFindings_eq, rootFindings_eq]
  simp only [List.append_assoc]

theorem reports_iff {found : List Finding} :
    Reports catalog config t found ↔
      found = findings catalog config t (Walk.survey t.links t.root) := by
  constructor
  · rintro (hsize | ⟨hsize, hroot⟩ | ⟨hsize, hroot, hsearch, hleft⟩)
    · rw [findings, if_pos hsize]
    · rw [findings, if_neg (Nat.not_lt.2 hsize), hroot, keyFindings_eq]
    · obtain ⟨visits, hdescent, rfl⟩ := exists_descent_of_search hsearch
      have hlinks := get?_links_of_element? hroot
      rw [findings_of_start hsize hroot ⟨List.not_mem_nil, hlinks, hdescent⟩, eq_of_leftover hleft]
  · rintro rfl
    by_cases hsize : config.maxNodes < t.elements.length
    · rw [findings, if_pos hsize]
      exact .tooLarge hsize
    · cases hroot : t.element? t.root with
      | none =>
        rw [findings, if_neg hsize, hroot, keyFindings_eq]
        exact .rootless (Nat.not_lt.1 hsize) hroot
      | some root =>
        obtain ⟨visits, final, hstart⟩ :=
          Walk.Start.exists_start List.not_mem_nil (get?_links_of_element? hroot)
        rw [findings_of_start (Nat.not_lt.1 hsize) hroot hstart]
        have hswept := Walk.swept_sweep final (List.Subset.refl (Entries.names t.links))
        rw [Tree.names_links] at hswept
        exact .searched (Nat.not_lt.1 hsize) hroot (search_of_descent hstart.descent)
          (leftover_of_swept hswept)

end Validation

/-- The findings about a tree: those of its report, and none when it is accepted. -/
def Tree.reported (t : Tree) (catalog : Catalog) (config : Config) : List Finding :=
  match t.validate catalog config with
  | .ok _ => []
  | .error report => report.findings

theorem Tree.reported_eq (t : Tree) (catalog : Catalog) (config : Config) :
    t.reported catalog config =
      Validation.findings catalog config t (Walk.survey t.links t.root) := by
  rw [reported, validate]
  cases Validation.findings catalog config t (Walk.survey t.links t.root) <;> rfl

/-- Validation reports what the recursive searches find, neither more nor less and in their order. -/
theorem Tree.reported_eq_iff_reports (t : Tree) (catalog : Catalog) (config : Config)
    (found : List Finding) :
    t.reported catalog config = found ↔ Validation.Reports catalog config t found := by
  rw [Validation.reports_iff, reported_eq, eq_comm]

end CatalogUi
