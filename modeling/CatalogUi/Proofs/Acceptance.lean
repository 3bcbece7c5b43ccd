import CatalogUi.Proofs.Element
import CatalogUi.Proofs.Walk

/-!
Validation accepts exactly the well-formed trees. What makes a tree well-formed is said about its
elements and their links, without a walk.
-/

namespace CatalogUi

namespace Tree

/-- A tree is well-formed for a catalog under a configuration. -/
structure WellFormed (t : Tree) (catalog : Catalog) (config : Config) : Prop where
  size_le : t.elements.length ≤ config.maxNodes
  /-- Every element stands under the key that it declares. -/
  key_eq : ∀ key e, t.element? key = some e → e.key = key
  root_exists : ∃ e, t.element? t.root = some e ∧ e.parentKey = none
  children_exist : ∀ key e, t.element? key = some e → ∀ child ∈ e.children,
    ∃ e', t.element? child = some e'
  /-- The root is nobody's child. -/
  root_unlisted : t.links.listings.count t.root = 0
  /-- Every other element is a child just once. -/
  listed_once : ∀ key e, t.element? key = some e → key ≠ t.root →
    t.links.listings.count key = 1
  /-- A child declares the parent that lists it. -/
  parent_eq : ∀ key e, t.element? key = some e → ∀ child ∈ e.children,
    ∀ e', t.element? child = some e' → e'.parentKey = some key
  reached : ∀ key e, t.element? key = some e → t.links.Reaches t.root key
  fits : ∀ key e, t.element? key = some e → e.Fits catalog config

variable {t : Tree}

theorem get?_links (key : String) :
    Entries.get? t.links key = (t.element? key).map (·.children) :=
  Entries.get?_map _ _ _

theorem names_links (t : Tree) : Entries.names t.links = Entries.names t.elements :=
  Entries.names_map _ _

theorem distinct_links (t : Tree) : Entries.Distinct t.links := by
  rw [Entries.Distinct, names_links]
  exact t.distinct

theorem lists_iff {parent child : String} :
    t.links.Lists parent child ↔ ∃ e, t.element? parent = some e ∧ child ∈ e.children := by
  simp [Links.Lists, get?_links]

theorem mem_names_links {key : String} :
    key ∈ Entries.names t.links ↔ ∃ e, t.element? key = some e := by
  rw [names_links]
  exact Entries.mem_names_iff

end Tree

namespace Validation

variable {catalog : Catalog} {config : Config} {t : Tree}

/-! ## Without findings -/

theorem keyFindings_eq_nil_iff :
    keyFindings t = [] ↔ ∀ key e, t.element? key = some e → e.key = key := by
  rw [keyFindings, List.filterMap_eq_nil_iff]
  constructor
  · intro h key e hkey
    have := h (key, e) (Entries.mem_of_get? hkey)
    by_contra hne
    rw [if_neg hne] at this
    cases this
  · rintro h ⟨key, e⟩ hmem
    exact if_pos (h key e (t.distinct.get?_of_mem hmem))

theorem rootFindings_eq_nil_iff {root : Element} :
    rootFindings t root = [] ↔ root.parentKey = none := by
  rw [rootFindings]
  cases root.parentKey <;> simp

theorem parentFindings_eq_nil_iff {parent : Option String} {key : String} {e : Element} :
    parentFindings parent key e = [] ↔
      ∀ lister, parent = some lister → e.parentKey = some lister := by
  cases parent with
  | none => simp [parentFindings]
  | some lister => by_cases h : e.parentKey = some lister <;> simp [parentFindings, h]

/-- Nothing is found at a visit when it is the first one to an element that is in order. -/
theorem reachedFindings_eq_nil_iff {visit : Walk.Visit} {e : Element}
    (he : t.element? visit.key = some e) :
    reachedFindings catalog config t visit = [] ↔
      visit.IsFirst ∧ e.Fits catalog config ∧
        ∀ lister, visit.link.1 = some lister → e.parentKey = some lister := by
  cases visit with
  | cycle parent key | again parent key | missing parent key =>
    constructor
    · intro h
      cases h
    · rintro ⟨h, -⟩
      cases h
  | first parent key =>
    change t.element? key = some e at he
    rw [reachedFindings, he]
    dsimp only
    rw [List.append_eq_nil_iff, parentFindings_eq_nil_iff, elementFindings_eq_nil_iff]
    constructor
    · rintro ⟨hparent, hfits⟩
      exact ⟨rfl, hfits, hparent⟩
    · rintro ⟨-, hfits, hparent⟩
      exact ⟨hparent, hfits⟩

/-- A first visit on the walk from a root leads to an element. -/
theorem exists_element_of_run {visits : List Walk.Visit} {final : List String} {root : String}
    (hrun : Walk.Run t.links [] [] [.enter none root] visits final) {visit : Walk.Visit}
    (hmem : visit ∈ visits) (hfirst : visit.IsFirst) :
    ∃ e, t.element? visit.key = some e := by
  rw [← Tree.mem_names_links]
  have hexpanded : visit.key ∈ Walk.expanded visits :=
    Walk.mem_expanded.2 ⟨visit.link.1, hfirst ▸ hmem⟩
  exact Entries.mem_names_iff.2 (hrun.expanded_nodup.2 _ hexpanded).2

theorem findings_eq_nil_iff (survey : Walk.Survey) :
    findings catalog config t survey = [] ↔
      t.elements.length ≤ config.maxNodes ∧
      (∀ key e, t.element? key = some e → e.key = key) ∧
      (∃ e, t.element? t.root = some e ∧ e.parentKey = none) ∧
      (∀ visit ∈ survey.reached, reachedFindings catalog config t visit = []) ∧
      ∀ visit ∈ survey.detached, detachedFindings visit = [] := by
  rw [findings]
  split
  · rename_i hlt
    constructor
    · intro h
      cases h
    · rintro ⟨hle, -⟩
      omega
  · rename_i hle
    rw [List.append_eq_nil_iff, keyFindings_eq_nil_iff]
    cases hroot : t.element? t.root with
    | none => simp
    | some root =>
      simp only [List.append_eq_nil_iff, rootFindings_eq_nil_iff, List.flatMap_eq_nil_iff,
        Option.some.injEq, exists_eq_left', Nat.not_lt.1 hle, true_and, and_assoc]

/-- Nothing is found among the keys that are left just when the walk from the root left none. -/
theorem detachedFindings_eq_nil_iff {visited : List String} :
    (∀ visit ∈ Walk.sweep t.links visited (Entries.names t.links),
      detachedFindings visit = []) ↔ Entries.names t.links ⊆ visited := by
  constructor
  · intro h
    by_contra hnot
    obtain ⟨key, hmem⟩ := Walk.exists_first_mem_sweep (List.Subset.refl _) hnot
    cases h _ hmem
  · intro h visit hmem
    rw [Walk.sweep_eq_nil h] at hmem
    exact (List.not_mem_nil hmem).elim

section Reached

variable {visits : List Walk.Visit} {final : List String}

theorem isFirst_of_reachedFindings_eq_nil {visit : Walk.Visit}
    (h : reachedFindings catalog config t visit = []) : visit.IsFirst := by
  cases visit with
  | first => rfl
  | cycle | again | missing => cases h

/-- What it takes for the walk from the root to come everywhere and to find nothing. -/
theorem reached_eq_nil_iff (hrun : Walk.Run t.links [] [] [.enter none t.root] visits final) :
    (∀ visit ∈ visits, reachedFindings catalog config t visit = []) ∧
        Entries.names t.links ⊆ final ↔
      t.links.IsTree t.root ∧
      (∀ key e, t.element? key = some e → e.Fits catalog config) ∧
      ∀ key e, t.element? key = some e → ∀ child ∈ e.children,
        ∀ e', t.element? child = some e' → e'.parentKey = some key := by
  have hd := t.distinct_links
  constructor
  · rintro ⟨hnil, hall⟩
    have hfirst (visit : Walk.Visit) (hmem : visit ∈ visits) : visit.IsFirst :=
      isFirst_of_reachedFindings_eq_nil (hnil visit hmem)
    have hfinal {key : String} {e : Element} (he : t.element? key = some e) : key ∈ final :=
      hall (Tree.mem_names_links.2 ⟨e, he⟩)
    refine ⟨Walk.isTree_of_first hd hrun hfirst hall, fun key e he => ?_, ?_⟩
    · obtain ⟨parent, hmem⟩ :=
        Walk.mem_expanded.1 ((Walk.mem_expanded_iff_mem_final hrun).2 (hfinal he))
      exact ((reachedFindings_eq_nil_iff he).1 (hnil _ hmem)).2.1
    · intro key e he child hchild e' he'
      have hlists : t.links.Lists key child := Tree.lists_iff.2 ⟨e, he, hchild⟩
      obtain ⟨visit, hmem, hlink⟩ := (Walk.exists_visit_iff hrun).2
        (Or.inr ⟨key, hfinal he, rfl, hlists⟩)
      have hkey : t.element? visit.key = some e' := by
        rw [Walk.Visit.key, hlink]
        exact he'
      apply ((reachedFindings_eq_nil_iff hkey).1 (hnil visit hmem)).2.2 key
      rw [hlink]
  · rintro ⟨htree, hfits, hparent⟩
    refine ⟨fun visit hmem => ?_, Walk.names_subset_final_of_isTree hd htree hrun⟩
    have hfirst := Walk.isFirst_of_isTree hd htree hrun visit hmem
    obtain ⟨e, he⟩ := exists_element_of_run hrun hmem hfirst
    refine (reachedFindings_eq_nil_iff he).2 ⟨hfirst, hfits _ e he, fun lister hlister => ?_⟩
    rcases (Walk.exists_visit_iff hrun).1 ⟨visit, hmem, rfl⟩ with hroot | ⟨key, -, heq, hlists⟩
    · cases (congrArg Prod.fst hroot).symm.trans hlister
    · cases heq.symm.trans hlister
      obtain ⟨above, habove, hchild⟩ := Tree.lists_iff.1 hlists
      exact hparent lister above habove visit.key hchild e he

end Reached

end Validation

/-! ## Acceptance -/

namespace Tree

variable {t : Tree} {catalog : Catalog} {config : Config}

/-- A tree without findings is made a validated tree of the nodes on the walk from its root. -/
theorem validate_eq_ok_iff {v : ValidatedTree} :
    t.validate catalog config = .ok v ↔
      Validation.findings catalog config t (Walk.survey t.links t.root) = [] ∧
        v = ⟨t.root, (Walk.survey t.links t.root).reached.filterMap
          (Validation.nodeAt catalog config t)⟩ := by
  rw [validate]
  cases Validation.findings catalog config t (Walk.survey t.links t.root) with
  | nil =>
    rw [Except.ok.injEq, eq_self_iff_true, true_and]
    exact eq_comm
  | cons finding rest => simp

/-- The links of a well-formed tree make up a tree, and its elements are in order. -/
theorem wellFormed_iff :
    t.WellFormed catalog config ↔
      t.elements.length ≤ config.maxNodes ∧
      (∀ key e, t.element? key = some e → e.key = key) ∧
      (∃ e, t.element? t.root = some e ∧ e.parentKey = none) ∧
      t.links.IsTree t.root ∧
      (∀ key e, t.element? key = some e → e.Fits catalog config) ∧
      ∀ key e, t.element? key = some e → ∀ child ∈ e.children,
        ∀ e', t.element? child = some e' → e'.parentKey = some key := by
  rw [Links.isTree_iff t.distinct_links]
  simp only [mem_names_links, lists_iff]
  constructor
  · intro h
    obtain ⟨root, hroot, -⟩ := id h.root_exists
    refine ⟨h.size_le, h.key_eq, h.root_exists, ⟨⟨root, hroot⟩, ?_, h.root_unlisted, ?_, ?_⟩,
      h.fits, h.parent_eq⟩
    · rintro parent child ⟨e, he, hchild⟩
      exact h.children_exist parent e he child hchild
    · rintro key ⟨e, he⟩ hne
      exact h.listed_once key e he hne
    · rintro key ⟨e, he⟩
      exact h.reached key e he
  · rintro ⟨hsize, hkey, hroot, ⟨-, hexist, hunlisted, honce, hreached⟩, hfits, hparent⟩
    exact {
      size_le := hsize
      key_eq := hkey
      root_exists := hroot
      children_exist := fun key e he child hchild => hexist key child ⟨e, he, hchild⟩
      root_unlisted := hunlisted
      listed_once := fun key e he hne => honce key ⟨e, he⟩ hne
      parent_eq := hparent
      reached := fun key e he => hreached key ⟨e, he⟩
      fits := hfits }

theorem findings_eq_nil_iff_wellFormed :
    Validation.findings catalog config t (Walk.survey t.links t.root) = [] ↔
      t.WellFormed catalog config := by
  have hrun := Walk.run_walk t.links [] [] [.enter none t.root]
  rw [Validation.findings_eq_nil_iff, wellFormed_iff, ← Validation.reached_eq_nil_iff hrun,
    ← Validation.detachedFindings_eq_nil_iff]
  rfl

/-- A tree is accepted just when it is well-formed. -/
theorem validate_ok_iff_wellFormed (t : Tree) (catalog : Catalog) (config : Config) :
    (∃ v, t.validate catalog config = .ok v) ↔ t.WellFormed catalog config := by
  rw [← findings_eq_nil_iff_wellFormed]
  constructor
  · rintro ⟨v, hv⟩
    exact (validate_eq_ok_iff.1 hv).1
  · intro h
    exact ⟨_, validate_eq_ok_iff.2 ⟨h, rfl⟩⟩

end Tree

end CatalogUi
