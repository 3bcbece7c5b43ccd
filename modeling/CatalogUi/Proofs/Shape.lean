import CatalogUi.Proofs.Acceptance

/-!
The nodes of a validated tree. There is one for every element, they stand in depth-first order, and
they are linked both ways: a node names as its parent the only node that lists it.
-/

namespace CatalogUi

namespace ValidatedTree

/-- The children of every node. -/
def links (v : ValidatedTree) : Links := v.nodes.map fun entry => (entry.1, entry.2.children)

/-- What every validated tree is sure of, without the elements that it was made from. -/
structure Sound (v : ValidatedTree) : Prop where
  distinct : Entries.Distinct v.nodes
  preorder : v.links.Preorder [v.root] v.keys
  key_eq : ∀ key n, v.node? key = some n → n.key = key
  /-- The root names no parent. -/
  root_parent : ∀ n, v.node? v.root = some n → n.parent = none
  /-- A child names the node that lists it. -/
  child_parent : ∀ parent key n, v.links.Lists parent key → v.node? key = some n →
    n.parent = some parent

variable {v : ValidatedTree}

theorem get?_links (key : String) :
    Entries.get? v.links key = (v.node? key).map (·.children) :=
  Entries.get?_map _ _ _

theorem lists_iff {parent child : String} :
    v.links.Lists parent child ↔ ∃ n, v.node? parent = some n ∧ child ∈ n.children := by
  simp [Links.Lists, get?_links]

theorem mem_keys_iff {key : String} : key ∈ v.keys ↔ ∃ n, v.node? key = some n :=
  Entries.mem_names_iff

namespace Sound

theorem reaches (hv : v.Sound) {key : String} (hkey : key ∈ v.keys) :
    v.links.Reaches v.root key := by
  obtain ⟨top, htop, hreach⟩ := hv.preorder.exists_reaches key hkey
  rw [List.mem_singleton.1 htop] at hreach
  exact hreach

theorem root_mem (hv : v.Sound) : v.root ∈ v.keys :=
  hv.preorder.top_mem v.root List.mem_cons_self

theorem child_mem (hv : v.Sound) {parent child : String} (h : v.links.Lists parent child) :
    child ∈ v.keys := by
  obtain ⟨n, hn, -⟩ := lists_iff.1 h
  exact hv.preorder.mem_of_lists parent (mem_keys_iff.2 ⟨n, hn⟩) h

/-- What holds of the root, and of a child of whatever it holds of, holds of all nodes. -/
theorem induction_down (hv : v.Sound) {motive : String → Prop} (root : motive v.root)
    (child : ∀ parent key, v.links.Lists parent key → motive parent → motive key) :
    ∀ key ∈ v.keys, motive key := by
  intro key hkey
  have hreach := hv.reaches hkey
  clear hkey
  induction hreach with
  | refl => exact root
  | tail _ hlists ih => exact child _ _ hlists ih

/-- A node is listed by one node at most. -/
theorem lister_unique (hv : v.Sound) {parent parent' key : String}
    (h : v.links.Lists parent key) (h' : v.links.Lists parent' key) : parent = parent' := by
  obtain ⟨n, hn⟩ := mem_keys_iff.1 (hv.child_mem h)
  have hparent := hv.child_parent parent key n h hn
  rw [hv.child_parent parent' key n h' hn] at hparent
  exact (Option.some.inj hparent).symm

theorem not_above_self (hv : v.Sound) (key : String) : ¬ v.links.Above key key := by
  intro habove
  obtain ⟨below, -, hlists⟩ := Relation.TransGen.tail'_iff.1 habove
  exact hv.preorder.not_above_self (hv.child_mem hlists) habove

/-- Nothing stands above the root. -/
theorem not_above_root (hv : v.Sound) (above : String) : ¬ v.links.Above above v.root := by
  intro habove
  obtain ⟨lister, -, hlists⟩ := Relation.TransGen.tail'_iff.1 habove
  obtain ⟨n, hn⟩ := mem_keys_iff.1 hv.root_mem
  have hparent := hv.child_parent lister v.root n hlists hn
  rw [hv.root_parent n hn] at hparent
  cases hparent

/-- What stands above a child is the node that lists it, or stands above that one. -/
theorem above_child_iff (hv : v.Sound) {parent child : String}
    (hlists : v.links.Lists parent child) {above : String} :
    v.links.Above above child ↔ v.links.Reaches above parent := by
  constructor
  · intro habove
    obtain ⟨lister, hreach, hlists'⟩ := Relation.TransGen.tail'_iff.1 habove
    rwa [hv.lister_unique hlists' hlists] at hreach
  · intro hreach
    exact .tail' hreach hlists

/-- Going down in a validated tree comes to an end. -/
theorem wellFounded (hv : v.Sound) :
    WellFounded fun child parent => v.links.Lists parent child := by
  refine ⟨fun key => ?_⟩
  by_cases hkey : key ∈ v.keys
  · exact hv.preorder.grounded key hkey
  · apply Acc.intro
    intro child hlists
    obtain ⟨n, hn, -⟩ := lists_iff.1 hlists
    exact (hkey (mem_keys_iff.2 ⟨n, hn⟩)).elim

/-- Every key can be given a value that is made of the values of some of its children. -/
theorem exists_value {α : Type} (hv : v.Sound) (select : String → List String)
    (hselect : ∀ key, ∀ child ∈ select key, v.links.Lists key child)
    (make : String → List α → α) :
    ∃ value : String → α, ∀ key, value key = make key ((select key).map value) := by
  refine ⟨hv.wellFounded.fix fun key below => make key ((select key).attach.map
    fun child => below child.1 (hselect key child.1 child.2)), fun key => ?_⟩
  rw [WellFounded.fix_eq]
  exact congrArg (make key) List.attach_map_val

/-- The first node is the one at the root. -/
theorem rootNode?_eq (hv : v.Sound) : v.rootNode? = v.node? v.root := by
  have hfirst : (v.nodes.map (·.1)).head? = some v.root := hv.preorder.head?_eq
  rw [List.head?_map] at hfirst
  obtain ⟨⟨key, n⟩, hhead, hkey⟩ := Option.map_eq_some_iff.1 hfirst
  dsimp only at hkey
  rw [rootNode?, hhead, ← hkey]
  exact (hv.distinct.get?_of_mem (List.mem_of_head? hhead)).symm

end Sound

end ValidatedTree

namespace Validation

variable {catalog : Catalog} {config : Config} {t : Tree}

theorem nodeAt_eq_some_iff {visit : Walk.Visit} {key : String} {n : Node} :
    nodeAt catalog config t visit = some (key, n) ↔
      visit.expands? = some key ∧
        ∃ e, t.element? key = some e ∧ checkElement catalog config e = .ok n := by
  cases visit with
  | cycle | again | missing => simp [nodeAt, Walk.Visit.expands?]
  | first parent name =>
    rw [nodeAt, Walk.Visit.expands?, Option.some.injEq]
    constructor
    · intro h
      split at h
      · cases h
      · rename_i e he
        split at h
        · rename_i n' hcheck
          cases h
          exact ⟨rfl, e, he, hcheck⟩
        · cases h
    · rintro ⟨rfl, e, he, hcheck⟩
      simp only [he, hcheck]

/-- A walk with first visits only, to elements that fit, makes a node at each visit. -/
theorem names_filterMap_nodeAt {visits : List Walk.Visit}
    (h : ∀ visit ∈ visits, ∃ n, nodeAt catalog config t visit = some (visit.key, n)) :
    Entries.names (visits.filterMap (nodeAt catalog config t)) = visits.map Walk.Visit.key := by
  induction visits with
  | nil => rfl
  | cons visit rest ih =>
    obtain ⟨n, hn⟩ := h visit List.mem_cons_self
    rw [List.filterMap_cons_some hn, List.map_cons,
      ← ih fun other hmem => h other (List.mem_cons_of_mem _ hmem)]
    rfl

end Validation

/-! ## Nodes and elements -/

namespace Tree

variable {t : Tree} {catalog : Catalog} {config : Config} {v : ValidatedTree}

/-- The walk that the nodes of a validated tree were made on. -/
theorem exists_run_of_validate (h : t.validate catalog config = .ok v) :
    ∃ visits final, Walk.Run t.links [] [] [.enter none t.root] visits final ∧
      (∀ visit ∈ visits, visit.IsFirst) ∧ Entries.names t.links ⊆ final ∧
      v = ⟨t.root, visits.filterMap (Validation.nodeAt catalog config t)⟩ := by
  obtain ⟨hnil, hv⟩ := validate_eq_ok_iff.1 h
  have hrun := Walk.run_walk t.links [] [] [.enter none t.root]
  obtain ⟨-, -, -, htree, -⟩ := wellFormed_iff.1 (findings_eq_nil_iff_wellFormed.1 hnil)
  exact ⟨_, _, hrun, Walk.isFirst_of_isTree t.distinct_links htree hrun,
    Walk.names_subset_final_of_isTree t.distinct_links htree hrun, hv⟩

theorem wellFormed_of_validate (h : t.validate catalog config = .ok v) :
    t.WellFormed catalog config :=
  findings_eq_nil_iff_wellFormed.1 (validate_eq_ok_iff.1 h).1

theorem root_of_validate (h : t.validate catalog config = .ok v) : v.root = t.root := by
  rw [(validate_eq_ok_iff.1 h).2]

/-- The nodes have the keys of the elements, each once, in depth-first order. -/
theorem keys_of_validate (h : t.validate catalog config = .ok v) :
    v.keys.Perm (Entries.names t.elements) ∧ t.links.Preorder [t.root] v.keys := by
  obtain ⟨visits, final, hrun, hfirst, hall, rfl⟩ := exists_run_of_validate h
  have hfits := (wellFormed_of_validate h).fits
  have hkeys : ValidatedTree.keys ⟨t.root, visits.filterMap (Validation.nodeAt catalog config t)⟩ =
      visits.map Walk.Visit.key := by
    apply Validation.names_filterMap_nodeAt
    intro visit hmem
    obtain ⟨e, he⟩ := Validation.exists_element_of_run hrun hmem (hfirst visit hmem)
    obtain ⟨n, hn⟩ := Validation.exists_checkElement_iff.2 (hfits _ e he)
    refine ⟨n, Validation.nodeAt_eq_some_iff.2 ⟨?_, e, he, hn⟩⟩
    rw [hfirst visit hmem]
    rfl
  rw [hkeys]
  refine ⟨?_, hrun.preorder hfirst⟩
  rw [← Walk.expanded_eq_map_key hfirst, ← names_links]
  exact Walk.expanded_perm_names t.distinct_links hrun hall

/-- Every node is what the check of an element gave. -/
theorem exists_checkElement_of_validate (h : t.validate catalog config = .ok v) {key : String}
    {n : Node} (hn : v.node? key = some n) :
    ∃ e, t.element? key = some e ∧ Validation.checkElement catalog config e = .ok n := by
  have hmem := Entries.mem_of_get? hn
  rw [(validate_eq_ok_iff.1 h).2] at hmem
  obtain ⟨visit, -, hvisit⟩ := List.mem_filterMap.1 hmem
  exact (Validation.nodeAt_eq_some_iff.1 hvisit).2

/-- Every node represents an element. -/
theorem represents_of_validate (h : t.validate catalog config = .ok v) {key : String} {n : Node}
    (hn : v.node? key = some n) :
    ∃ e, t.element? key = some e ∧ n.Represents catalog config e := by
  obtain ⟨e, he, hcheck⟩ := exists_checkElement_of_validate h hn
  exact ⟨e, he, Validation.represents_of_checkElement hcheck⟩

/-- Every element has a node. -/
theorem exists_node_of_validate (h : t.validate catalog config = .ok v) {key : String}
    {e : Element} (he : t.element? key = some e) :
    ∃ n, v.node? key = some n ∧ n.Represents catalog config e := by
  have hmem : key ∈ v.keys :=
    (keys_of_validate h).1.mem_iff.2 (Entries.mem_names_iff.2 ⟨e, he⟩)
  obtain ⟨n, hn⟩ := ValidatedTree.mem_keys_iff.1 hmem
  obtain ⟨e', he', hrepresents⟩ := represents_of_validate h hn
  cases he.symm.trans he'
  exact ⟨n, hn, hrepresents⟩

/-- Nodes have the children of their elements. -/
theorem get?_links_of_validate (h : t.validate catalog config = .ok v) (key : String) :
    Entries.get? t.links key = Entries.get? v.links key := by
  rw [get?_links, ValidatedTree.get?_links]
  cases he : t.element? key with
  | some e =>
    obtain ⟨n, hn, hrepresents⟩ := exists_node_of_validate h he
    rw [hn, Option.map_some, Option.map_some, hrepresents.children]
  | none =>
    cases hn : v.node? key with
    | none => rfl
    | some n =>
      obtain ⟨e, hsome, -⟩ := represents_of_validate h hn
      cases he.symm.trans hsome

theorem sound_of_validate (h : t.validate catalog config = .ok v) : v.Sound := by
  have hwell := wellFormed_of_validate h
  obtain ⟨hkeys, horder⟩ := keys_of_validate h
  refine ⟨hkeys.nodup_iff.2 t.distinct, ?_, fun key n hn => ?_, fun n hn => ?_, ?_⟩
  · rw [root_of_validate h]
    exact horder.congr (get?_links_of_validate h)
  · obtain ⟨e, he, hrepresents⟩ := represents_of_validate h hn
    rw [hrepresents.key, hwell.key_eq key e he]
  · obtain ⟨e, he, hrepresents⟩ := represents_of_validate h hn
    obtain ⟨root, hroot, hparent⟩ := hwell.root_exists
    rw [root_of_validate h, hroot] at he
    cases he
    rw [hrepresents.parent, hparent]
  · intro parent key n hlists hn
    obtain ⟨lister, hlister, hchild⟩ := ValidatedTree.lists_iff.1 hlists
    obtain ⟨e, he, hrepresents⟩ := represents_of_validate h hlister
    obtain ⟨e', he', hrepresents'⟩ := represents_of_validate h hn
    rw [hrepresents.children] at hchild
    rw [hrepresents'.parent]
    exact hwell.parent_eq parent e he key hchild e' he'

end Tree

end CatalogUi
