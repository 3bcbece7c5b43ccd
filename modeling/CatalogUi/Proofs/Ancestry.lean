import CatalogUi.Proofs.Shape

/-!
Going up in a validated tree. From every node the parents lead to the root, each being the only node
that lists the one before, and no node comes twice: going up ends because nothing stands above
itself. So the lineage of a node is made up of the node and of all that stands above it.
-/

namespace CatalogUi

namespace ValidatedTree

/-- The node that a node names as its parent. -/
def parentNode? (v : ValidatedTree) (n : Node) : Option Node := n.parent.bind v.node?

/-- The nodes that going up comes by, from a first one until there is no parent. -/
inductive Ascent (v : ValidatedTree) : Option Node → List Node → Prop
  | stop : Ascent v none []
  | step {n : Node} {above : List Node} (h : Ascent v (v.parentNode? n) above) :
      Ascent v (some n) (n :: above)

/-- A node lists another, and it is the only one that does. -/
structure IsSoleLister (v : ValidatedTree) (n lister : Node) : Prop where
  lists : n.key ∈ lister.children
  found : v.node? lister.key = some lister
  unique : ∀ key other, v.node? key = some other → n.key ∈ other.children → other = lister

/-- Going up from a key comes by these nodes, from lister to lister up to the root. -/
structure IsLineage (v : ValidatedTree) (key : String) (nodes : List Node) : Prop where
  ascent : v.Ascent (v.node? key) nodes
  nodup : (nodes.map (·.key)).Nodup
  listers : nodes.IsChain v.IsSoleLister
  ends : nodes.getLast? = v.rootNode?

variable {v : ValidatedTree}

/-- There is one way to go up only. -/
theorem Ascent.unique {first : Option Node} {nodes nodes' : List Node}
    (h : v.Ascent first nodes) (h' : v.Ascent first nodes') : nodes = nodes' := by
  induction h generalizing nodes' with
  | stop => cases h'; rfl
  | step _ ih =>
    cases h' with
    | step h' => rw [ih h']

theorem lineageAmong_of_get? {nodes : List (String × Node)} {key : String} {n : Node}
    (h : Entries.get? nodes key = some n) :
    lineageAmong nodes key = n :: match n.parent with
      | none => []
      | some parent => lineageAmong (Entries.erase nodes key) parent := by
  rw [lineageAmong]
  split
  · rename_i hnone
    cases h.symm.trans hnone
  · rename_i hsome
    cases h.symm.trans hsome
    rfl

namespace Sound

/-- The nodes that do not stand above a key do not matter to its lineage. -/
theorem lineageAmong_congr (hv : v.Sound) :
    ∀ key ∈ v.keys, ∀ left right : List (String × Node),
      (∀ above, v.links.Reaches above key → Entries.get? left above = v.node? above) →
      (∀ above, v.links.Reaches above key → Entries.get? right above = v.node? above) →
      lineageAmong left key = lineageAmong right key := by
  refine hv.induction_down ?root ?child
  case root =>
    intro left right hleft hright
    obtain ⟨n, hn⟩ := mem_keys_iff.1 hv.root_mem
    rw [lineageAmong_of_get? ((hleft _ .refl).trans hn),
      lineageAmong_of_get? ((hright _ .refl).trans hn), hv.root_parent n hn]
  case child =>
    intro parent key hlists ih left right hleft hright
    obtain ⟨n, hn⟩ := mem_keys_iff.1 (hv.child_mem hlists)
    rw [lineageAmong_of_get? ((hleft _ .refl).trans hn),
      lineageAmong_of_get? ((hright _ .refl).trans hn), hv.child_parent parent key n hlists hn]
    dsimp only
    -- Above the parent the key does not stand, so it can be left out there.
    have hne {above : String} (hreach : v.links.Reaches above parent) : above ≠ key := by
      rintro rfl
      exact hv.not_above_self above (.tail' hreach hlists)
    rw [ih (Entries.erase left key) (Entries.erase right key) (fun above hreach => ?_)
      fun above hreach => ?_]
    · rw [Entries.get?_erase_of_ne (hne hreach), hleft above (hreach.tail hlists)]
    · rw [Entries.get?_erase_of_ne (hne hreach), hright above (hreach.tail hlists)]

theorem lineage_root (hv : v.Sound) {n : Node} (hn : v.node? v.root = some n) :
    v.lineage v.root = [n] := by
  rw [lineage, lineageAmong_of_get? hn, hv.root_parent n hn]

/-- Above a child stands the node that lists it, with all that stands above that one. -/
theorem lineage_child (hv : v.Sound) {parent key : String} {n : Node}
    (hlists : v.links.Lists parent key) (hn : v.node? key = some n) :
    v.lineage key = n :: v.lineage parent := by
  rw [lineage, lineageAmong_of_get? hn, hv.child_parent parent key n hlists hn]
  dsimp only
  obtain ⟨lister, hlister, -⟩ := lists_iff.1 hlists
  rw [lineage, hv.lineageAmong_congr parent (mem_keys_iff.2 ⟨lister, hlister⟩)
    (Entries.erase v.nodes key) v.nodes (fun above hreach => ?_) fun _ _ => rfl]
  apply Entries.get?_erase_of_ne
  rintro rfl
  exact hv.not_above_self above (.tail' hreach hlists)

/-- The lineage of a key is made up of the nodes that reach it. -/
theorem mem_lineage_iff (hv : v.Sound) :
    ∀ key ∈ v.keys, ∀ n, n ∈ v.lineage key ↔
      ∃ above, v.links.Reaches above key ∧ v.node? above = some n := by
  refine hv.induction_down ?root ?child
  case root =>
    intro n
    obtain ⟨root, hroot⟩ := mem_keys_iff.1 hv.root_mem
    rw [hv.lineage_root hroot, List.mem_singleton]
    constructor
    · rintro rfl
      exact ⟨v.root, .refl, hroot⟩
    · rintro ⟨above, hreach, hn⟩
      rcases Relation.ReflTransGen.cases_tail hreach with rfl | ⟨parent, -, hlists⟩
      · exact Option.some.inj (hn.symm.trans hroot)
      · have hnone := hv.root_parent root hroot
        rw [hv.child_parent parent v.root root hlists hroot] at hnone
        cases hnone
  case child =>
    intro parent key hlists ih n
    obtain ⟨node, hnode⟩ := mem_keys_iff.1 (hv.child_mem hlists)
    rw [hv.lineage_child hlists hnode, List.mem_cons, ih]
    constructor
    · rintro (rfl | ⟨above, hreach, hn⟩)
      · exact ⟨key, .refl, hnode⟩
      · exact ⟨above, hreach.tail hlists, hn⟩
    · rintro ⟨above, hreach, hn⟩
      rcases Relation.ReflTransGen.cases_tail hreach with rfl | ⟨lister, hbelow, hlists'⟩
      · exact Or.inl (Option.some.inj (hn.symm.trans hnode))
      · rw [hv.lister_unique hlists' hlists] at hbelow
        exact Or.inr ⟨above, hbelow, hn⟩

theorem isSoleLister (hv : v.Sound) {parent key : String} {lister n : Node}
    (hlister : v.node? parent = some lister) (hn : v.node? key = some n)
    (hchild : key ∈ lister.children) : v.IsSoleLister n lister := by
  have hlists : v.links.Lists parent key := lists_iff.2 ⟨lister, hlister, hchild⟩
  refine ⟨?_, ?_, fun other node hnode hmem => ?_⟩
  · rw [hv.key_eq key n hn]
    exact hchild
  · rw [hv.key_eq parent lister hlister]
    exact hlister
  · rw [hv.key_eq key n hn] at hmem
    rw [hv.lister_unique (lists_iff.2 ⟨node, hnode, hmem⟩) hlists, hlister] at hnode
    exact (Option.some.inj hnode).symm

/-- The way up from a child goes over the node that lists it. -/
theorem isLineage_cons (hv : v.Sound) {parent key : String} {n : Node} {above : List Node}
    (hlists : v.links.Lists parent key) (hn : v.node? key = some n)
    (h : v.IsLineage parent above) (hnew : key ∉ above.map (·.key)) :
    v.IsLineage key (n :: above) := by
  obtain ⟨lister, hlister, hchild⟩ := lists_iff.1 hlists
  have hascent := h.ascent
  rw [hlister] at hascent
  have hway : v.Ascent (v.node? key) (n :: above) := by
    rw [hn]
    apply Ascent.step
    rw [parentNode?, hv.child_parent parent key n hlists hn, Option.bind_some, hlister]
    exact hascent
  have hnodup : ((n :: above).map (·.key)).Nodup := by
    rw [List.map_cons, List.nodup_cons, hv.key_eq key n hn]
    exact ⟨hnew, h.nodup⟩
  cases hascent with
  | step =>
    refine ⟨hway, hnodup, .cons_cons (hv.isSoleLister hlister hn hchild) h.listers, ?_⟩
    rw [List.getLast?_cons_cons, h.ends]

theorem isLineage_lineage (hv : v.Sound) : ∀ key ∈ v.keys, v.IsLineage key (v.lineage key) := by
  refine hv.induction_down ?root ?child
  case root =>
    obtain ⟨n, hn⟩ := mem_keys_iff.1 hv.root_mem
    rw [hv.lineage_root hn]
    refine ⟨?_, List.nodup_singleton _, .singleton _, ?_⟩
    · rw [hn]
      apply Ascent.step
      rw [parentNode?, hv.root_parent n hn]
      exact .stop
    · rw [hv.rootNode?_eq, hn]
      rfl
  case child =>
    intro parent key hlists ih
    obtain ⟨n, hn⟩ := mem_keys_iff.1 (hv.child_mem hlists)
    obtain ⟨lister, hlister, -⟩ := lists_iff.1 hlists
    rw [hv.lineage_child hlists hn]
    refine hv.isLineage_cons hlists hn ih fun hmem => ?_
    obtain ⟨m, hm, hkey⟩ := List.mem_map.1 hmem
    obtain ⟨above, hreach, habove⟩ :=
      (hv.mem_lineage_iff parent (mem_keys_iff.2 ⟨lister, hlister⟩) m).1 hm
    rw [hv.key_eq above m habove] at hkey
    exact hv.not_above_self key (.tail' (hkey ▸ hreach) hlists)

end Sound

end ValidatedTree

/-! ## The shape of validated trees -/

/-- A validated tree has one node for each element, in the one depth-first order from its root. Its
nodes are linked both ways, and the lineage of a node is the one way up from it to the root. -/
theorem Tree.shape_of_validate {t : Tree} {catalog : Catalog} {config : Config}
    {v : ValidatedTree} (h : t.validate catalog config = .ok v) :
    (v.keys.Nodup ∧ v.keys.Perm (Entries.names t.elements)) ∧
    (∀ key e, t.element? key = some e →
      ∃ n, v.node? key = some n ∧ n.key = key ∧ n.Represents catalog config e) ∧
    (∀ order, t.links.Preorder [t.root] order ↔ order = v.keys) ∧
    (v.root = t.root ∧ ∃ n, v.rootNode? = some n ∧ v.node? v.root = some n ∧ n.parent = none) ∧
    (∀ key n, v.node? key = some n → ∀ child ∈ n.children,
      ∃ m, v.node? child = some m ∧ m.parent = some key) ∧
    ∀ key n, v.node? key = some n →
      ∀ nodes, v.IsLineage key nodes ↔ nodes = v.lineage key := by
  have hv := sound_of_validate h
  obtain ⟨hkeys, horder⟩ := keys_of_validate h
  refine ⟨⟨hv.distinct, hkeys⟩, fun key e he => ?_, fun order => ⟨fun horder' => ?_, ?_⟩,
    ⟨root_of_validate h, ?_⟩, fun key n hn child hchild => ?_,
    fun key n hn nodes => ⟨fun hnodes => ?_, ?_⟩⟩
  · obtain ⟨n, hn, hrepresents⟩ := exists_node_of_validate h he
    exact ⟨n, hn, hv.key_eq key n hn, hrepresents⟩
  · exact horder'.unique horder
  · rintro rfl
    exact horder
  · obtain ⟨n, hn⟩ := ValidatedTree.mem_keys_iff.1 hv.root_mem
    exact ⟨n, hv.rootNode?_eq.trans hn, hn, hv.root_parent n hn⟩
  · have hlists : v.links.Lists key child := ValidatedTree.lists_iff.2 ⟨n, hn, hchild⟩
    obtain ⟨m, hm⟩ := ValidatedTree.mem_keys_iff.1 (hv.child_mem hlists)
    exact ⟨m, hm, hv.child_parent key child m hlists hm⟩
  · have hlineage := hv.isLineage_lineage key (ValidatedTree.mem_keys_iff.2 ⟨n, hn⟩)
    exact hnodes.ascent.unique hlineage.ascent
  · rintro rfl
    exact hv.isLineage_lineage key (ValidatedTree.mem_keys_iff.2 ⟨n, hn⟩)

namespace Sample

/-- Boxes, and buttons that send something. -/
def catalog : Catalog where
  components := [⟨"Box", .object [], true⟩, ⟨"Button", .object [("action", .string)], false⟩]
  actions := [⟨"send", "", .emptyObject⟩]

/-- A page with a side box, which can be opened and holds a button, and a main box. -/
def tree : Tree :=
  .ofElements "page" [
    ⟨"page", "Box", .object [], ["side", "main"], none, none⟩,
    ⟨"main", "Box", .object [], [], some "page", none⟩,
    ⟨"side", "Box", .object [], ["send"], some "page", some (.present "/open")⟩,
    ⟨"send", "Button", .object [("action", .string "send")], [], some "side", none⟩]

/-- What the page is validated to. -/
def page : ValidatedTree where
  root := "page"
  nodes := [
    ("page", ⟨"page", "Box", ⟨0⟩, [], ["side", "main"], none, none, [], none⟩),
    ("side", ⟨"side", "Box", ⟨0⟩, [], ["send"], some "page",
      some (.present ⟨[⟨"open", by decide⟩]⟩), [], none⟩),
    ("send", ⟨"send", "Button", ⟨1⟩, [("action", .string "send")], [], some "side", none, [],
      some "send"⟩),
    ("main", ⟨"main", "Box", ⟨0⟩, [], [], some "page", none, [], none⟩)]

theorem validate_tree : tree.validate catalog Config.default = .ok page := by cbv

end Sample

/-- The way up from the button of the page leads over the side box to the page itself. -/
theorem Tree.shape_of_validate_page :
    Sample.tree.validate Sample.catalog Config.default = .ok Sample.page ∧
      Sample.tree.links.Preorder ["page"] ["page", "side", "send", "main"] ∧
      Sample.page.IsLineage "send" (Sample.page.lineage "send") := by
  obtain ⟨-, -, horder, -, -, hlineage⟩ := Tree.shape_of_validate Sample.validate_tree
  exact ⟨Sample.validate_tree, (horder _).2 rfl, (hlineage "send" _ rfl _).2 rfl⟩

end CatalogUi
