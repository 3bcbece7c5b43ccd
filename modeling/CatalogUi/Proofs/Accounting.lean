import CatalogUi.Proofs.Permutation

/-!
What becomes of every link. The walk from the root comes once by each link of a key that it reaches.
The links by which it comes to a key for the first time make up a tree; every other link is named by
one finding, which tells whether the child is missing, stands above the key in that tree, or was
visited from elsewhere. So links are neither lost nor counted twice, whatever they lead to.
-/

namespace CatalogUi

namespace Walk

/-! ## Trees that are given by their links -/

/-- A way down along some links, each from a key to a child, which may have no step at all. -/
abbrev LeadsDown (tree : List (String × String)) : String → String → Prop :=
  Relation.ReflTransGen fun parent child => (parent, child) ∈ tree

/-- The keys on a way up along some links, from a key to the root. -/
inductive Trail (tree : List (String × String)) (root : String) : String → List String → Prop
  | top : Trail tree root root [root]
  | step {parent child : String} {path : List String} (hlink : (parent, child) ∈ tree)
      (h : Trail tree root parent path) : Trail tree root child (child :: path)

/-- Where no key is a child twice and the root is none, the way up from a key meets just the keys that
lead down to it. -/
theorem Trail.mem_iff {tree : List (String × String)} {root key other : String}
    {path : List String} (hnodup : (root :: tree.map (·.2)).Nodup) (h : Trail tree root key path) :
    other ∈ path ↔ LeadsDown tree other key := by
  obtain ⟨hroot, hchildren⟩ := List.nodup_cons.1 hnodup
  induction h with
  | top =>
    rw [List.mem_singleton]
    constructor
    · rintro rfl
      exact .refl
    · intro h
      rcases h.cases_tail with heq | ⟨parent, -, hlink⟩
      · exact heq.symm
      · exact (hroot (List.mem_map_of_mem (f := (·.2)) hlink)).elim
  | @step parent child path hlink _ ih =>
    rw [List.mem_cons, ih]
    constructor
    · rintro (rfl | h)
      · exact .refl
      · exact h.tail hlink
    · intro h
      rcases h.cases_tail with heq | ⟨lister, h, hlister⟩
      · exact .inl heq.symm
      · have heq := List.inj_on_of_nodup_map hchildren hlister hlink rfl
        cases heq
        exact .inr h

theorem Trail.leadsDown {tree : List (String × String)} {root key : String} {path : List String}
    (h : Trail tree root key path) : LeadsDown tree root key := by
  induction h with
  | top => exact .refl
  | step hlink _ ih => exact ih.tail hlink

end Walk

/-- What can be wrong with a link. -/
inductive Flaw where
  /-- There is no such child. -/
  | missing
  /-- The child is the key itself, or stands above it. -/
  | cycle
  /-- The child was visited from elsewhere. -/
  | shared
deriving DecidableEq

namespace Walk

/-- The link by which a key is visited for the first time. -/
def Visit.firstLink? : Visit → Option (String × String)
  | .first parent key => parent.map fun lister => (lister, key)
  | _ => none

/-- The link of a visit that is not the first one, and what is wrong with it. -/
def Visit.flaw? : Visit → Option ((String × String) × Flaw)
  | .first _ _ => none
  | .cycle parent key => some ((parent.getD "", key), .cycle)
  | .again parent key => some ((parent.getD "", key), .shared)
  | .missing parent key => some ((parent.getD "", key), .missing)

/-- The link of a visit, under the names that a finding uses. -/
def Visit.namedLink (v : Visit) : String × String := (v.link.1.getD "", v.link.2)

/-- The links by which keys are visited for the first time, in order. -/
def firstLinks (visits : List Visit) : List (String × String) := visits.filterMap Visit.firstLink?

/-- A visit agrees with a tree of links about what its own link is. -/
def Visit.Agrees (links : Links) (tree : List (String × String)) (root : String) : Visit → Prop
  | .first _ key => LeadsDown tree root key
  | .cycle parent key => ∃ lister, parent = some lister ∧ LeadsDown tree key lister
  | .again parent key => ∃ lister, parent = some lister ∧ ¬ LeadsDown tree key lister
  | .missing _ key => Entries.get? links key = none

variable {links : Links}

/-- On a descent the path is the way up to the root, so that a child on the path is one that stands
above, and a child off the path is not. -/
theorem Descent.agrees {path visited final children : List String} {key : String}
    {visits : List Visit} (h : Descent links path visited key children visits final)
    {tree : List (String × String)} {root : String} (hnodup : (root :: tree.map (·.2)).Nodup)
    (htrail : Trail tree root key path) (htree : firstLinks visits ⊆ tree) :
    ∀ visit ∈ visits, visit.Agrees links tree root := by
  induction h with
  | done => exact nofun
  | cycle hpath _ ih =>
    exact List.forall_mem_cons.2 ⟨⟨_, rfl, (htrail.mem_iff hnodup).1 hpath⟩, ih htrail htree⟩
  | again hpath _ _ ih =>
    exact List.forall_mem_cons.2
      ⟨⟨_, rfl, fun habove => hpath ((htrail.mem_iff hnodup).2 habove)⟩, ih htrail htree⟩
  | missing _ _ hchild _ ih => exact List.forall_mem_cons.2 ⟨hchild, ih htrail htree⟩
  | @first _ _ _ _ _ _ key child below after _ _ _ _ _ ihbelow ihrest =>
    have hlinks : firstLinks (.first (some key) child :: (below ++ after)) =
        (key, child) :: (firstLinks below ++ firstLinks after) :=
      congrArg _ List.filterMap_append
    rw [hlinks] at htree
    obtain ⟨hlink, hrest⟩ := List.cons_subset.1 htree
    obtain ⟨hbelow, hafter⟩ := List.append_subset.1 hrest
    have hchild : Trail tree root child _ := .step hlink htrail
    exact List.forall_mem_cons.2 ⟨hchild.leadsDown, List.forall_mem_append.2
      ⟨ihbelow hchild hbelow, ihrest htrail hafter⟩⟩

/-- Visits that come by links from keys are either first ones or flawed. -/
theorem namedLinks_perm {visits : List Visit}
    (h : ∀ visit ∈ visits, ∃ lister, visit.link.1 = some lister) :
    (visits.map Visit.namedLink).Perm
      (firstLinks visits ++ (visits.filterMap Visit.flaw?).map (·.1)) := by
  induction visits with
  | nil => exact .nil
  | cons visit rest ih =>
    obtain ⟨⟨lister, hlister⟩, hrest⟩ := List.forall_mem_cons.1 h
    have hperm := ih hrest
    cases visit with
    | first parent key =>
      cases hlister
      exact hperm.cons _
    | cycle parent key | again parent key | missing parent key =>
      exact (hperm.cons _).trans List.perm_middle.symm

theorem expanded_eq_map_firstLinks {visits : List Visit}
    (h : ∀ visit ∈ visits, ∃ lister, visit.link.1 = some lister) :
    expanded visits = (firstLinks visits).map (·.2) := by
  induction visits with
  | nil => rfl
  | cons visit rest ih =>
    obtain ⟨⟨lister, hlister⟩, hrest⟩ := List.forall_mem_cons.1 h
    cases visit with
    | first parent key =>
      cases hlister
      exact congrArg _ (ih hrest)
    | cycle | again | missing => exact ih hrest

namespace Start

variable {root : String} {children final : List String} {visits : List Visit}

theorem exists_lister (h : Start links [] root children visits final) :
    ∀ visit ∈ visits, ∃ lister, visit.link.1 = some lister :=
  fun visit hmem => (h.descent.parent_mem visit hmem).imp fun _ => And.left

/-- The first visits are to the root and then along the links of the tree. -/
theorem expanded_eq (h : Start links [] root children visits final) :
    expanded (.first none root :: visits) = root :: (firstLinks visits).map (·.2) := by
  rw [expanded_first, expanded_eq_map_firstLinks h.exists_lister]

/-- No key is a child in the tree twice, and the root is none. -/
theorem nodup_tree (h : Start links [] root children visits final) :
    (root :: (firstLinks visits).map (·.2)).Nodup := by
  rw [← h.expanded_eq]
  exact h.run.expanded_nodup.1

theorem mem_tree_iff (h : Start links [] root children visits final) {key : String} :
    key ∈ root :: (firstLinks visits).map (·.2) ↔
      key ∈ Entries.names links ∧ links.Reaches root key := by
  rw [← h.expanded_eq, mem_expanded_iff_mem_final h.run, h.mem_final_iff]

theorem agrees (h : Start links [] root children visits final) :
    ∀ visit ∈ visits, visit.Agrees links (firstLinks visits) root :=
  h.descent.agrees h.nodup_tree .top (List.Subset.refl _)

/-- The tree leads down to every key that it comes to. -/
theorem leadsDown (h : Start links [] root children visits final) :
    ∀ key ∈ root :: (firstLinks visits).map (·.2), LeadsDown (firstLinks visits) root key := by
  intro key hmem
  rw [← h.expanded_eq, expanded_first] at hmem
  rcases List.mem_cons.1 hmem with rfl | hmem
  · exact .refl
  · obtain ⟨parent, hvisit⟩ := mem_expanded.1 hmem
    exact h.agrees _ hvisit

/-- The walk comes once by each link of a key that it visits. -/
theorem namedLinks_perm (h : Start links [] root children visits final) :
    (visits.map Visit.namedLink).Perm ((root :: (firstLinks visits).map (·.2)).flatMap fun key =>
      (links.childrenOf key).map fun child => (key, child)) := by
  have hperm : (visits.map Visit.link).Perm
      ((expanded (.first none root :: visits)).flatMap (outgoing links)) := h.run.links_perm.cons_inv
  have hnamed := hperm.map fun link => (link.1.getD "", link.2)
  rw [List.map_map, List.map_flatMap, h.expanded_eq] at hnamed
  simp only [outgoing, List.map_map] at hnamed
  exact hnamed

/-- A flaw is at a link of a key that the walk visits. -/
theorem reaches_of_flaw (h : Start links [] root children visits final) :
    ∀ found ∈ visits.filterMap Visit.flaw?, links.Reaches root found.1.1 := by
  intro found hmem
  obtain ⟨visit, hvisit, hflaw⟩ := List.mem_filterMap.1 hmem
  obtain ⟨lister, hlister, hin⟩ := h.descent.parent_mem visit hvisit
  have hreaches : links.Reaches root lister := by
    rw [← expanded_first none] at hin
    exact (h.mem_final_iff.1 ((mem_expanded_iff_mem_final h.run).1 hin)).2
  cases visit with
  | first => cases hflaw
  | cycle parent key | again parent key | missing parent key =>
    cases hlister
    cases hflaw
    exact hreaches

end Start

end Walk

/-! ## What is found about links -/

namespace Finding

/-- The link that a finding is about, and what is wrong with it. -/
def flaw? : Finding → Option ((String × String) × Flaw)
  | .structural (.missingChild parent child) => some ((parent, child), .missing)
  | .structural (.cycle parent child) => some ((parent, child), .cycle)
  | .structural (.sharedChild parent child) => some ((parent, child), .shared)
  | _ => none

/-- The link to a child that declares another parent, and what it declares. -/
def mismatch? : Finding → Option ((String × String) × Option String)
  | .structural (.parentMismatch parent child declared) => some ((parent, child), declared)
  | _ => none

/-- A finding that is not about a link. -/
def IsOffLinks (f : Finding) : Prop := f.flaw? = none ∧ f.mismatch? = none

end Finding

namespace Tree

/-- The links by which the walk from the root comes to an element for the first time, in order. -/
def firstLinks (t : Tree) : List (String × String) :=
  Walk.firstLinks (Walk.survey t.links t.root).reached

open Classical in
/-- The keys of the elements that the root reaches. -/
noncomputable def reachedKeys (t : Tree) : List String :=
  (Entries.names t.elements).filter (t.links.Reaches t.root ·)

/-- The links of the elements that the root reaches, each as often as it is listed. -/
noncomputable def reachedLinks (t : Tree) : List (String × String) :=
  t.reachedKeys.flatMap fun key => (t.links.childrenOf key).map fun child => (key, child)

open Classical in
/-- What is wrong with a link when elements are first visited along other links. -/
noncomputable def flawOf (t : Tree) (tree : List (String × String)) (link : String × String) : Flaw :=
  if t.element? link.2 = none then .missing
  else if Walk.LeadsDown tree link.2 link.1 then .cycle
  else .shared

section Flaw

variable {t : Tree} {tree : List (String × String)} {parent child : String}

theorem flawOf_of_none (h : t.element? child = none) :
    t.flawOf tree (parent, child) = .missing := by
  simp [flawOf, h]

theorem flawOf_of_leadsDown (h : t.element? child ≠ none)
    (habove : Walk.LeadsDown tree child parent) : t.flawOf tree (parent, child) = .cycle := by
  simp [flawOf, h, habove]

theorem flawOf_of_not_leadsDown (h : t.element? child ≠ none)
    (habove : ¬ Walk.LeadsDown tree child parent) : t.flawOf tree (parent, child) = .shared := by
  simp [flawOf, h, habove]

end Flaw

/-- What a child declares instead of the element that lists it. -/
def mismatchAt? (t : Tree) (link : String × String) : Option ((String × String) × Option String) :=
  (t.element? link.2).bind fun e =>
    if e.parentKey = some link.1 then none else some (link, e.parentKey)

end Tree

namespace Validation

variable {catalog : Catalog} {config : Config} {t : Tree} {e : Element} {f : Finding}

theorem isOffLinks_of_mem_ownFindings (h : f ∈ ownFindings catalog config e) : f.IsOffLinks := by
  rw [ownFindings] at h
  split at h
  · cases List.mem_singleton.1 h
    exact ⟨rfl, rfl⟩
  · simp only [List.mem_append, List.mem_map, List.mem_ite_nil_right, List.mem_singleton] at h
    rcases h with (⟨error, -, rfl⟩ | ⟨-, rfl⟩) | ⟨issue, -, rfl⟩
    · exact ⟨rfl, rfl⟩
    · exact ⟨rfl, rfl⟩
    · cases issue <;> exact ⟨rfl, rfl⟩

/-- What is found in front of the visits is not about links. -/
theorem isOffLinks_of_mem_front {root : Element}
    (h : f ∈ misplaced t ++
      (root.parentKey.toList.map fun parent => .structural (.rootHasParent t.root parent)) ++
      ownFindings catalog config root) : f.IsOffLinks := by
  simp only [misplaced, List.mem_append, List.mem_map] at h
  rcases h with (⟨entry, -, rfl⟩ | ⟨parent, -, rfl⟩) | h
  · exact ⟨rfl, rfl⟩
  · exact ⟨rfl, rfl⟩
  · exact isOffLinks_of_mem_ownFindings h

theorem flaws_eq_nil {found : List Finding} (h : ∀ f ∈ found, f.IsOffLinks) :
    found.filterMap Finding.flaw? = [] :=
  List.filterMap_eq_nil_iff.2 fun f hmem => (h f hmem).1

theorem mismatches_eq_nil {found : List Finding} (h : ∀ f ∈ found, f.IsOffLinks) :
    found.filterMap Finding.mismatch? = [] :=
  List.filterMap_eq_nil_iff.2 fun f hmem => (h f hmem).2

/-- A first visit finds whether the child declares the key that lists it, and nothing else about
links. -/
theorem links_first (catalog : Catalog) (config : Config) (t : Tree) (lister key : String) :
    (reachedFindings catalog config t (.first (some lister) key)).filterMap Finding.flaw? = [] ∧
      (reachedFindings catalog config t (.first (some lister) key)).filterMap Finding.mismatch? =
        (t.mismatchAt? (lister, key)).toList := by
  cases hkey : t.element? key with
  | none => simp [reachedFindings, Tree.mismatchAt?, hkey]
  | some e =>
    have hown (f : Finding) (hf : f ∈ ownFindings catalog config e) : f.IsOffLinks :=
      isOffLinks_of_mem_ownFindings hf
    rw [reachedFindings_first hkey, List.filterMap_append, List.filterMap_append,
      flaws_eq_nil hown, mismatches_eq_nil hown]
    by_cases hparent : e.parentKey = some lister <;>
      simp [Tree.mismatchAt?, hkey, hparent, Finding.flaw?, Finding.mismatch?]

/-- On the walk from the root the flaws that are found are those of the visits, and the first visits
are where a child can declare another parent. -/
theorem links_reached (catalog : Catalog) (config : Config) (t : Tree) {visits : List Walk.Visit}
    (h : ∀ visit ∈ visits, ∃ lister, visit.link.1 = some lister) :
    (visits.flatMap (reachedFindings catalog config t)).filterMap Finding.flaw? =
        visits.filterMap Walk.Visit.flaw? ∧
      (visits.flatMap (reachedFindings catalog config t)).filterMap Finding.mismatch? =
        (Walk.firstLinks visits).filterMap t.mismatchAt? := by
  induction visits with
  | nil => exact ⟨rfl, rfl⟩
  | cons visit rest ih =>
    obtain ⟨⟨lister, hlister⟩, hrest⟩ := List.forall_mem_cons.1 h
    obtain ⟨hflaws, hmismatches⟩ := ih hrest
    rw [List.flatMap_cons, List.filterMap_append, List.filterMap_append, hflaws, hmismatches]
    cases visit with
    | first parent key =>
      cases hlister
      obtain ⟨hflaw, hmismatch⟩ := links_first catalog config t lister key
      rw [hflaw, hmismatch]
      refine ⟨rfl, ?_⟩
      show _ = ((lister, key) :: Walk.firstLinks rest).filterMap t.mismatchAt?
      cases h : t.mismatchAt? (lister, key) <;> simp [h]
    | cycle | again | missing => exact ⟨rfl, rfl⟩

/-- What is found in the sweep is not about links of what the root reaches. -/
theorem unreached_of_mem_detached {children final : List String} {visits : List Walk.Visit}
    (hstart : Walk.Start t.links [] t.root children visits final)
    (h : f ∈ (Walk.sweep t.links final (Entries.names t.links)).flatMap detachedFindings) :
    f.mismatch? = none ∧ ∀ found, f.flaw? = some found → ¬ t.links.Reaches t.root found.1.1 := by
  have hstray := (of_mem_detached hstart h).2
  obtain ⟨visit, -, hf⟩ := List.mem_flatMap.1 h
  cases visit with
  | first =>
    cases List.mem_singleton.1 hf
    exact ⟨rfl, nofun⟩
  | again | missing => exact (List.not_mem_nil hf).elim
  | cycle parent child =>
    cases List.mem_singleton.1 hf
    refine ⟨rfl, ?_⟩
    rintro _ ⟨⟩ hreach
    apply hstray
    refine ⟨rfl, rfl, ?_⟩
    rintro _ ⟨⟩
    exact hreach

end Validation

namespace Tree

variable {t : Tree} {root : Element} {visits : List Walk.Visit} {final : List String}

open Classical in
/-- The findings about links of what the root reaches are those at the visits of the walk. -/
theorem links_reported (catalog : Catalog) {config : Config}
    (hsize : t.elements.length ≤ config.maxNodes) (hroot : t.element? t.root = some root)
    (h : Walk.Start t.links [] t.root root.children visits final) :
    ((t.reported catalog config).filterMap Finding.flaw?).filter
        (t.links.Reaches t.root ·.1.1) = visits.filterMap Walk.Visit.flaw? ∧
      (t.reported catalog config).filterMap Finding.mismatch? =
        (Walk.firstLinks visits).filterMap t.mismatchAt? := by
  obtain ⟨hflaws, hmismatches⟩ := Validation.links_reached catalog config t h.exists_lister
  have hfront (f : Finding) := @Validation.isOffLinks_of_mem_front catalog config t f root
  have hstray (f : Finding) := Validation.unreached_of_mem_detached (f := f) h
  rw [reported_eq, Validation.findings_of_start hsize hroot h, ← names_links]
  constructor
  · rw [List.filterMap_append, List.filterMap_append, Validation.flaws_eq_nil hfront, hflaws,
      List.nil_append, List.filter_append, List.filter_eq_self.2 ?reached,
      List.filter_eq_nil_iff.2 ?stray, List.append_nil]
    case reached =>
      intro found hmem
      exact decide_eq_true (h.reaches_of_flaw found hmem)
    case stray =>
      intro found hmem
      obtain ⟨f, hf, hflaw⟩ := List.mem_filterMap.1 hmem
      rw [decide_eq_true_eq]
      exact (hstray f hf).2 found hflaw
  · rw [List.filterMap_append, List.filterMap_append, Validation.mismatches_eq_nil hfront,
      hmismatches, List.nil_append, List.filterMap_eq_nil_iff.2 fun f hf => (hstray f hf).1,
      List.append_nil]

theorem mem_reachedKeys_iff {key : String} :
    key ∈ t.reachedKeys ↔ key ∈ Entries.names t.elements ∧ t.links.Reaches t.root key := by
  classical
  rw [reachedKeys, List.mem_filter, decide_eq_true_eq]

/-- The first visits come to each element that the root reaches, once. -/
theorem reachedKeys_perm (h : Walk.Start t.links [] t.root root.children visits final) :
    (t.root :: (Walk.firstLinks visits).map (·.2)).Perm t.reachedKeys := by
  have hnodup : t.reachedKeys.Nodup := List.Nodup.filter _ t.distinct
  refine (List.perm_ext_iff_of_nodup h.nodup_tree hnodup).2 fun key => ?_
  rw [h.mem_tree_iff, mem_reachedKeys_iff, names_links]

/-- What a visit finds wrong with a link is what is wrong with it. -/
theorem flaw_eq (h : Walk.Start t.links [] t.root root.children visits final) :
    ∀ found ∈ visits.filterMap Walk.Visit.flaw?,
      found.2 = t.flawOf (Walk.firstLinks visits) found.1 := by
  intro found hmem
  obtain ⟨visit, hvisit, hflaw⟩ := List.mem_filterMap.1 hmem
  have hagrees := h.agrees visit hvisit
  have hkey := h.run.visited_or_missing (List.Subset.refl _) visit (List.mem_cons_of_mem _ hvisit)
  have hexists (hnot : ∀ parent, visit ≠ .missing parent visit.key) :
      t.element? visit.key ≠ none := by
    have hfinal := hkey.resolve_right fun ⟨_, parent, heq⟩ => hnot parent heq
    rw [Ne, ← Validation.get?_links_eq_none_iff, Entries.get?_eq_none_iff, not_not]
    exact (h.mem_final_iff.1 hfinal).1
  cases visit with
  | first => cases hflaw
  | cycle parent key =>
    obtain ⟨lister, rfl, habove⟩ := hagrees
    cases hflaw
    exact (flawOf_of_leadsDown (hexists nofun) habove).symm
  | again parent key =>
    obtain ⟨lister, rfl, habove⟩ := hagrees
    cases hflaw
    exact (flawOf_of_not_leadsDown (hexists nofun) habove).symm
  | missing parent key =>
    cases hflaw
    exact (flawOf_of_none (Validation.get?_links_eq_none_iff.1 hagrees)).symm

/-- The links of what the root reaches are those of the first visits and those with a flaw. -/
theorem reachedLinks_perm (h : Walk.Start t.links [] t.root root.children visits final) :
    t.reachedLinks.Perm
      (Walk.firstLinks visits ++ (visits.filterMap Walk.Visit.flaw?).map (·.1)) := by
  have hkeys := (reachedKeys_perm h).flatMap_right fun key =>
    (t.links.childrenOf key).map fun child => (key, child)
  exact (hkeys.symm.trans h.namedLinks_perm.symm).trans (Walk.namedLinks_perm h.exists_lister)

theorem length_reachedLinks (t : Tree) :
    t.reachedLinks.length = (t.reachedKeys.map fun key => (t.links.childrenOf key).length).sum := by
  simp [reachedLinks, List.length_flatMap]

open Classical in
/-- Where a tree is not too large and has its root, the links by which the elements are first visited
make up a tree of all that the root reaches. Every other entry of a list of children there is named
by one finding, which tells what is wrong with it: the child is missing, or it stands above in that
tree, or else it was visited from elsewhere. So the entries are one for each element but the root, and
one for each such finding; and the first visits are where a child is found to declare another
parent. -/
theorem links_accounted {t : Tree} {catalog : Catalog} {config : Config} {root : Element}
    (hsize : t.elements.length ≤ config.maxNodes) (hroot : t.element? t.root = some root) :
    let tree := t.firstLinks
    let flaws := ((t.reported catalog config).filterMap Finding.flaw?).filter
      (t.links.Reaches t.root ·.1.1)
    ((t.root :: tree.map (·.2)).Perm t.reachedKeys ∧
      ∀ key ∈ t.reachedKeys, Walk.LeadsDown tree t.root key) ∧
    (∃ others, t.reachedLinks.Perm (tree ++ others) ∧
      flaws.Perm (others.map fun link => (link, t.flawOf tree link))) ∧
    (t.reachedKeys.map fun key => (t.links.childrenOf key).length).sum =
      (t.reachedKeys.length - 1) + flaws.length ∧
    (t.reported catalog config).filterMap Finding.mismatch? = tree.filterMap t.mismatchAt? := by
  obtain ⟨visits, final, hstart⟩ :=
    Walk.Start.exists_start List.not_mem_nil (Validation.get?_links_of_element? hroot)
  obtain ⟨hflaws, hmismatches⟩ := links_reported catalog hsize hroot hstart
  intro tree flaws
  have htree : tree = Walk.firstLinks visits := by
    rw [show tree = t.firstLinks from rfl, firstLinks, Walk.survey, hstart.walk_eq]
    rfl
  have hkeys := reachedKeys_perm hstart
  have hlinks := reachedLinks_perm hstart
  rw [show flaws = _ from hflaws, htree]
  refine ⟨⟨hkeys, fun key hmem => ?down⟩, ⟨_, hlinks, ?flawed⟩, ?count, hmismatches⟩
  case down => exact hstart.leadsDown key (hkeys.mem_iff.2 hmem)
  case flawed =>
    rw [List.map_map]
    refine .of_eq ((List.map_id _).symm.trans (List.map_congr_left fun found hmem => ?_))
    exact Prod.ext rfl (flaw_eq hstart found hmem)
  case count =>
    have hlength := hlinks.length_eq
    have hvisited := hkeys.length_eq
    rw [length_reachedLinks, List.length_append, List.length_map] at hlength
    rw [List.length_cons, List.length_map] at hvisited
    omega

end Tree

namespace Sample

/-- Nothing but boxes, which accept children. -/
def boxes : Catalog := ⟨[⟨"Box", .object [], true⟩], []⟩

/-- A page that lists its side box twice, a box that is not there, and the main box, which the side
box lists first; the side box lists the page and itself as well. A lost box lists itself. -/
def knot : Tree :=
  .ofElements "page" [
    ⟨"page", "Box", .object [], ["side", "gone", "side", "main"], none, none⟩,
    ⟨"side", "Box", .object [], ["page", "main", "side"], some "page", none⟩,
    ⟨"main", "Box", .object [], [], some "page", none⟩,
    ⟨"lost", "Box", .object [], ["lost"], none, none⟩]

end Sample

open Classical in
/-- Of the seven links on the page two are first ones and five have a flaw. The lost box has a flaw
too, which does not count, and the main box declares another parent than the one it is visited
from. -/
theorem Tree.links_accounted_knot :
    Sample.knot.elements.length ≤ Config.default.maxNodes ∧
      (∃ root, Sample.knot.element? Sample.knot.root = some root) ∧
      Sample.knot.firstLinks = [("page", "side"), ("side", "main")] ∧
      (∃ others, Sample.knot.reachedLinks.Perm ([("page", "side"), ("side", "main")] ++ others) ∧
        ([(("side", "page"), Flaw.cycle), (("side", "side"), .cycle), (("page", "gone"), .missing),
          (("page", "side"), .shared), (("page", "main"), .shared),
          (("lost", "lost"), .cycle)].filter (Sample.knot.links.Reaches "page" ·.1.1)).Perm
            (others.map fun link =>
              (link, Sample.knot.flawOf [("page", "side"), ("side", "main")] link))) ∧
      (Sample.knot.reported Sample.boxes Config.default).filterMap Finding.mismatch? =
        [(("side", "main"), some "page")] := by
  have hsize : Sample.knot.elements.length ≤ Config.default.maxNodes := by decide
  have hroot : ∃ root, Sample.knot.element? Sample.knot.root = some root := ⟨_, rfl⟩
  have htree : Sample.knot.firstLinks = [("page", "side"), ("side", "main")] := by cbv
  have hflaws : (Sample.knot.reported Sample.boxes Config.default).filterMap Finding.flaw? =
      [(("side", "page"), .cycle), (("side", "side"), .cycle), (("page", "gone"), .missing),
        (("page", "side"), .shared), (("page", "main"), .shared), (("lost", "lost"), .cycle)] := by
    cbv
  obtain ⟨root, hroot'⟩ := hroot
  obtain ⟨-, hlinks, -, hmismatches⟩ :=
    @Tree.links_accounted Sample.knot Sample.boxes Config.default root hsize hroot'
  rw [htree, hflaws] at hlinks
  exact ⟨hsize, ⟨root, hroot'⟩, htree, hlinks, hmismatches.trans (by cbv)⟩

end CatalogUi
