import CatalogUi.Proofs.Cycles

/-!
The order in which the elements of a tree are given. The walk from the root follows the links alone,
and these do not depend on it; the sweep of what is left does, and can close a cycle at another link.
What the report says about the root and what it reaches stays the same, and so do the orphans, the
misplaced elements, and whether there is a cycle.
-/

namespace CatalogUi

namespace Walk

variable {links links' : Links} {path visited final children keys : List String} {key : String}
  {visits : List Visit}

/-! ## Walks on the same links -/

/-- A descent depends on the children of the keys only. -/
theorem Descent.congr (hlinks : ∀ key, Entries.get? links key = Entries.get? links' key)
    (h : Descent links path visited key children visits final) :
    Descent links' path visited key children visits final := by
  induction h with
  | done => exact .done
  | cycle hpath _ ih => exact .cycle hpath ih
  | again hpath hvisited _ ih => exact .again hpath hvisited ih
  | missing hpath hnew hchild _ ih => exact .missing hpath hnew (hlinks _ ▸ hchild) ih
  | first hpath hnew hchild _ _ ihbelow ihrest =>
    exact .first hpath hnew (hlinks _ ▸ hchild) ihbelow ihrest

theorem Start.congr (hlinks : ∀ key, Entries.get? links key = Entries.get? links' key)
    (h : Start links visited key children visits final) :
    Start links' visited key children visits final :=
  ⟨h.new, hlinks key ▸ h.children_eq, h.descent.congr hlinks⟩

/-! ## Where cycles are closed -/

/-- A descent comes by links from the key and from what it expands. -/
theorem Descent.parent_mem (h : Descent links path visited key children visits final) :
    ∀ visit ∈ visits, ∃ parent, visit.link.1 = some parent ∧ parent ∈ key :: expanded visits := by
  induction h with
  | done => exact nofun
  | cycle _ _ ih | again _ _ _ ih | missing _ _ _ _ ih =>
    exact List.forall_mem_cons.2 ⟨⟨_, rfl, List.mem_cons_self⟩, ih⟩
  | @first _ _ _ _ _ _ key child below after _ _ _ _ _ ihbelow ihrest =>
    refine List.forall_mem_cons.2 ⟨⟨_, rfl, List.mem_cons_self⟩, fun visit hmem => ?_⟩
    rw [expanded_first, expanded_append]
    rcases List.mem_append.1 hmem with hmem | hmem
    · obtain ⟨parent, hparent, hin⟩ := ihbelow visit hmem
      refine ⟨parent, hparent, List.mem_cons_of_mem _ ?_⟩
      exact List.mem_append_left (expanded after) hin
    · obtain ⟨parent, hparent, hin⟩ := ihrest visit hmem
      refine ⟨parent, hparent, ?_⟩
      rcases List.mem_cons.1 hin with rfl | hin
      · exact List.mem_cons_self
      · exact List.mem_cons_of_mem _ (List.mem_cons_of_mem _ (List.mem_append_right _ hin))

/-- A cycle that a sweep closes is closed at a key that the sweep expands. -/
theorem Swept.parent_mem (h : Swept links visited keys visits) {parent : Option String}
    {child : String} (hmem : .cycle parent child ∈ visits) :
    ∃ lister ∈ expanded visits, parent = some lister := by
  induction h with
  | done => exact (List.not_mem_nil hmem).elim
  | skip _ _ ih => exact ih hmem
  | start hstart _ ih =>
    rw [expanded_first, expanded_append]
    rcases List.mem_cons.1 hmem with heq | hmem
    · cases heq
    rcases List.mem_append.1 hmem with hmem | hmem
    · obtain ⟨lister, hparent, hin⟩ := hstart.descent.parent_mem _ hmem
      refine ⟨lister, ?_, hparent⟩
      rw [← List.cons_append]
      exact List.mem_append_left _ hin
    · obtain ⟨lister, hin, hparent⟩ := ih hmem
      exact ⟨lister, List.mem_cons_of_mem _ (List.mem_append_right _ hin), hparent⟩

section Survey

variable {root : String} {swept : List Visit}
  (hstart : Start links [] root children visits final)
  (hswept : Swept links final (Entries.names links) swept)

include hstart hswept

/-- The walk from the root and the sweep together close a cycle just when some key stands above
itself. -/
theorem cycleFree_iff : CycleFree (visits ++ swept) ↔ ∀ key, ¬ links.Above key key := by
  constructor
  · intro hcycle key habove
    obtain ⟨hreached, hdetached⟩ := cycleFree_append.1 hcycle
    have hgrounded := hswept.grounded hdetached (hstart.grounded hreached nofun)
    obtain ⟨below, ⟨children, hchildren, -⟩, -⟩ := Relation.TransGen.head'_iff.1 habove
    exact (hgrounded key (Entries.mem_names_iff.2 ⟨children, hchildren⟩)).not_above_self habove
  · intro hnone parent child hmem
    rcases List.mem_append.1 hmem with hmem | hmem
    · exact hnone child (hstart.above_of_cycle hmem)
    · exact hnone child (hswept.above_of_cycle hmem)

/-- The sweep expands the keys that the root does not reach. -/
theorem mem_expanded_swept_iff {key : String} :
    key ∈ expanded swept ↔ key ∈ Entries.names links ∧ ¬ links.Reaches root key := by
  obtain ⟨-, hfresh, hall⟩ := hswept.expanded_nodup
  have hreached : key ∈ final ↔ _ := hstart.mem_final_iff
  constructor
  · intro hmem
    obtain ⟨hnot, hname⟩ := hfresh key hmem
    exact ⟨hname, fun hreach => hnot (hreached.2 ⟨hname, hreach⟩)⟩
  · intro ⟨hname, hnot⟩
    exact (hall key hname).resolve_left fun hmem => hnot (hreached.1 hmem).2

end Survey

end Walk

/-! ## What a report says -/

namespace Finding

/-- The key of a misplaced element, and the key that it declares. -/
def keyMismatch? : Finding → Option (String × String)
  | .structural (.keyMismatch key declared) => some (key, declared)
  | _ => none

/-- A finding about the root or about what the root reaches: neither about a misplaced element nor
about an orphan, and no cycle that an orphan closes. -/
def IsAboutReached (t : Tree) (f : Finding) : Prop :=
  f.keyMismatch? = none ∧ f.orphan? = none ∧
    ∀ link, f.cycle? = some link → t.links.Reaches t.root link.1

open Classical in
/-- Two lists of findings, each about a tree of its own, differ no more than by the order of the
misplaced elements and of the orphans, and by which cycles the orphans close. -/
structure Agree (t t' : Tree) (found found' : List Finding) : Prop where
  orphans : (found'.filterMap orphan?).Perm (found.filterMap orphan?)
  mismatches : (found'.filterMap keyMismatch?).Perm (found.filterMap keyMismatch?)
  reached : found'.filter (·.IsAboutReached t') = found.filter (·.IsAboutReached t)
  cycles : found'.filterMap cycle? ≠ [] ↔ found.filterMap cycle? ≠ []

end Finding

namespace Tree

/-- A tree and the same tree with its elements given in another order. -/
structure Reordered (t t' : Tree) : Prop where
  root : t'.root = t.root
  elements : t'.elements.Perm t.elements

namespace Reordered

variable {t t' : Tree} {catalog : Catalog} {config : Config}

theorem symm (h : Reordered t t') : Reordered t' t := ⟨h.root.symm, h.elements.symm⟩

theorem element?_eq (h : Reordered t t') (key : String) : t'.element? key = t.element? key :=
  t.distinct.get?_of_perm h.elements key

theorem links_perm (h : Reordered t t') : t'.links.Perm t.links :=
  h.elements.map _

theorem get?_links_eq (h : Reordered t t') (key : String) :
    Entries.get? t'.links key = Entries.get? t.links key :=
  t.distinct_links.get?_of_perm h.links_perm key

theorem lists_eq (h : Reordered t t') : t'.links.Lists = t.links.Lists := by
  funext parent child
  rw [Links.Lists, Links.Lists, h.get?_links_eq]

/-- Well-formedness does not depend on the order. -/
theorem wellFormed (h : Reordered t t') (hw : t.WellFormed catalog config) :
    t'.WellFormed catalog config := by
  have hlistings : t'.links.listings.Perm t.links.listings := h.links_perm.flatMap_right _
  have helement {key : String} {e : Element} (he : t'.element? key = some e) :
      t.element? key = some e := (h.element?_eq key).symm.trans he
  exact {
    size_le := h.elements.length_eq ▸ hw.size_le
    key_eq := fun key e he => hw.key_eq key e (helement he)
    root_exists := by
      rw [h.root, h.element?_eq]
      exact hw.root_exists
    children_exist := fun key e he child hchild => by
      rw [h.element?_eq]
      exact hw.children_exist key e (helement he) child hchild
    root_unlisted := by
      rw [h.root, hlistings.count_eq]
      exact hw.root_unlisted
    listed_once := fun key e he hne => by
      rw [hlistings.count_eq]
      exact hw.listed_once key e (helement he) (h.root ▸ hne)
    parent_eq := fun key e he child hchild e' he' =>
      hw.parent_eq key e (helement he) child hchild e' (helement he')
    reached := fun key e he => by
      rw [h.root, Links.Reaches, h.lists_eq]
      exact hw.reached key e (helement he)
    fits := fun key e he => hw.fits key e (helement he) }

theorem nodeAt_eq (h : Reordered t t') :
    Validation.nodeAt catalog config t' = Validation.nodeAt catalog config t := by
  funext visit
  cases visit with
  | first parent key => rw [Validation.nodeAt, Validation.nodeAt, h.element?_eq]
  | cycle | again | missing => rfl

theorem reachedFindings_eq (h : Reordered t t') :
    Validation.reachedFindings catalog config t' = Validation.reachedFindings catalog config t := by
  funext visit
  cases visit with
  | first parent key => rw [Validation.reachedFindings, Validation.reachedFindings, h.element?_eq]
  | cycle | again | missing => rfl

/-- The walk from the root is the same walk. -/
theorem start (h : Reordered t t') {children final : List String} {visits : List Walk.Visit}
    (hstart : Walk.Start t.links [] t.root children visits final) :
    Walk.Start t'.links [] t'.root children visits final := by
  rw [h.root]
  exact hstart.congr fun key => (h.get?_links_eq key).symm

theorem validate_eq_ok (h : Reordered t t') {v : ValidatedTree}
    (hvalid : t.validate catalog config = .ok v) : t'.validate catalog config = .ok v := by
  obtain ⟨hnil, rfl⟩ := validate_eq_ok_iff.1 hvalid
  have hw := findings_eq_nil_iff_wellFormed.1 hnil
  obtain ⟨root, hroot, -⟩ := hw.root_exists
  obtain ⟨visits, final, hstart⟩ :=
    Walk.Start.exists_start List.not_mem_nil (Validation.get?_links_of_element? hroot)
  refine validate_eq_ok_iff.2 ⟨findings_eq_nil_iff_wellFormed.2 (h.wellFormed hw), ?_⟩
  rw [h.nodeAt_eq, Walk.survey, Walk.survey, hstart.walk_eq, (h.start hstart).walk_eq, h.root]

end Reordered

end Tree

namespace Validation

variable {t t' : Tree} {catalog : Catalog} {config : Config}

theorem misplaced_perm (h : t.Reordered t') : (misplaced t').Perm (misplaced t) :=
  (h.elements.filter _).map _

theorem not_isAboutReached_of_mem_misplaced {f : Finding} (h : f ∈ misplaced t) :
    ¬ f.IsAboutReached t := by
  obtain ⟨entry, -, rfl⟩ := List.mem_map.1 h
  exact fun habout => nomatch habout.1

section Survey

variable {children final : List String} {visits : List Walk.Visit}
  (hstart : Walk.Start t.links [] t.root children visits final)

include hstart

/-- Nothing that is found in the sweep is about what the root reaches, and nothing is misplaced. -/
theorem of_mem_detached {f : Finding}
    (h : f ∈ (Walk.sweep t.links final (Entries.names t.links)).flatMap detachedFindings) :
    f.keyMismatch? = none ∧ ¬ f.IsAboutReached t := by
  have hswept := Walk.swept_sweep final (List.Subset.refl (Entries.names t.links))
  obtain ⟨visit, hvisit, hf⟩ := List.mem_flatMap.1 h
  cases visit with
  | first =>
    cases List.mem_singleton.1 hf
    exact ⟨rfl, fun habout => nomatch habout.2.1⟩
  | again | missing => exact (List.not_mem_nil hf).elim
  | cycle parent child =>
    cases List.mem_singleton.1 hf
    obtain ⟨lister, hlister, rfl⟩ := hswept.parent_mem hvisit
    have hnot := ((Walk.mem_expanded_swept_iff hstart hswept).1 hlister).2
    exact ⟨rfl, fun habout => hnot (habout.2.2 _ rfl)⟩

end Survey

end Validation

/-! ## Reports on reordered trees -/

namespace Tree

theorem reported_of_error {t : Tree} {catalog : Catalog} {config : Config} {report : Report}
    (h : t.validate catalog config = .error report) :
    t.reported catalog config = report.findings := by
  rw [reported, h]

/-- With the walk from the root known, the report on a tree that is not too large: the misplaced
elements, then what is found at the root and below it, then what is found in the sweep. -/
theorem reported_of_start {t : Tree} (catalog : Catalog) {config : Config} {root : Element}
    (hsize : t.elements.length ≤ config.maxNodes) (hroot : t.element? t.root = some root)
    {visits : List Walk.Visit} {final : List String}
    (h : Walk.Start t.links [] t.root root.children visits final) :
    t.reported catalog config = Validation.misplaced t ++
      ((root.parentKey.toList.map fun parent => .structural (.rootHasParent t.root parent)) ++
        Validation.ownFindings catalog config root ++
        visits.flatMap (Validation.reachedFindings catalog config t)) ++
      (Walk.sweep t.links final (Entries.names t.links)).flatMap Validation.detachedFindings := by
  rw [reported_eq, Validation.findings_of_start hsize hroot h, names_links]
  simp only [List.append_assoc]

namespace Reordered

variable {t t' : Tree} {catalog : Catalog} {config : Config} {root : Element}

theorem reaches_eq (h : Reordered t t') : t'.links.Reaches = t.links.Reaches := by
  funext key other
  rw [Links.Reaches, Links.Reaches, h.lists_eq]

theorem isAboutReached_eq (h : Reordered t t') (f : Finding) :
    f.IsAboutReached t' = f.IsAboutReached t := by
  rw [Finding.IsAboutReached, Finding.IsAboutReached, h.reaches_eq, h.root]

/-- Findings agree with themselves. -/
theorem agree_refl (h : Reordered t t') (found : List Finding) : Finding.Agree t t' found found where
  orphans := .rfl
  mismatches := .rfl
  reached := List.filter_congr fun f _ => decide_eq_decide.2 (h.isAboutReached_eq f).to_iff
  cycles := .rfl

/-- Findings agree that differ in the order of the misplaced elements in front, and in what is found
away from the root at the end, as long as they agree on orphans and on whether there is a cycle. -/
theorem agree_of_parts (h : Reordered t t') {found found' core stray stray' : List Finding}
    (hfound : found = Validation.misplaced t ++ core ++ stray)
    (hfound' : found' = Validation.misplaced t' ++ core ++ stray')
    (hstray : ∀ f ∈ stray, f.keyMismatch? = none ∧ ¬ f.IsAboutReached t)
    (hstray' : ∀ f ∈ stray', f.keyMismatch? = none ∧ ¬ f.IsAboutReached t')
    (horphans : (found'.filterMap Finding.orphan?).Perm (found.filterMap Finding.orphan?))
    (hcycles : found'.filterMap Finding.cycle? ≠ [] ↔ found.filterMap Finding.cycle? ≠ []) :
    Finding.Agree t t' found found' where
  orphans := horphans
  mismatches := by
    have hnone := List.filterMap_eq_nil_iff.2 fun f hf => (hstray f hf).1
    have hnone' := List.filterMap_eq_nil_iff.2 fun f hf => (hstray' f hf).1
    simp only [hfound, hfound', List.filterMap_append, hnone, hnone', List.append_nil]
    exact ((Validation.misplaced_perm h).filterMap _).append_right _
  reached := by
    classical
    have hnone (t : Tree) {part : List Finding} (hpart : ∀ f ∈ part, ¬ f.IsAboutReached t) :
        part.filter (·.IsAboutReached t) = [] :=
      List.filter_eq_nil_iff.2 fun f hf => by simpa only [decide_eq_true_eq] using hpart f hf
    simp only [hfound, hfound', List.filter_append, (h.agree_refl core).reached,
      hnone t fun f hf => (hstray f hf).2, hnone t' fun f hf => (hstray' f hf).2,
      hnone t fun f => Validation.not_isAboutReached_of_mem_misplaced,
      hnone t' fun f => Validation.not_isAboutReached_of_mem_misplaced]
  cycles := hcycles

theorem agree_of_tooLarge (h : Reordered t t') (hsize : config.maxNodes < t.elements.length) :
    Finding.Agree t t' (t.reported catalog config) (t'.reported catalog config) := by
  have hsize' : config.maxNodes < t'.elements.length := h.elements.length_eq ▸ hsize
  rw [reported_eq, reported_eq, Validation.findings, Validation.findings, if_pos hsize,
    if_pos hsize', h.elements.length_eq]
  exact h.agree_refl _

theorem agree_of_rootless (h : Reordered t t') (hsize : t.elements.length ≤ config.maxNodes)
    (hroot : t.element? t.root = none) :
    Finding.Agree t t' (t.reported catalog config) (t'.reported catalog config) := by
  have hsize' : t'.elements.length ≤ config.maxNodes := h.elements.length_eq ▸ hsize
  have hroot' : t'.element? t'.root = none := by rw [h.root, h.element?_eq, hroot]
  have hfound := (reported_eq_iff_reports t catalog config _).2 (.rootless hsize hroot)
  have hfound' := (reported_eq_iff_reports t' catalog config _).2 (.rootless hsize' hroot')
  rw [h.root] at hfound'
  have hperm : (t'.reported catalog config).Perm (t.reported catalog config) := by
    rw [hfound, hfound']
    exact (Validation.misplaced_perm h).append_right _
  have hcycles := (hperm.filterMap Finding.cycle?).length_eq
  refine h.agree_of_parts (hfound.trans (List.append_nil _).symm)
    (hfound'.trans (List.append_nil _).symm) nofun nofun (hperm.filterMap _) ?_
  rw [← List.length_pos_iff, hcycles, List.length_pos_iff]

/-- The sweeps of both trees find the same elements not to be reached, each of them once. -/
theorem expanded_swept_perm (h : Reordered t t') {children final : List String}
    {visits swept swept' : List Walk.Visit}
    (hstart : Walk.Start t.links [] t.root children visits final)
    (hswept : Walk.Swept t.links final (Entries.names t.links) swept)
    (hswept' : Walk.Swept t'.links final (Entries.names t'.links) swept') :
    (Walk.expanded swept').Perm (Walk.expanded swept) := by
  refine (List.perm_ext_iff_of_nodup hswept'.expanded_nodup.1 hswept.expanded_nodup.1).2 ?_
  intro key
  have hnames : key ∈ Entries.names t'.links ↔ key ∈ Entries.names t.links :=
    (h.links_perm.map _).mem_iff
  rw [Walk.mem_expanded_swept_iff hstart hswept,
    Walk.mem_expanded_swept_iff (h.start hstart) hswept', hnames, h.reaches_eq, h.root]

theorem agree_of_searched (h : Reordered t t') (hsize : t.elements.length ≤ config.maxNodes)
    (hroot : t.element? t.root = some root) :
    Finding.Agree t t' (t.reported catalog config) (t'.reported catalog config) := by
  have hsize' : t'.elements.length ≤ config.maxNodes := h.elements.length_eq ▸ hsize
  have hroot' : t'.element? t'.root = some root := by rw [h.root, h.element?_eq, hroot]
  obtain ⟨visits, final, hstart⟩ :=
    Walk.Start.exists_start List.not_mem_nil (Validation.get?_links_of_element? hroot)
  have hstart' := h.start hstart
  have hswept := Walk.swept_sweep final (List.Subset.refl (Entries.names t.links))
  have hswept' := Walk.swept_sweep final (List.Subset.refl (Entries.names t'.links))
  obtain ⟨horphans, hcycles⟩ := graph_reported catalog hsize hroot hstart
  obtain ⟨horphans', hcycles'⟩ := graph_reported catalog hsize' hroot' hstart'
  have hfound := reported_of_start catalog hsize hroot hstart
  have hfound' := reported_of_start catalog hsize' hroot' hstart'
  rw [h.reachedFindings_eq, h.root] at hfound'
  refine h.agree_of_parts hfound hfound' (fun f => Validation.of_mem_detached hstart)
    (fun f => Validation.of_mem_detached hstart') ?orphans ?cycles
  case orphans =>
    rw [horphans, horphans']
    exact h.expanded_swept_perm hstart hswept hswept'
  case cycles =>
    rw [hcycles, hcycles', Ne, Ne, Validation.cycles_eq_nil_iff, Validation.cycles_eq_nil_iff,
      Walk.cycleFree_iff hstart hswept, Walk.cycleFree_iff hstart' hswept', Links.Above, h.lists_eq]

end Reordered

/-- The order in which the elements of a tree are given does not matter: either the tree is accepted
in both orders, as the same validated tree, or it is refused in both, and the reports agree. -/
theorem validate_reordered {t t' : Tree} (h : Reordered t t') (catalog : Catalog)
    (config : Config) :
    (∀ v, t.validate catalog config = .ok v → t'.validate catalog config = .ok v) ∧
      ∀ report, t.validate catalog config = .error report →
        ∃ report', t'.validate catalog config = .error report' ∧
          Finding.Agree t t' report.findings report'.findings := by
  refine ⟨fun v => h.validate_eq_ok, fun report hreport => ?_⟩
  cases hvalidate : t'.validate catalog config with
  | ok v =>
    rw [h.symm.validate_eq_ok hvalidate] at hreport
    cases hreport
  | error report' =>
    refine ⟨report', rfl, ?_⟩
    rw [← reported_of_error hreport, ← reported_of_error hvalidate]
    by_cases hsize : config.maxNodes < t.elements.length
    · exact h.agree_of_tooLarge hsize
    · cases hroot : t.element? t.root with
      | none => exact h.agree_of_rootless (Nat.not_lt.1 hsize) hroot
      | some root => exact h.agree_of_searched (Nat.not_lt.1 hsize) hroot

end Tree

namespace Sample

/-- The tangle with the three elements that the root does not reach the other way round. -/
def reversedTangle : Tree :=
  .ofElements "page" [
    ⟨"page", "Box", .object [], ["side"], none, none⟩,
    ⟨"side", "Box", .object [], [], some "page", none⟩,
    ⟨"right", "Box", .object [], ["left"], some "left", none⟩,
    ⟨"left", "Box", .object [], ["right"], some "lost", none⟩,
    ⟨"lost", "Box", .object [], ["left"], none, none⟩]

end Sample

/-- Which of two links between two boxes is found to close a cycle depends on the order. -/
theorem Tree.validate_reordered_tangle :
    Sample.tangle.Reordered Sample.reversedTangle ∧
      ∃ report report', Sample.tangle.validate ⟨[], []⟩ Config.default = .error report ∧
        Sample.reversedTangle.validate ⟨[], []⟩ Config.default = .error report' ∧
        Finding.Agree Sample.tangle Sample.reversedTangle report.findings report'.findings ∧
        report.findings.filterMap Finding.cycle? = [("right", "left")] ∧
        report'.findings.filterMap Finding.cycle? = [("left", "right")] := by
  have hreordered : Sample.tangle.Reordered Sample.reversedTangle :=
    ⟨rfl, ((List.reverse_perm (Sample.tangle.elements.drop 2)).cons _).cons _⟩
  obtain ⟨report, hreport⟩ :
      ∃ report, Sample.tangle.validate ⟨[], []⟩ Config.default = .error report := ⟨_, by cbv⟩
  obtain ⟨-, hrefused⟩ := Tree.validate_reordered hreordered ⟨[], []⟩ Config.default
  obtain ⟨report', hreport', hagree⟩ := hrefused report hreport
  refine ⟨hreordered, report, report', hreport, hreport', hagree, ?_, ?_⟩
  · rw [← Tree.reported_of_error hreport]
    cbv
  · rw [← Tree.reported_of_error hreport']
    cbv

end CatalogUi
