import CatalogUi.Proofs.Diagnosis

/-!
Cycles and orphans. A walk reports a cycle at a link back onto its path, and there is such a link
just when some key stands above itself: if there is none, then every key is left with nothing above
itself below it, so that going down from it ends. The walk from the root and those from the keys that
it left out share what they have visited, and together come to every key once; the orphans are the
keys that the root does not reach.
-/

namespace CatalogUi

namespace Walk

variable {links : Links}

/-- No visit closes a cycle. -/
def CycleFree (visits : List Visit) : Prop :=
  ∀ parent child, .cycle parent child ∉ visits

theorem CycleFree.tail {visit : Visit} {visits : List Visit} (h : CycleFree (visit :: visits)) :
    CycleFree visits :=
  fun parent child hmem => h parent child (List.mem_cons_of_mem _ hmem)

theorem cycleFree_append {visits visits' : List Visit} :
    CycleFree (visits ++ visits') ↔ CycleFree visits ∧ CycleFree visits' := by
  simp only [CycleFree, List.mem_append, not_or, forall_and]

namespace Descent

variable {path visited final children : List String} {key : String} {visits : List Visit}

/-- A child on the path stands above itself, since the path leads down to the key that lists it. -/
theorem above_of_cycle (h : Descent links path visited key children visits final)
    (hlists : ∀ child ∈ children, links.Lists key child)
    (hpath : ∀ above ∈ path, links.Reaches above key) {parent : Option String} {child : String}
    (hmem : .cycle parent child ∈ visits) : links.Above child child := by
  induction h with
  | done => exact (List.not_mem_nil hmem).elim
  | cycle hback _ ih =>
    obtain ⟨hchild, hrest⟩ := List.forall_mem_cons.1 hlists
    rcases List.mem_cons.1 hmem with heq | hmem
    · cases heq
      exact .tail' (hpath _ hback) hchild
    · exact ih hrest hpath hmem
  | again _ _ _ ih | missing _ _ _ _ ih =>
    rcases List.mem_cons.1 hmem with heq | hmem
    · cases heq
    · exact ih (List.forall_mem_cons.1 hlists).2 hpath hmem
  | first _ _ hchild _ _ ihbelow ihrest =>
    obtain ⟨hlist, hrest⟩ := List.forall_mem_cons.1 hlists
    rcases List.mem_cons.1 hmem with heq | hmem
    · cases heq
    rcases List.mem_append.1 hmem with hmem | hmem
    · refine ihbelow (fun other hother => ⟨_, hchild, hother⟩) (fun above habove => ?_) hmem
      rcases List.mem_cons.1 habove with rfl | habove
      · exact .refl
      · exact .tail (hpath above habove) hlist
    · exact ihrest hrest hpath hmem

/-- Without a link back onto the path, going down ends at every child, and at every key that is
visited by then and does not stand on the path. -/
theorem grounded (h : Descent links path visited key children visits final)
    (hcycle : CycleFree visits)
    (hvisited : ∀ other ∈ visited, other ∉ path → links.Grounded other) :
    (∀ child ∈ children, links.Grounded child) ∧
      ∀ other ∈ final, other ∉ path → links.Grounded other := by
  induction h with
  | done => exact ⟨fun _ hmem => (List.not_mem_nil hmem).elim, hvisited⟩
  | cycle => exact (hcycle _ _ List.mem_cons_self).elim
  | again hpath hold _ ih =>
    obtain ⟨hrest, hfinal⟩ := ih hcycle.tail hvisited
    exact ⟨List.forall_mem_cons.2 ⟨hvisited _ hold hpath, hrest⟩, hfinal⟩
  | missing _ _ hchild _ ih =>
    obtain ⟨hrest, hfinal⟩ := ih hcycle.tail hvisited
    refine ⟨List.forall_mem_cons.2 ⟨Acc.intro _ ?_, hrest⟩, hfinal⟩
    rintro below ⟨children, hchildren, -⟩
    rw [hchild] at hchildren
    cases hchildren
  | @first _ _ _ _ _ _ _ child _ _ _ _ hchild _ _ ihbelow ihrest =>
    obtain ⟨hcycleBelow, hcycleAfter⟩ := cycleFree_append.1 hcycle.tail
    obtain ⟨hchildren, hbetween⟩ := ihbelow hcycleBelow fun other hmem hnot => by
      rw [List.mem_cons, not_or] at hnot
      exact hvisited other ((List.mem_cons.1 hmem).resolve_left hnot.1) hnot.2
    have hself := Links.grounded_of_children hchild hchildren
    obtain ⟨hrest, hfinal⟩ := ihrest hcycleAfter fun other hmem hnot => by
      by_cases heq : other = child
      · exact heq ▸ hself
      · exact hbetween other hmem (by rw [List.mem_cons, not_or]; exact ⟨heq, hnot⟩)
    exact ⟨List.forall_mem_cons.2 ⟨hself, hrest⟩, hfinal⟩

/-- What becomes visited is reached from the key whose children are visited. -/
theorem reaches (h : Descent links path visited key children visits final)
    (hlists : ∀ child ∈ children, links.Lists key child) {other : String} (hmem : other ∈ final) :
    other ∈ visited ∨ links.Reaches key other := by
  induction h generalizing other with
  | done => exact .inl hmem
  | cycle _ _ ih | again _ _ _ ih | missing _ _ _ _ ih =>
    exact ih (List.forall_mem_cons.1 hlists).2 hmem
  | first _ _ hchild _ _ ihbelow ihrest =>
    obtain ⟨hlist, hrest⟩ := List.forall_mem_cons.1 hlists
    rcases ihrest hrest hmem with hmem | hreach
    · rcases ihbelow (fun child hchildren => ⟨_, hchild, hchildren⟩) hmem with hmem | hreach
      · rcases List.mem_cons.1 hmem with rfl | hmem
        · exact .inr (.single hlist)
        · exact .inl hmem
      · exact .inr (.head hlist hreach)
    · exact .inr hreach

end Descent

/-! ## The walk from a start -/

namespace Start

variable {visited final children : List String} {key : String} {visits : List Visit}

theorem above_of_cycle (h : Start links visited key children visits final)
    {parent : Option String} {child : String} (hmem : .cycle parent child ∈ visits) :
    links.Above child child := by
  refine h.descent.above_of_cycle h.lists (fun above habove => ?_) hmem
  rw [List.mem_singleton.1 habove]

theorem grounded (h : Start links visited key children visits final)
    (hcycle : CycleFree visits)
    (hvisited : ∀ other ∈ visited, links.Grounded other) :
    ∀ other ∈ final, links.Grounded other := by
  obtain ⟨hchildren, hfinal⟩ := h.descent.grounded hcycle fun other hmem hnot => by
    rw [List.mem_singleton] at hnot
    exact hvisited other ((List.mem_cons.1 hmem).resolve_left hnot)
  intro other hmem
  by_cases heq : other = key
  · rw [heq]
    exact Links.grounded_of_children h.children_eq hchildren
  · exact hfinal other hmem (by rwa [List.mem_singleton])

/-- A walk that is the first one comes to the keys that its start reaches. -/
theorem mem_final_iff (h : Start links [] key children visits final) {other : String} :
    other ∈ final ↔ other ∈ Entries.names links ∧ links.Reaches key other := by
  have hrun := h.run
  constructor
  · intro hmem
    refine ⟨?_, ?_⟩
    · have hexpanded := (mem_expanded_iff_mem_final hrun).2 hmem
      exact Entries.mem_names_iff.2 (hrun.expanded_nodup.2 other hexpanded).2
    · rcases h.descent.reaches h.lists hmem with hmem | hreach
      · rw [List.mem_singleton.1 hmem]
      · exact hreach
  · -- A key that the walk comes to is visited unless it does not exist.
    have hvisited {parent : Option String} {name : String}
        (hlink : ∃ visit ∈ .first none key :: visits, visit.link = (parent, name))
        (hname : name ∈ Entries.names links) : name ∈ final := by
      obtain ⟨visit, hmem, hlink⟩ := hlink
      obtain rfl : visit.key = name := congrArg Prod.snd hlink
      refine (hrun.visited_or_missing (List.Subset.refl _) visit hmem).resolve_right ?_
      rintro ⟨hmissing, -⟩
      exact Entries.get?_eq_none_iff.1 hmissing hname
    rintro ⟨hother, hreach⟩
    induction hreach with
    | refl => exact hvisited ((exists_visit_iff hrun).2 (.inl rfl)) hother
    | tail _ hlists ih =>
      obtain ⟨children', hlister, -⟩ := id hlists
      have hmem := ih (Entries.mem_names_iff.2 ⟨children', hlister⟩)
      exact hvisited ((exists_visit_iff hrun).2 (.inr ⟨_, hmem, rfl, hlists⟩)) hother

end Start

/-! ## Sweeps -/

theorem expanded_append (visits visits' : List Visit) :
    expanded (visits ++ visits') = expanded visits ++ expanded visits' :=
  List.filterMap_append

namespace Swept

variable {visited keys : List String} {visits : List Visit}

/-- A sweep visits each of the keys that was not visited before, and nothing else twice. -/
theorem expanded_nodup (h : Swept links visited keys visits) :
    (expanded visits).Nodup ∧
    (∀ key ∈ expanded visits, key ∉ visited ∧ key ∈ Entries.names links) ∧
    ∀ key ∈ keys, key ∈ visited ∨ key ∈ expanded visits := by
  induction h with
  | done => exact ⟨List.nodup_nil, nofun, nofun⟩
  | skip hvisited _ ih =>
    obtain ⟨hnodup, hfresh, hall⟩ := ih
    exact ⟨hnodup, hfresh, List.forall_mem_cons.2 ⟨.inl hvisited, hall⟩⟩
  | @start visited final _ _ key visits after hstart _ ih =>
    obtain ⟨hnodup, hfresh, hall⟩ := ih
    obtain ⟨hnodup', hfresh'⟩ := hstart.run.expanded_nodup
    have hfinal (other : String) :
        other ∈ final ↔ other ∈ expanded (.first none key :: visits) ∨ other ∈ visited := by
      rw [hstart.run.final_eq, List.mem_append, List.mem_reverse]
    rw [← List.cons_append, expanded_append]
    refine ⟨List.nodup_append.2 ⟨hnodup', hnodup, ?_⟩, fun other hmem => ?_, fun other hmem => ?_⟩
    · rintro other hmem _ hmem' rfl
      exact (hfresh other hmem').1 ((hfinal other).2 (.inl hmem))
    · rcases List.mem_append.1 hmem with hmem | hmem
      · exact ⟨(hfresh' other hmem).1, Entries.mem_names_iff.2 (hfresh' other hmem).2⟩
      · obtain ⟨hnot, hname⟩ := hfresh other hmem
        exact ⟨fun hold => hnot ((hfinal other).2 (.inr hold)), hname⟩
    · rw [List.mem_append]
      rcases List.mem_cons.1 hmem with rfl | hmem
      · exact .inr (.inl List.mem_cons_self)
      · rcases hall other hmem with hold | hnew
        · exact ((hfinal other).1 hold).elim (fun h => .inr (.inl h)) .inl
        · exact .inr (.inr hnew)

theorem above_of_cycle (h : Swept links visited keys visits) {parent : Option String}
    {child : String} (hmem : .cycle parent child ∈ visits) : links.Above child child := by
  induction h with
  | done => exact (List.not_mem_nil hmem).elim
  | skip _ _ ih => exact ih hmem
  | start hstart _ ih =>
    rcases List.mem_cons.1 hmem with heq | hmem
    · cases heq
    rcases List.mem_append.1 hmem with hmem | hmem
    · exact hstart.above_of_cycle hmem
    · exact ih hmem

/-- When a sweep meets no cycle, going down from all its keys ends, as it does from those visited
before. -/
theorem grounded (h : Swept links visited keys visits) (hcycle : CycleFree visits)
    (hvisited : ∀ other ∈ visited, links.Grounded other) : ∀ key ∈ keys, links.Grounded key := by
  induction h with
  | done => exact nofun
  | skip hold _ ih => exact List.forall_mem_cons.2 ⟨hvisited _ hold, ih hcycle hvisited⟩
  | start hstart _ ih =>
    obtain ⟨hbelow, hafter⟩ := cycleFree_append.1 hcycle.tail
    have hfinal := hstart.grounded hbelow hvisited
    have hkey := hfinal _ (hstart.descent.subset List.mem_cons_self)
    exact List.forall_mem_cons.2 ⟨hkey, ih hafter hfinal⟩

end Swept

end Walk

/-! ## What is found about the graph -/

namespace Finding

/-- The element that is found not to be reached. -/
def orphan? : Finding → Option String
  | .structural (.orphan key) => some key
  | _ => none

/-- The link that is found to close a cycle: who lists whom. -/
def cycle? : Finding → Option (String × String)
  | .structural (.cycle parent child) => some (parent, child)
  | _ => none

/-- A finding that is neither an orphan nor a cycle. -/
def IsLocal (f : Finding) : Prop := f.orphan? = none ∧ f.cycle? = none

end Finding

/-- The link of a visit that closes a cycle. -/
def Walk.Visit.cycle? : Walk.Visit → Option (String × String)
  | .cycle parent key => some (parent.getD "", key)
  | _ => none

namespace Validation

variable {catalog : Catalog} {config : Config} {t : Tree} {e : Element} {f : Finding}

theorem isLocal_of_mem_ownFindings (h : f ∈ ownFindings catalog config e) : f.IsLocal := by
  rw [ownFindings] at h
  split at h
  · cases List.mem_singleton.1 h
    exact ⟨rfl, rfl⟩
  · rcases List.mem_append.1 h with h | h
    · rcases List.mem_append.1 h with h | h
      · obtain ⟨error, -, rfl⟩ := List.mem_map.1 h
        exact ⟨rfl, rfl⟩
      · split at h
        · cases List.mem_singleton.1 h
          exact ⟨rfl, rfl⟩
        · exact (List.not_mem_nil h).elim
    · obtain ⟨issue, -, rfl⟩ := List.mem_map.1 h
      cases issue <;> exact ⟨rfl, rfl⟩

theorem isLocal_of_mem_parentFindings {parent : Option String} {key : String}
    (h : f ∈ parentFindings parent key e) : f.IsLocal := by
  cases parent with
  | none => exact (List.not_mem_nil h).elim
  | some lister =>
    rw [parentFindings] at h
    split at h
    · exact (List.not_mem_nil h).elim
    · cases List.mem_singleton.1 h
      exact ⟨rfl, rfl⟩

/-- What is found in front of the visits says nothing about the graph. -/
theorem isLocal_of_mem_front {root : Element}
    (h : f ∈ misplaced t ++
      (root.parentKey.toList.map fun parent => .structural (.rootHasParent t.root parent)) ++
      ownFindings catalog config root) : f.IsLocal := by
  rcases List.mem_append.1 h with h | h
  · rcases List.mem_append.1 h with h | h
    · obtain ⟨entry, -, rfl⟩ := List.mem_map.1 h
      exact ⟨rfl, rfl⟩
    · obtain ⟨parent, -, rfl⟩ := List.mem_map.1 h
      exact ⟨rfl, rfl⟩
  · exact isLocal_of_mem_ownFindings h

theorem isLocal_of_mem_first {parent : Option String} {key : String}
    (h : f ∈ reachedFindings catalog config t (.first parent key)) : f.IsLocal := by
  rw [reachedFindings] at h
  split at h
  · exact (List.not_mem_nil h).elim
  · rw [elementFindings_eq] at h
    exact (List.mem_append.1 h).elim isLocal_of_mem_parentFindings isLocal_of_mem_ownFindings

theorem orphans_eq_nil {findings : List Finding} (h : ∀ f ∈ findings, f.IsLocal) :
    findings.filterMap Finding.orphan? = [] :=
  List.filterMap_eq_nil_iff.2 fun f hmem => (h f hmem).1

theorem cycles_eq_nil {findings : List Finding} (h : ∀ f ∈ findings, f.IsLocal) :
    findings.filterMap Finding.cycle? = [] :=
  List.filterMap_eq_nil_iff.2 fun f hmem => (h f hmem).2

/-- On the walk from the root nothing is an orphan, and cycles are found where the walk comes back to
its path. -/
theorem graph_reached (catalog : Catalog) (config : Config) (t : Tree) (visits : List Walk.Visit) :
    (visits.flatMap (reachedFindings catalog config t)).filterMap Finding.orphan? = [] ∧
      (visits.flatMap (reachedFindings catalog config t)).filterMap Finding.cycle? =
        visits.filterMap Walk.Visit.cycle? := by
  induction visits with
  | nil => exact ⟨rfl, rfl⟩
  | cons visit rest ih =>
    rw [List.flatMap_cons, List.filterMap_append, List.filterMap_append, ih.1, ih.2]
    cases visit with
    | first parent key =>
      rw [orphans_eq_nil fun f => isLocal_of_mem_first, cycles_eq_nil fun f => isLocal_of_mem_first]
      exact ⟨rfl, rfl⟩
    | cycle | again | missing => exact ⟨rfl, rfl⟩

/-- Among the elements that are left, all that is expanded is an orphan. -/
theorem graph_detached (visits : List Walk.Visit) :
    (visits.flatMap detachedFindings).filterMap Finding.orphan? = Walk.expanded visits ∧
      (visits.flatMap detachedFindings).filterMap Finding.cycle? =
        visits.filterMap Walk.Visit.cycle? := by
  induction visits with
  | nil => exact ⟨rfl, rfl⟩
  | cons visit rest ih =>
    rw [List.flatMap_cons, List.filterMap_append, List.filterMap_append, ih.1, ih.2]
    cases visit <;> exact ⟨rfl, rfl⟩

theorem cycles_eq_nil_iff {visits : List Walk.Visit} :
    visits.filterMap Walk.Visit.cycle? = [] ↔ Walk.CycleFree visits := by
  rw [List.filterMap_eq_nil_iff]
  constructor
  · intro h parent child hmem
    cases h _ hmem
  · intro h visit hmem
    cases visit with
    | cycle parent child => exact (h parent child hmem).elim
    | first | again | missing => rfl

end Validation

/-- The orphans and the cycles in the findings about a tree whose walk from the root is known. -/
theorem Tree.graph_reported {t : Tree} (catalog : Catalog) {config : Config} {root : Element}
    (hsize : t.elements.length ≤ config.maxNodes) (hroot : t.element? t.root = some root)
    {visits : List Walk.Visit} {final : List String}
    (h : Walk.Start t.links [] t.root root.children visits final) :
    let swept := Walk.sweep t.links final (Entries.names t.links)
    (t.reported catalog config).filterMap Finding.orphan? = Walk.expanded swept ∧
      (t.reported catalog config).filterMap Finding.cycle? =
        (visits ++ swept).filterMap Walk.Visit.cycle? := by
  intro swept
  obtain ⟨horphan, hcycle⟩ := Validation.graph_reached catalog config t visits
  obtain ⟨horphan', hcycle'⟩ := Validation.graph_detached swept
  rw [reported_eq, Validation.findings_of_start hsize hroot h, ← names_links]
  constructor
  · rw [List.filterMap_append, List.filterMap_append, horphan,
      Validation.orphans_eq_nil fun f => Validation.isLocal_of_mem_front]
    exact horphan'
  · rw [List.filterMap_append, List.filterMap_append, hcycle,
      Validation.cycles_eq_nil fun f => Validation.isLocal_of_mem_front, List.filterMap_append]
    exact congrArg _ hcycle'

/-- Where a tree is not too large and has its root, its report names as an orphan each element that
the root does not reach, once, and nothing else. It names a link that closes a cycle just when some
key stands above itself, wherever that is. -/
theorem Tree.reported_cycles_and_orphans {t : Tree} {catalog : Catalog} {config : Config}
    {root : Element} (hsize : t.elements.length ≤ config.maxNodes)
    (hroot : t.element? t.root = some root) :
    let orphans := (t.reported catalog config).filterMap Finding.orphan?
    let cycles := (t.reported catalog config).filterMap Finding.cycle?
    (orphans.Nodup ∧ ∀ key, key ∈ orphans ↔
      (∃ e, t.element? key = some e) ∧ ¬ t.links.Reaches t.root key) ∧
    (cycles ≠ [] ↔ ∃ key, t.links.Above key key) := by
  obtain ⟨visits, final, hstart⟩ :=
    Walk.Start.exists_start List.not_mem_nil (Validation.get?_links_of_element? hroot)
  obtain ⟨horphans, hcycles⟩ := graph_reported catalog hsize hroot hstart
  have hswept := Walk.swept_sweep final (List.Subset.refl (Entries.names t.links))
  intro orphans cycles
  rw [show orphans = _ from horphans, show cycles = _ from hcycles]
  refine ⟨⟨?once, fun key => ?orphan⟩, ?cycle⟩
  case once => exact hswept.expanded_nodup.1
  case orphan =>
    obtain ⟨-, hfresh, hall⟩ := hswept.expanded_nodup
    have hreached : key ∈ final ↔ _ := hstart.mem_final_iff
    rw [← mem_names_links]
    constructor
    · intro hmem
      obtain ⟨hnot, hname⟩ := hfresh key hmem
      exact ⟨hname, fun hreach => hnot (hreached.2 ⟨hname, hreach⟩)⟩
    · rintro ⟨hname, hnot⟩
      exact (hall key hname).resolve_left fun hmem => hnot (hreached.1 hmem).2
  case cycle =>
    rw [Ne, Validation.cycles_eq_nil_iff]
    constructor
    · intro hcycle
      obtain ⟨parent, child, hmem⟩ : ∃ parent child, .cycle parent child ∈ visits ++ _ := by
        simpa only [Walk.CycleFree, not_forall, not_not] using hcycle
      rcases List.mem_append.1 hmem with hmem | hmem
      · exact ⟨child, hstart.above_of_cycle hmem⟩
      · exact ⟨child, hswept.above_of_cycle hmem⟩
    · -- If no cycle is met, going down ends everywhere, also at a key that stands above itself.
      rintro ⟨key, habove⟩ hcycle
      obtain ⟨hreached, hdetached⟩ := Walk.cycleFree_append.1 hcycle
      have hgrounded := hswept.grounded hdetached (hstart.grounded hreached nofun)
      obtain ⟨below, ⟨children, hchildren, -⟩, -⟩ := Relation.TransGen.head'_iff.1 habove
      have hkey := Entries.mem_names_iff.2 ⟨children, hchildren⟩
      exact (hgrounded key hkey).not_above_self habove

namespace Sample

/-- A page with a side box, and a lost box that lists one of two boxes that list each other. -/
def tangle : Tree :=
  .ofElements "page" [
    ⟨"page", "Box", .object [], ["side"], none, none⟩,
    ⟨"side", "Box", .object [], [], some "page", none⟩,
    ⟨"lost", "Box", .object [], ["left"], none, none⟩,
    ⟨"left", "Box", .object [], ["right"], some "lost", none⟩,
    ⟨"right", "Box", .object [], ["left"], some "left", none⟩]

end Sample

/-- Three boxes of the tangle are orphans, and the two that list each other are found to make a
cycle, although no type is known. -/
theorem Tree.reported_cycles_and_orphans_tangle :
    Sample.tangle.elements.length ≤ Config.default.maxNodes ∧
      (∃ root, Sample.tangle.element? "page" = some root) ∧
      (Sample.tangle.reported ⟨[], []⟩ Config.default).filterMap Finding.orphan? =
        ["lost", "left", "right"] ∧
      ¬ Sample.tangle.links.Reaches "page" "right" ∧
      (Sample.tangle.reported ⟨[], []⟩ Config.default).filterMap Finding.cycle? ≠ [] := by
  have hsize : Sample.tangle.elements.length ≤ Config.default.maxNodes := by decide
  have hroot : ∃ root, Sample.tangle.element? "page" = some root := ⟨_, rfl⟩
  have horphans : (Sample.tangle.reported ⟨[], []⟩ Config.default).filterMap Finding.orphan? =
      ["lost", "left", "right"] := by cbv
  obtain ⟨root, hroot'⟩ := hroot
  obtain ⟨⟨-, hmem⟩, hcycle⟩ :=
    @Tree.reported_cycles_and_orphans Sample.tangle ⟨[], []⟩ Config.default root hsize hroot'
  have hright := (hmem "right").1 (by rw [horphans]; decide)
  refine ⟨hsize, ⟨root, hroot'⟩, horphans, hright.2, hcycle.2 ⟨"left", ?_⟩⟩
  exact .head ⟨["right"], rfl, List.mem_cons_self⟩ (.single ⟨["left"], rfl, List.mem_cons_self⟩)

end CatalogUi
