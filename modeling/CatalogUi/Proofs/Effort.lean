import CatalogUi.Proofs.Accounting
import Mathlib.Algebra.BigOperators.Group.List.Basic

/-!
How much a survey takes. In each turn a survey takes one frame from its stack, or, when there is none,
looks at the next key of the sweep. A key can be on the stack many times and be expanded only once, so
what counts is the frames on the stack together with those that the keys not visited yet can still put
there: one to leave each of them, and one for each of its children. Taking a frame makes this number
smaller by one, whatever the frame is. Hence every survey ends, and the walk from the root takes as
many frames as the keys that it reaches put on the stack, and the one that it began with.
-/

namespace CatalogUi

namespace Walk

/-! ## Turns -/

/-- Where a survey stands. -/
structure State where
  visited : List String
  onPath : List String
  stack : List Frame
  /-- The visits so far, in order. -/
  visits : List Visit
  /-- The keys that the sweep has still to look at. -/
  waiting : List String

/-- The frame on top of the stack is taken. A key that is visited for the first time is expanded: its
children are put on the stack, and below them a frame to leave the key. -/
inductive Pop (links : Links) : State → State → Prop
  | leave {visited onPath waiting : List String} {key : String} {rest : List Frame}
      {visits : List Visit} :
      Pop links ⟨visited, onPath, .leave key :: rest, visits, waiting⟩
        ⟨visited, onPath.erase key, rest, visits, waiting⟩
  | cycle {visited onPath waiting : List String} {parent : Option String} {key : String}
      {rest : List Frame} {visits : List Visit} (hpath : key ∈ onPath) :
      Pop links ⟨visited, onPath, .enter parent key :: rest, visits, waiting⟩
        ⟨visited, onPath, rest, visits ++ [.cycle parent key], waiting⟩
  | again {visited onPath waiting : List String} {parent : Option String} {key : String}
      {rest : List Frame} {visits : List Visit} (hpath : key ∉ onPath) (hvisited : key ∈ visited) :
      Pop links ⟨visited, onPath, .enter parent key :: rest, visits, waiting⟩
        ⟨visited, onPath, rest, visits ++ [.again parent key], waiting⟩
  | missing {visited onPath waiting : List String} {parent : Option String} {key : String}
      {rest : List Frame} {visits : List Visit} (hpath : key ∉ onPath) (hnew : key ∉ visited)
      (hkey : Entries.get? links key = none) :
      Pop links ⟨visited, onPath, .enter parent key :: rest, visits, waiting⟩
        ⟨visited, onPath, rest, visits ++ [.missing parent key], waiting⟩
  | expand {visited onPath waiting children : List String} {parent : Option String} {key : String}
      {rest : List Frame} {visits : List Visit} (hpath : key ∉ onPath) (hnew : key ∉ visited)
      (hkey : Entries.get? links key = some children) :
      Pop links ⟨visited, onPath, .enter parent key :: rest, visits, waiting⟩
        ⟨key :: visited, key :: onPath, children.map (.enter (some key)) ++ .leave key :: rest,
          visits ++ [.first parent key], waiting⟩

/-- One turn of a survey. With nothing on the stack the sweep goes on, and starts a walk with an empty
path at a key that was not visited by then. -/
inductive Turn (links : Links) : State → State → Prop
  | pop {s s' : State} (h : Pop links s s') : Turn links s s'
  | skip {visited onPath waiting : List String} {key : String} {visits : List Visit}
      (hvisited : key ∈ visited) :
      Turn links ⟨visited, onPath, [], visits, key :: waiting⟩
        ⟨visited, onPath, [], visits, waiting⟩
  | start {visited onPath waiting : List String} {key : String} {visits : List Visit}
      (hnew : key ∉ visited) :
      Turn links ⟨visited, onPath, [], visits, key :: waiting⟩
        ⟨visited, [], [.enter none key], visits, waiting⟩

/-- A number of frames are taken, one after the other. -/
inductive Pops (links : Links) : Nat → State → State → Prop
  | none {s : State} : Pops links 0 s s
  | pop {n : Nat} {s s' s'' : State} (h : Pop links s s') (hrest : Pops links n s' s'') :
      Pops links (n + 1) s s''

variable {links : Links} {s s' s'' : State}

theorem Pop.unique (h : Pop links s s') (h' : Pop links s s'') : s' = s'' := by
  cases h with
  | leave => cases h'; rfl
  | cycle hpath =>
    cases h' with
    | cycle => rfl
    | again hpath' | missing hpath' | expand hpath' => exact absurd hpath hpath'
  | again hpath hvisited =>
    cases h' with
    | cycle hpath' => exact absurd hpath' hpath
    | again => rfl
    | missing _ hnew | expand _ hnew => exact absurd hvisited hnew
  | missing hpath hnew hkey =>
    cases h' with
    | cycle hpath' => exact absurd hpath' hpath
    | again _ hvisited => exact absurd hvisited hnew
    | missing => rfl
    | expand _ _ hkey' => cases hkey.symm.trans hkey'
  | expand hpath hnew hkey =>
    cases h' with
    | cycle hpath' => exact absurd hpath' hpath
    | again _ hvisited => exact absurd hvisited hnew
    | missing _ _ hkey' => cases hkey.symm.trans hkey'
    | expand _ _ hkey' =>
      cases hkey.symm.trans hkey'
      rfl

theorem Pop.stack_ne_nil (h : Pop links s s') : s.stack ≠ [] := by
  cases h <;> exact List.cons_ne_nil _ _

/-- There is one way to go on. -/
theorem Turn.unique (h : Turn links s s') (h' : Turn links s s'') : s' = s'' := by
  cases h with
  | pop h =>
    cases h' with
    | pop h' => exact h.unique h'
    | skip | start => exact absurd rfl h.stack_ne_nil
  | skip hvisited =>
    cases h' with
    | pop h' => exact absurd rfl h'.stack_ne_nil
    | skip => rfl
    | start hnew => exact absurd hvisited hnew
  | start hnew =>
    cases h' with
    | pop h' => exact absurd rfl h'.stack_ne_nil
    | skip hvisited => exact absurd hvisited hnew
    | start => rfl

theorem exists_pop (links : Links) (h : s.stack ≠ []) : ∃ s', Pop links s s' := by
  obtain ⟨visited, onPath, stack, visits, waiting⟩ := s
  obtain ⟨frame, rest, rfl⟩ := List.exists_cons_of_ne_nil h
  cases frame with
  | leave key => exact ⟨_, .leave⟩
  | enter parent key =>
    by_cases hpath : key ∈ onPath
    · exact ⟨_, .cycle hpath⟩
    by_cases hvisited : key ∈ visited
    · exact ⟨_, .again hpath hvisited⟩
    cases hkey : Entries.get? links key with
    | none => exact ⟨_, .missing hpath hvisited hkey⟩
    | some children => exact ⟨_, .expand hpath hvisited hkey⟩

/-- A survey goes on until the stack is empty and no key waits for the sweep. -/
theorem exists_turn_iff : (∃ s', Turn links s s') ↔ s.stack ≠ [] ∨ s.waiting ≠ [] := by
  constructor
  · rintro ⟨s', h⟩
    cases h with
    | pop h => exact .inl h.stack_ne_nil
    | skip | start => exact .inr (List.cons_ne_nil _ _)
  · intro h
    by_cases hstack : s.stack = []
    · obtain ⟨visited, onPath, stack, visits, waiting⟩ := s
      obtain ⟨key, rest, rfl⟩ := List.exists_cons_of_ne_nil (h.resolve_left (not_not.2 hstack))
      cases hstack
      by_cases hvisited : key ∈ visited
      · exact ⟨_, .skip hvisited⟩
      · exact ⟨_, .start hvisited⟩
    · obtain ⟨s', hpop⟩ := exists_pop links hstack
      exact ⟨s', .pop hpop⟩

/-! ## What is ahead -/

/-- The frames that a key puts on the stack when it is expanded. -/
def effort (links : Links) (key : String) : Nat := 1 + (links.childrenOf key).length

/-- The keys that can still be expanded. -/
def fresh (links : Links) (visited : List String) : List String :=
  (Entries.names links).filter (· ∉ visited)

/-- The frames on the stack, and those that the fresh keys can still put there. -/
def State.ahead (links : Links) (s : State) : Nat :=
  s.stack.length + ((fresh links s.visited).map (effort links)).sum

theorem fresh_perm (hd : Entries.Distinct links) {visited : List String} {key : String}
    (hkey : key ∈ Entries.names links) (hnew : key ∉ visited) :
    (fresh links visited).Perm (key :: fresh links (key :: visited)) := by
  have hmem : key ∈ fresh links visited := List.mem_filter.2 ⟨hkey, decide_eq_true hnew⟩
  have hrest : (fresh links visited).erase key = fresh links (key :: visited) := by
    rw [fresh, fresh, List.Nodup.erase_eq_filter (List.Nodup.filter _ hd), List.filter_filter]
    refine List.filter_congr fun other _ => ?_
    by_cases heq : other = key <;> simp [heq]
  rw [← hrest]
  exact List.perm_cons_erase hmem

/-- Each frame that is taken leaves one less ahead. A key that is expanded puts on the stack just what
was counted for it. -/
theorem Pop.ahead_eq (hd : Entries.Distinct links) (h : Pop links s s') :
    s.ahead links = s'.ahead links + 1 := by
  cases h with
  | leave | cycle | again | missing => simp only [State.ahead, List.length_cons]; omega
  | @expand visited _ _ children _ key _ _ _ hnew hkey =>
    have heffort : effort links key = 1 + children.length := by
      rw [effort, Links.childrenOf, hkey]
      rfl
    have hsum := ((fresh_perm hd (Entries.mem_names_iff.2 ⟨children, hkey⟩) hnew).map
      (effort links)).sum_eq
    rw [List.map_cons, List.sum_cons, heffort] at hsum
    simp only [State.ahead, hsum, List.length_cons, List.length_append, List.length_map]
    omega

theorem Pop.waiting_eq (h : Pop links s s') : s'.waiting = s.waiting := by
  cases h <;> rfl

theorem Pops.ahead_eq (hd : Entries.Distinct links) {n : Nat} (h : Pops links n s s') :
    s.ahead links = s'.ahead links + n := by
  induction h with
  | none => rfl
  | pop h _ ih =>
    rw [h.ahead_eq hd, ih]
    omega

theorem Pops.turns {n : Nat} (h : Pops links n s s') :
    Relation.ReflTransGen (Turn links) s s' := by
  induction h with
  | none => exact .refl
  | pop h _ ih => exact .head (.pop h) ih

/-- A survey comes to an end from wherever it stands. A key that waits counts twice, since it can put
one frame on the stack when its turn comes. -/
theorem wellFounded_turn (hd : Entries.Distinct links) :
    WellFounded fun s' s => Turn links s s' := by
  refine Subrelation.wf ?_ (measure fun s => s.ahead links + 2 * s.waiting.length).wf
  intro s' s h
  show s'.ahead links + 2 * s'.waiting.length < s.ahead links + 2 * s.waiting.length
  cases h with
  | pop h =>
    rw [h.ahead_eq hd, h.waiting_eq]
    omega
  | skip | start => simp only [State.ahead, List.length_cons, List.length_nil]; omega

/-! ## The turns of a survey -/

variable {visited onPath final waiting : List String} {stack : List Frame}
  {visits earlier : List Visit}

/-- Taking frames makes the visits of the walk. -/
theorem Run.exists_pops (h : Run links visited onPath stack visits final) :
    ∃ n onPath', Pops links n ⟨visited, onPath, stack, earlier, waiting⟩
      ⟨final, onPath', [], earlier ++ visits, waiting⟩ := by
  induction h generalizing earlier with
  | @done visited onPath =>
    refine ⟨0, onPath, ?_⟩
    rw [List.append_nil]
    exact .none
  | leave _ ih =>
    obtain ⟨n, onPath', hpops⟩ := ih
    exact ⟨n + 1, onPath', .pop .leave hpops⟩
  | cycle hpath _ ih =>
    obtain ⟨n, onPath', hpops⟩ := ih
    rw [← List.append_cons] at hpops
    exact ⟨n + 1, onPath', .pop (.cycle hpath) hpops⟩
  | again hpath hvisited _ ih =>
    obtain ⟨n, onPath', hpops⟩ := ih
    rw [← List.append_cons] at hpops
    exact ⟨n + 1, onPath', .pop (.again hpath hvisited) hpops⟩
  | missing hpath hnew hkey _ ih =>
    obtain ⟨n, onPath', hpops⟩ := ih
    rw [← List.append_cons] at hpops
    exact ⟨n + 1, onPath', .pop (.missing hpath hnew hkey) hpops⟩
  | first hpath hnew hkey _ ih =>
    obtain ⟨n, onPath', hpops⟩ := ih
    rw [← List.append_cons] at hpops
    exact ⟨n + 1, onPath', .pop (.expand hpath hnew hkey) hpops⟩

/-- The turns of a sweep make its visits, behind those that were made before. -/
theorem Swept.exists_turns {keys : List String} (h : Swept links visited keys visits) :
    ∃ visited' onPath', Relation.ReflTransGen (Turn links)
      ⟨visited, onPath, [], earlier, keys⟩ ⟨visited', onPath', [], earlier ++ visits, []⟩ := by
  induction h generalizing onPath earlier with
  | @done visited =>
    refine ⟨visited, onPath, ?_⟩
    rw [List.append_nil]
  | skip hvisited _ ih =>
    obtain ⟨visited', onPath', hturns⟩ := ih
    exact ⟨visited', onPath', .head (.skip hvisited) hturns⟩
  | start hstart _ ih =>
    obtain ⟨n, between, hpops⟩ := hstart.run.exists_pops
    obtain ⟨visited', onPath', hturns⟩ := ih
    refine ⟨visited', onPath', .head (.start hstart.new) (hpops.turns.trans ?_)⟩
    rw [← List.cons_append, ← List.append_assoc]
    exact hturns

/-- A walk from the start and the sweep after it expand every key once. -/
theorem expanded_survey_perm (hd : Entries.Distinct links) {root : String} {swept : List Visit}
    (hrun : Run links [] [] [.enter none root] visits final)
    (hswept : Swept links final (Entries.names links) swept) :
    (expanded (visits ++ swept)).Perm (Entries.names links) := by
  obtain ⟨hearly, hkeys⟩ := hrun.expanded_nodup
  obtain ⟨hlate, hfresh, hall⟩ := hswept.expanded_nodup
  have hfinal (key : String) : key ∈ expanded visits ↔ key ∈ final :=
    mem_expanded_iff_mem_final hrun
  have hdisjoint : (expanded visits).Disjoint (expanded swept) :=
    fun key hmem hmem' => (hfresh key hmem').1 ((hfinal key).1 hmem)
  rw [expanded_append]
  refine (List.perm_ext_iff_of_nodup (hearly.append hlate hdisjoint) hd).2 fun key => ?_
  rw [List.mem_append]
  constructor
  · rintro (hmem | hmem)
    · exact Entries.mem_names_iff.2 (hkeys key hmem).2
    · exact (hfresh key hmem).2
  · intro hname
    exact (hall key hname).imp_left (hfinal key).2

/-- A survey begins at the root, with every key to be looked at afterwards. -/
def State.start (links : Links) (root : String) : State where
  visited := []
  onPath := []
  stack := [.enter none root]
  visits := []
  waiting := Entries.names links

end Walk

namespace Tree

variable {t : Tree} {root : Element}

/-- The first visits come to each element that the root reaches, once. -/
theorem reachedKeys_perm_firstLinks (hroot : t.element? t.root = some root) :
    (t.root :: t.firstLinks.map (·.2)).Perm t.reachedKeys := by
  obtain ⟨visits, final, hstart⟩ :=
    Walk.Start.exists_start List.not_mem_nil (Validation.get?_links_of_element? hroot)
  have htree : t.firstLinks = Walk.firstLinks visits := by
    rw [firstLinks, Walk.survey, hstart.walk_eq]
    rfl
  rw [htree]
  exact reachedKeys_perm hstart

/-- What is left fresh by the walk from the root is what the root does not reach. -/
theorem effort_reachedKeys {visits : List Walk.Visit} {final : List String}
    (h : Walk.Start t.links [] t.root root.children visits final) :
    ((Walk.fresh t.links []).map (Walk.effort t.links)).sum =
      (t.reachedKeys.map (Walk.effort t.links)).sum +
        ((Walk.fresh t.links final).map (Walk.effort t.links)).sum := by
  have hreached : t.reachedKeys = (Entries.names t.links).filter (· ∈ final) := by
    rw [reachedKeys, ← names_links]
    refine List.filter_congr fun key hkey => ?_
    rw [decide_eq_decide, h.mem_final_iff, and_iff_right hkey]
  have hall : Walk.fresh t.links [] = Entries.names t.links :=
    List.filter_eq_self.2 fun key _ => decide_eq_true List.not_mem_nil
  have hfresh : Walk.fresh t.links final =
      (Entries.names t.links).filter fun key => !decide (key ∈ final) :=
    List.filter_congr fun key _ => decide_not
  rw [hreached, hall, hfresh, ← List.sum_append, ← List.map_append]
  exact ((List.filter_append_perm _ _).map _).sum_eq.symm

/-- Whatever its links, a survey of a tree that has its root makes one turn after the other and comes to
an end, from wherever it stands. The walk from the root takes one frame for the root, one to leave each
element that it reaches, and one for each entry of the lists of children there; the sweep goes on with
what was visited by then. In the end every element was expanded just once. -/
theorem survey_ends (hroot : t.element? t.root = some root) :
    (WellFounded fun s' s => Walk.Turn t.links s s') ∧
    (∀ s, (∃ s', Walk.Turn t.links s s') ↔ s.stack ≠ [] ∨ s.waiting ≠ []) ∧
    (∀ s s' s'', Walk.Turn t.links s s' → Walk.Turn t.links s s'' → s' = s'') ∧
    ∃ middle final,
      Walk.Pops t.links
        (1 + (t.reachedKeys.map fun key => 1 + (t.links.childrenOf key).length).sum)
        (.start t.links t.root) middle ∧
      middle.stack = [] ∧ middle.waiting = Entries.names t.elements ∧
      middle.visits = (Walk.survey t.links t.root).reached ∧
      Relation.ReflTransGen (Walk.Turn t.links) middle final ∧
      final.stack = [] ∧ final.waiting = [] ∧
      final.visits = (Walk.survey t.links t.root).reached ++
        (Walk.survey t.links t.root).detached ∧
      (Walk.expanded final.visits).Perm (Entries.names t.elements) := by
  obtain ⟨visits, reached, hstart⟩ :=
    Walk.Start.exists_start List.not_mem_nil (Validation.get?_links_of_element? hroot)
  have hsurvey : Walk.survey t.links t.root = ⟨.first none t.root :: visits,
      Walk.sweep t.links reached (Entries.names t.links)⟩ := by
    rw [Walk.survey, hstart.walk_eq]
  have hswept := Walk.swept_sweep reached (List.Subset.refl (Entries.names t.links))
  obtain ⟨n, onPath, hpops⟩ : ∃ n onPath, Walk.Pops t.links n (.start t.links t.root)
      ⟨reached, onPath, [], .first none t.root :: visits, Entries.names t.links⟩ :=
    hstart.run.exists_pops
  obtain ⟨visited, onPath', hturns⟩ : ∃ visited onPath', Relation.ReflTransGen (Walk.Turn t.links)
      ⟨reached, onPath, [], .first none t.root :: visits, Entries.names t.links⟩
      ⟨visited, onPath', [], (.first none t.root :: visits) ++
        Walk.sweep t.links reached (Entries.names t.links), []⟩ :=
    hswept.exists_turns
  -- What was ahead at the root and is not ahead any more is what the reached elements cost.
  have hcount : n = 1 + (t.reachedKeys.map (Walk.effort t.links)).sum := by
    have hahead := hpops.ahead_eq t.distinct_links
    simp only [Walk.State.ahead, Walk.State.start, List.length_singleton, List.length_nil,
      effort_reachedKeys hstart] at hahead
    omega
  rw [hsurvey]
  refine ⟨Walk.wellFounded_turn t.distinct_links, fun s => Walk.exists_turn_iff,
    fun s s' s'' => Walk.Turn.unique, _, _, hcount ▸ hpops, rfl, t.names_links, rfl, hturns, rfl,
    rfl, rfl, ?_⟩
  rw [← t.names_links]
  exact Walk.expanded_survey_perm t.distinct_links hstart.run hswept

/-- On the page eleven frames are taken: one for the page, five for its four entries, four for the
three of the side box, and one for the main box, which lists nothing. The lost box is left for the
sweep. -/
theorem survey_ends_knot :
    (∃ root, Sample.knot.element? Sample.knot.root = some root) ∧
    ∃ middle final,
      Walk.Pops Sample.knot.links 11 (.start Sample.knot.links "page") middle ∧
      middle.waiting = ["page", "side", "main", "lost"] ∧
      Walk.expanded middle.visits = ["page", "side", "main"] ∧
      Relation.ReflTransGen (Walk.Turn Sample.knot.links) middle final ∧
      (Walk.expanded final.visits).Perm ["page", "side", "main", "lost"] := by
  have hroot : Sample.knot.element? "page" = some
      ⟨"page", "Box", .object [], ["side", "gone", "side", "main"], none, none⟩ := by rfl
  obtain ⟨-, -, -, middle, final, hpops, -, hwaiting, hvisits, hturns, -, -, -, honce⟩ :=
    Tree.survey_ends hroot
  have hkeys : (["page", "side", "main"] : List String).Perm Sample.knot.reachedKeys := by
    have htree : Sample.knot.firstLinks = [("page", "side"), ("side", "main")] := by cbv
    have hperm := reachedKeys_perm_firstLinks hroot
    rw [htree] at hperm
    exact hperm
  have hcount := (hkeys.map fun key => 1 + (Sample.knot.links.childrenOf key).length).sum_eq
  rw [← hcount] at hpops
  refine ⟨⟨_, hroot⟩, middle, final, hpops, hwaiting, ?_, hturns, honce⟩
  rw [hvisits]
  cbv

end Tree

end CatalogUi
