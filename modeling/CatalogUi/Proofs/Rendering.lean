import CatalogUi.Pass
import CatalogUi.Proofs.Shape

/-!
Render passes as a machine of frames, and where it comes to. Whatever the tree, leaving a node never
takes outputs that are not there: the marks on the stack fall from top to bottom, and none is above
the number of outputs. On the nodes of a validated tree the machine works through one list of keys
after the other, and adds to the outputs exactly those of the keys that are shown.
-/

namespace CatalogUi

/-- Whether there is a node whose own condition holds. -/
def ValidatedTree.shows (v : ValidatedTree) (data : Value) (key : String) : Bool :=
  (v.node? key).any (·.isVisible data)

theorem ValidatedTree.shows_of_node? {v : ValidatedTree} {data : Value} {key : String} {n : Node}
    (hn : v.node? key = some n) : v.shows data key = n.isVisible data := by
  rw [shows, hn]
  rfl

namespace Rendering

variable {O : Type}

/-- How far a pass is, and what is still to be done. -/
abbrev Configuration (O : Type) := Progress O × List Frame

/-- What is done with the frame on top of the stack. -/
inductive Step (tree : ValidatedTree) (registry : VerifiedRegistry O) (data : Value) :
    Configuration O → Configuration O → Prop
  | skip {p : Progress O} {key : String} {rest : List Frame} (hkey : tree.node? key = none) :
      Step tree registry data (p, .enter key :: rest) (p, rest)
  | hide {p : Progress O} {key : String} {rest : List Frame} {n : Node}
      (hkey : tree.node? key = some n) (hhidden : n.isVisible data = false) :
      Step tree registry data (p, .enter key :: rest)
        ((p.mark key .validated).mark key .hidden, rest)
  | bind {p : Progress O} {key : String} {rest : List Frame} {n : Node}
      (hkey : tree.node? key = some n) (hvisible : n.isVisible data = true) :
      Step tree registry data (p, .enter key :: rest)
        ((p.mark key .validated).mark key .bound,
          n.children.map .enter ++ .leave (n.view key data) p.outputs.length :: rest)
  | leave {p : Progress O} {view : View} {mark : Nat} {rest : List Frame} :
      Step tree registry data (p, .leave view mark :: rest) (p.leave registry view mark, rest)

/-- What a pass comes by, from its first frame on. -/
def Reachable (tree : ValidatedTree) (registry : VerifiedRegistry O) (data : Value) :
    Configuration O → Prop :=
  Relation.ReflTransGen (Step tree registry data) (start tree registry, [.enter tree.root])

variable {tree : ValidatedTree} {registry : VerifiedRegistry O} {data : Value}

/-! ## One way to go on -/

theorem Step.unique {c c' c'' : Configuration O} (h : Step tree registry data c c')
    (h' : Step tree registry data c c'') : c' = c'' := by
  cases h with
  | leave => cases h'; rfl
  | skip hkey =>
    cases h' with
    | skip => rfl
    | hide hkey' | bind hkey' => cases hkey.symm.trans hkey'
  | hide hkey hhidden =>
    cases h' with
    | skip hkey' => cases hkey.symm.trans hkey'
    | hide => rfl
    | bind hkey' hvisible =>
      cases hkey.symm.trans hkey'
      cases hhidden.symm.trans hvisible
  | bind hkey hvisible =>
    cases h' with
    | skip hkey' => cases hkey.symm.trans hkey'
    | hide hkey' hhidden =>
      cases hkey.symm.trans hkey'
      cases hhidden.symm.trans hvisible
    | bind hkey' =>
      cases hkey.symm.trans hkey'
      rfl

theorem not_step_nil {p : Progress O} {c : Configuration O} :
    ¬ Step tree registry data (p, []) c := nofun

/-- A pass comes to one end. -/
theorem final_unique {q q' : Progress O} (h : Reachable tree registry data (q, []))
    (h' : Reachable tree registry data (q', [])) : q = q' := by
  have hend {p p' : Progress O} (hsteps :
      Relation.ReflTransGen (Step tree registry data) (p, []) (p', [])) : p = p' := by
    rcases hsteps.cases_head with heq | ⟨c, hstep, -⟩
    · exact congrArg Prod.fst heq
    · exact (not_step_nil hstep).elim
  have hunique : Relator.RightUnique (Step tree registry data) := fun _ _ _ => Step.unique
  rcases Relation.ReflTransGen.total_of_right_unique hunique h h' with hsteps | hsteps
  · exact hend hsteps
  · exact (hend hsteps).symm

/-! ## Marks -/

/-- The mark of a frame. -/
def Frame.mark? : Frame → Option Nat
  | .enter _ => none
  | .leave _ mark => some mark

/-- The marks on a stack, from top to bottom. -/
def marks (stack : List Frame) : List Nat := stack.filterMap Frame.mark?

theorem marks_leave (view : View) (mark : Nat) (rest : List Frame) :
    marks (.leave view mark :: rest) = mark :: marks rest := rfl

theorem marks_map_enter_append (keys : List String) (rest : List Frame) :
    marks (keys.map .enter ++ rest) = marks rest := by
  induction keys with
  | nil => rfl
  | cons key keys ih => exact ih

/-- No mark is above the number of outputs, and none is above one nearer to the top. -/
structure MarksFit (c : Configuration O) : Prop where
  bounded : ∀ mark ∈ marks c.2, mark ≤ c.1.outputs.length
  falling : (marks c.2).Pairwise (· ≥ ·)

theorem Progress.leave_of_some (p : Progress O) (view : View) (mark : Nat)
    {render : Renderer O} (h : registry.renderer? view.kind view.type = some render) :
    p.leave registry view mark = { p.mark view.key .rendered with
      outputs := p.outputs.take mark ++ [render view (p.outputs.drop mark)] } := by
  rw [Progress.leave, h]

theorem Progress.leave_of_none (p : Progress O) (view : View) (mark : Nat)
    (h : registry.renderer? view.kind view.type = none) :
    p.leave registry view mark = { p with
      outputs := p.outputs.take mark
      warnings := p.warnings ++ [.missingRenderer view.type] } := by
  rw [Progress.leave, h]

theorem Progress.outputs_leave (p : Progress O) (view : View) (mark : Nat) :
    (p.leave registry view mark).outputs = p.outputs.take mark ++
      ((registry.renderer? view.kind view.type).map (· view (p.outputs.drop mark))).toList := by
  rw [Progress.leave]
  cases registry.renderer? view.kind view.type with
  | none => exact (List.append_nil _).symm
  | some render => rfl

theorem Progress.warnings_leave (p : Progress O) {view : View} (mark : Nat)
    (h : registry.renderer? view.kind view.type ≠ none) :
    (p.leave registry view mark).warnings = p.warnings := by
  obtain ⟨render, hrender⟩ := Option.ne_none_iff_exists'.1 h
  rw [leave_of_some p view mark hrender]
  rfl

theorem MarksFit.step {c c' : Configuration O} (h : MarksFit c)
    (hstep : Step tree registry data c c') : MarksFit c' := by
  obtain ⟨hbounded, hfalling⟩ := h
  cases hstep with
  | skip => exact ⟨hbounded, hfalling⟩
  | hide => exact ⟨hbounded, hfalling⟩
  | bind =>
    constructor
    · rw [marks_map_enter_append, marks_leave]
      exact List.forall_mem_cons.2 ⟨Nat.le_refl _, hbounded⟩
    · rw [marks_map_enter_append, marks_leave]
      exact List.pairwise_cons.2 ⟨hbounded, hfalling⟩
  | @leave p view mark rest =>
    obtain ⟨hmark, -⟩ := List.forall_mem_cons.1 hbounded
    obtain ⟨hbelow, hrest⟩ := List.pairwise_cons.1 hfalling
    refine ⟨fun other hother => ?_, hrest⟩
    -- The outputs up to the mark stay, and what is marked below is not above it.
    have hle : other ≤ mark := hbelow other hother
    rw [Progress.outputs_leave, List.length_append, List.length_take]
    change mark ≤ p.outputs.length at hmark
    omega

namespace Progress

theorem outputs_mark (p : Progress O) (key : String) (state : NodeState) :
    (p.mark key state).outputs = p.outputs := rfl

theorem get?_states_mark (p : Progress O) (key : String) (state : NodeState) :
    Entries.get? (p.mark key state).states key = some state :=
  Entries.get?_set_self _ _ _

theorem get?_states_mark_of_ne (p : Progress O) {key other : String} (state : NodeState)
    (hne : other ≠ key) :
    Entries.get? (p.mark key state).states other = Entries.get? p.states other :=
  Entries.get?_set_of_ne _ _ hne

theorem names_states_mark {p : Progress O} {key : String} (state : NodeState)
    (h : key ∈ Entries.names p.states) :
    Entries.names (p.mark key state).states = Entries.names p.states :=
  Entries.names_set_of_mem _ h

/-- A node that is entered is marked twice, and only the second mark is seen afterwards. -/
theorem states_mark_mark {p : Progress O} {key : String} (first second : NodeState)
    (h : key ∈ Entries.names p.states) :
    Entries.get? ((p.mark key first).mark key second).states key = some second ∧
      (∀ other, other ≠ key → Entries.get? ((p.mark key first).mark key second).states other =
        Entries.get? p.states other) ∧
      Entries.names ((p.mark key first).mark key second).states = Entries.names p.states := by
  refine ⟨get?_states_mark _ _ _, fun other hne => ?_, ?_⟩
  · rw [get?_states_mark_of_ne _ _ hne, get?_states_mark_of_ne _ _ hne]
  · have hnames := names_states_mark first h
    rw [names_states_mark second (hnames ▸ h), hnames]

end Progress

/-! ## The run -/

/-- A run goes on by a step, if it does not enter a node for a second time. -/
theorem run_of_step {c c' : Configuration O} (hstep : Step tree registry data c c')
    (hpending : ∀ key rest, c.2 = .enter key :: rest → tree.node? key ≠ none →
      Entries.get? c.1.states key = some .pending) :
    run tree registry data c.1 c.2 = run tree registry data c'.1 c'.2 := by
  cases hstep with
  | leave => rw [run]
  | skip hkey =>
    rw [run]
    split
    · rfl
    · rename_i hsome
      cases hkey.symm.trans hsome
  | hide hkey hhidden | bind hkey hhidden =>
    have hnew := hpending _ _ rfl (by rw [hkey]; exact Option.some_ne_none _)
    rw [run]
    split
    · rename_i hnone
      cases hkey.symm.trans hnone
    · rename_i hsome
      cases hkey.symm.trans hsome
      rw [dif_pos hnew]
      simp only [hhidden]
      rfl

/-- The machine gets from one configuration to another, and so does a run. -/
structure Leads (tree : ValidatedTree) (registry : VerifiedRegistry O) (data : Value)
    (c c' : Configuration O) : Prop where
  steps : Relation.ReflTransGen (Step tree registry data) c c'
  run_eq : run tree registry data c.1 c.2 = run tree registry data c'.1 c'.2

theorem Leads.refl (c : Configuration O) : Leads tree registry data c c := ⟨.refl, rfl⟩

theorem Leads.trans {c c' c'' : Configuration O} (h : Leads tree registry data c c')
    (h' : Leads tree registry data c' c'') : Leads tree registry data c c'' :=
  ⟨h.steps.trans h'.steps, h.run_eq.trans h'.run_eq⟩

theorem Leads.of_step {c c' : Configuration O} (hstep : Step tree registry data c c')
    (hpending : ∀ key rest, c.2 = .enter key :: rest → tree.node? key ≠ none →
      Entries.get? c.1.states key = some .pending) : Leads tree registry data c c' :=
  ⟨.single hstep, run_of_step hstep hpending⟩

/-! ## What a list of keys adds -/

section Nodes

variable {v : ValidatedTree}

/-- Everything that stands properly above a key is shown. -/
def Exposed (v : ValidatedTree) (data : Value) (key : String) : Prop :=
  ∀ above, v.links.Above above key → v.shows data above = true

/-- Where a node ends up in a pass. -/
inductive Settles (v : ValidatedTree) (registry : VerifiedRegistry O) (data : Value)
    (key : String) : NodeState → Prop
  | pending {above : String} (habove : v.links.Above above key)
      (hhidden : v.shows data above = false) : Settles v registry data key .pending
  | hidden (hexposed : Exposed v data key) (hhidden : v.shows data key = false) :
      Settles v registry data key .hidden
  | bound {n : Node} (hexposed : Exposed v data key) (hshown : v.shows data key = true)
      (hkey : v.node? key = some n) (hnone : registry.renderer? n.kind n.type = none) :
      Settles v registry data key .bound
  | rendered {n : Node} {render : Renderer O} (hexposed : Exposed v data key)
      (hshown : v.shows data key = true) (hkey : v.node? key = some n)
      (hrender : registry.renderer? n.kind n.type = some render) :
      Settles v registry data key .rendered

/-- The outputs of the nodes, where those without a renderer have none. -/
def AreOutputs (v : ValidatedTree) (registry : VerifiedRegistry O) (data : Value)
    (output : String → Option O) : Prop :=
  ∀ key n, v.node? key = some n → output key =
    (registry.renderer? n.kind n.type).map
      (· (n.view key data) ((n.children.filter (v.shows data)).filterMap output))

/-- What entering some keys has done in the end, to all that they lead to. -/
structure Covers (v : ValidatedTree) (registry : VerifiedRegistry O) (data : Value)
    (output : String → Option O) (p q : Progress O) (tops order : List String) : Prop where
  outputs : q.outputs = p.outputs ++ (tops.filter (v.shows data)).filterMap output
  settled : ∀ key ∈ order,
    ∃ state, Entries.get? q.states key = some state ∧ Settles v registry data key state
  kept : ∀ key, key ∉ order → Entries.get? q.states key = Entries.get? p.states key
  names : Entries.names q.states = Entries.names p.states
  warnings : (∀ key n, v.node? key = some n → registry.renderer? n.kind n.type ≠ none) →
    q.warnings = p.warnings

variable {output : String → Option O} {p q : Progress O}

theorem Covers.nil (p : Progress O) : Covers v registry data output p p [] [] :=
  ⟨(List.append_nil _).symm, fun _ hmem => (List.not_mem_nil hmem).elim, fun _ _ => rfl, rfl,
    fun _ => rfl⟩

/-- What one list of keys has done, and then another. -/
theorem Covers.append {r : Progress O} {tops tops' order order' : List String}
    (h : Covers v registry data output p q tops order)
    (h' : Covers v registry data output q r tops' order') (hdisjoint : order.Disjoint order') :
    Covers v registry data output p r (tops ++ tops') (order ++ order') := by
  refine ⟨?_, fun key hmem => ?_, fun key hmem => ?_, h'.names.trans h.names, fun hall => ?_⟩
  · rw [h'.outputs, h.outputs, List.filter_append, List.filterMap_append, List.append_assoc]
  · rcases List.mem_append.1 hmem with hmem | hmem
    · rw [h'.kept key (hdisjoint hmem)]
      exact h.settled key hmem
    · exact h'.settled key hmem
  · rw [List.mem_append, not_or] at hmem
    rw [h'.kept key hmem.2, h.kept key hmem.1]
  · rw [h'.warnings hall, h.warnings hall]

/-- What stands below a hidden key stays as it is. -/
theorem Covers.hide {key : String} {children below : List String}
    (hkey : Entries.get? v.links key = some children)
    (hbelow : v.links.Preorder children below) (hnodup : (key :: below).Nodup)
    (hpending : ∀ name ∈ key :: below, Entries.get? p.states name = some .pending)
    (hexposed : Exposed v data key) (hhidden : v.shows data key = false) :
    Covers v registry data output p ((p.mark key .validated).mark key .hidden) [key]
      (key :: below) := by
  have hnames : key ∈ Entries.names p.states :=
    Entries.mem_names_iff.2 ⟨_, hpending key List.mem_cons_self⟩
  obtain ⟨hself, hother, hkept⟩ := Progress.states_mark_mark .validated .hidden hnames
  refine ⟨?_, fun name hmem => ?_, fun name hmem => ?_, hkept, fun _ => rfl⟩
  · rw [List.filter_singleton, hhidden]
    exact (List.append_nil _).symm
  · rcases List.mem_cons.1 hmem with rfl | hmem
    · exact ⟨_, hself, .hidden hexposed hhidden⟩
    · have hne : name ≠ key := ne_of_mem_of_not_mem hmem (List.nodup_cons.1 hnodup).1
      obtain ⟨child, hchild, hreach⟩ := hbelow.exists_reaches name hmem
      have habove : v.links.Above key name := .head' ⟨_, hkey, hchild⟩ hreach
      refine ⟨.pending, ?_, .pending habove hhidden⟩
      rw [hother name hne, hpending name (List.mem_cons_of_mem _ hmem)]
  · exact hother name (List.ne_of_not_mem_cons hmem)

theorem filterMap_singleton {α β : Type} (f : α → Option β) (a : α) :
    [a].filterMap f = (f a).toList := by
  cases h : f a <;> simp [h]

/-- Leaving a bound node renders it, unless it has no renderer, and changes no other state. -/
theorem settles_leave {key : String} {n : Node} (hkey : v.node? key = some n)
    (hexposed : Exposed v data key) (hshown : v.shows data key = true)
    (hbound : Entries.get? q.states key = some .bound) (mark : Nat) :
    (∃ state, Entries.get? (q.leave registry (n.view key data) mark).states key = some state ∧
      Settles v registry data key state) ∧
    (∀ other, other ≠ key → Entries.get? (q.leave registry (n.view key data) mark).states other =
      Entries.get? q.states other) ∧
    Entries.names (q.leave registry (n.view key data) mark).states = Entries.names q.states := by
  cases hrender : registry.renderer? n.kind n.type with
  | none =>
    rw [Progress.leave_of_none q (n.view key data) mark hrender]
    exact ⟨⟨.bound, hbound, .bound hexposed hshown hkey hrender⟩, fun _ _ => rfl, rfl⟩
  | some render =>
    rw [Progress.leave_of_some q (n.view key data) mark hrender]
    have hmem : key ∈ Entries.names q.states := Entries.mem_names_iff.2 ⟨_, hbound⟩
    refine ⟨⟨.rendered, ?_, .rendered hexposed hshown hkey hrender⟩, fun other hne => ?_, ?_⟩
    · exact Progress.get?_states_mark q key .rendered
    · exact Progress.get?_states_mark_of_ne q .rendered hne
    · exact Progress.names_states_mark .rendered hmem

/-- A key that is shown adds one output, made of those that its children have added. -/
theorem Covers.leave (houtput : AreOutputs v registry data output) {key : String} {n : Node}
    {below : List String} (hkey : v.node? key = some n) (hnodup : (key :: below).Nodup)
    (hnames : key ∈ Entries.names p.states) (hexposed : Exposed v data key)
    (hshown : v.shows data key = true)
    (h : Covers v registry data output ((p.mark key .validated).mark key .bound) q n.children
      below) :
    Covers v registry data output p (q.leave registry (n.view key data) p.outputs.length) [key]
      (key :: below) := by
  obtain ⟨hself, hother, hkept⟩ := Progress.states_mark_mark .validated .bound hnames
  have hfresh : key ∉ below := (List.nodup_cons.1 hnodup).1
  have houtputs : (q.leave registry (n.view key data) p.outputs.length).outputs =
      p.outputs ++ ([key].filter (v.shows data)).filterMap output := by
    calc
      _ = q.outputs.take p.outputs.length ++ ((registry.renderer? n.kind n.type).map
          (· (n.view key data) (q.outputs.drop p.outputs.length))).toList :=
        Progress.outputs_leave q (n.view key data) p.outputs.length
      _ = p.outputs ++ (output key).toList := by
        rw [h.outputs, Progress.outputs_mark, Progress.outputs_mark, List.take_left,
          List.drop_left, houtput key n hkey]
      _ = _ := by
        rw [List.filter_singleton, hshown, cond_true, filterMap_singleton]
  have hbound : Entries.get? q.states key = some .bound := (h.kept key hfresh).trans hself
  obtain ⟨hsettled, hbelow, hsame⟩ :=
    settles_leave hkey hexposed hshown hbound p.outputs.length
  refine ⟨houtputs, fun name hmem => ?_, fun name hmem => ?_, ?_, fun hall => ?_⟩
  · by_cases heq : name = key
    · rw [heq]
      exact hsettled
    · rw [hbelow name heq]
      exact h.settled name ((List.mem_cons.1 hmem).resolve_left heq)
  · have hne : name ≠ key := List.ne_of_not_mem_cons hmem
    rw [hbelow name hne, h.kept name (List.not_mem_of_not_mem_cons hmem), hother name hne]
  · rw [hsame, h.names, hkept]
  · rw [Progress.warnings_leave q p.outputs.length (hall key n hkey), h.warnings hall]
    rfl

theorem Exposed.child (hv : v.Sound) {parent child : String} (h : Exposed v data parent)
    (hshown : v.shows data parent = true) (hlists : v.links.Lists parent child) :
    Exposed v data child := by
  intro above habove
  rcases Relation.reflTransGen_iff_eq_or_transGen.1 ((hv.above_child_iff hlists).1 habove) with
    rfl | habove
  · exact hshown
  · exact h above habove

/-- The machine gets through exposed keys and everything below them, if nothing of it was entered
before, to whatever stands under them on the stack. -/
def GetsThrough (v : ValidatedTree) (registry : VerifiedRegistry O) (data : Value)
    (output : String → Option O) (tops order : List String) : Prop :=
  ∀ (p : Progress O) (rest : List Frame), order.Nodup →
    (∀ key ∈ order, Entries.get? p.states key = some .pending) →
    (∀ top ∈ tops, Exposed v data top) →
    ∃ q, Leads v registry data (p, tops.map .enter ++ rest) (q, rest) ∧
      Covers v registry data output p q tops order

theorem GetsThrough.append {tops tops' order order' : List String}
    (h : GetsThrough v registry data output tops order)
    (h' : GetsThrough v registry data output tops' order') :
    GetsThrough v registry data output (tops ++ tops') (order ++ order') := by
  intro p rest hnodup hpending hexposed
  obtain ⟨hleft, hright, -⟩ := List.nodup_append.1 hnodup
  have hdisjoint : order.Disjoint order' := List.disjoint_of_nodup_append hnodup
  obtain ⟨q, hleads, hcovers⟩ := h p (tops'.map .enter ++ rest) hleft
    (fun key hmem => hpending key (List.mem_append_left _ hmem))
    fun top hmem => hexposed top (List.mem_append_left _ hmem)
  have hstill (key : String) (hmem : key ∈ order') :
      Entries.get? q.states key = some .pending := by
    rw [hcovers.kept key fun hbefore => hdisjoint hbefore hmem]
    exact hpending key (List.mem_append_right _ hmem)
  obtain ⟨q', hleads', hcovers'⟩ := h' q rest hright hstill
    fun top hmem => hexposed top (List.mem_append_right _ hmem)
  refine ⟨q', ?_, hcovers.append hcovers' hdisjoint⟩
  rw [List.map_append, List.append_assoc]
  exact hleads.trans hleads'

/-- The machine gets through a key when it gets through its children. -/
theorem GetsThrough.key (hv : v.Sound) (houtput : AreOutputs v registry data output)
    {key : String} {n : Node} {below : List String} (hn : v.node? key = some n)
    (hbelow : v.links.Preorder n.children below)
    (h : GetsThrough v registry data output n.children below) :
    GetsThrough v registry data output [key] (key :: below) := by
  intro p rest hnodup hpending hexposed
  have htop := hexposed key List.mem_cons_self
  have hvisible : v.shows data key = n.isVisible data := ValidatedTree.shows_of_node? hn
  have henter (name : String) (stack : List Frame)
      (heq : [key].map Frame.enter ++ rest = .enter name :: stack)
      (_ : v.node? name ≠ none) : Entries.get? p.states name = some .pending := by
    cases heq
    exact hpending key List.mem_cons_self
  cases hshown : v.shows data key with
  | false =>
    have hkey : Entries.get? v.links key = some n.children := by
      rw [v.get?_links, hn]
      rfl
    exact ⟨_, .of_step (.hide hn (hvisible ▸ hshown)) henter,
      .hide hkey hbelow hnodup hpending htop hshown⟩
  | true =>
    have hnames : key ∈ Entries.names p.states :=
      Entries.mem_names_iff.2 ⟨_, hpending key List.mem_cons_self⟩
    obtain ⟨-, hother, -⟩ := Progress.states_mark_mark .validated .bound hnames
    have hstill (name : String) (hmem : name ∈ below) :
        Entries.get? ((p.mark key .validated).mark key .bound).states name = some .pending := by
      have hne : name ≠ key := ne_of_mem_of_not_mem hmem (List.nodup_cons.1 hnodup).1
      rw [hother name hne, hpending name (List.mem_cons_of_mem _ hmem)]
    -- First the children, on top of the frame that leaves the key, then this frame.
    obtain ⟨q, hleads, hcovers⟩ := h ((p.mark key .validated).mark key .bound)
      (.leave (n.view key data) p.outputs.length :: rest) (List.nodup_cons.1 hnodup).2 hstill
      fun child hchild => htop.child hv hshown (ValidatedTree.lists_iff.2 ⟨n, hn, hchild⟩)
    have hleave : Leads v registry data
        (q, .leave (n.view key data) p.outputs.length :: rest)
        (q.leave registry (n.view key data) p.outputs.length, rest) := by
      apply Leads.of_step .leave
      intro name stack heq
      cases heq
    exact ⟨_, ((Leads.of_step (.bind hn (hvisible ▸ hshown)) henter).trans hleads).trans hleave,
      .leave houtput hn hnodup hnames htop hshown hcovers⟩

theorem getsThrough_of_preorder (hv : v.Sound) (houtput : AreOutputs v registry data output)
    {tops order : List String} (h : v.links.Preorder tops order) :
    GetsThrough v registry data output tops order := by
  induction h with
  | nil => exact fun p rest _ _ _ => ⟨p, .refl _, .nil p⟩
  | cons hkey hbelow _ ihbelow ihrest =>
    obtain ⟨n, hn, rfl⟩ := Option.map_eq_some_iff.1 ((v.get?_links _).symm.trans hkey)
    exact (ihbelow.key hv houtput hn hbelow).append ihrest

/-! ## The end of a pass -/

theorem names_start : Entries.names (start v registry).states = v.keys :=
  Entries.names_map (fun _ => NodeState.pending) v.nodes

/-- A pass is what the machine comes to with an empty stack, having covered the whole tree. -/
theorem exists_final {σ : Type} (hv : v.Sound) (store : Store σ)
    (houtput : AreOutputs v registry store.data output) :
    ∃ q, Reachable v registry store.data (q, []) ∧
      v.render registry store = ⟨q.outputs.getLast?, q.states, q.warnings, store.revision⟩ ∧
      Covers v registry store.data output (start v registry) q [v.root] v.keys := by
  have hpending (key : String) (hkey : key ∈ v.keys) :
      Entries.get? (start v registry).states key = some .pending := by
    obtain ⟨n, hn⟩ := ValidatedTree.mem_keys_iff.1 hkey
    exact (Entries.get?_map (fun _ => NodeState.pending) v.nodes key).trans (congrArg _ hn)
  obtain ⟨q, hleads, hcovers⟩ := getsThrough_of_preorder hv houtput hv.preorder
    (start v registry) [] hv.distinct hpending fun top htop above habove => by
      rw [List.mem_singleton.1 htop] at habove
      exact (hv.not_above_root above habove).elim
  refine ⟨q, hleads.steps, ?_, hcovers⟩
  have hrun : run v registry store.data (start v registry) [.enter v.root] = q := by
    have := hleads.run_eq
    rw [run.eq_1] at this
    exact this
  rw [ValidatedTree.render, hrun]

/-- Each state that a pass leaves behind is what its node settles in. -/
theorem Covers.settles_of_mem (hv : v.Sound)
    (h : Covers v registry data output (start v registry) q [v.root] v.keys)
    {entry : String × NodeState} (hentry : entry ∈ q.states) :
    Settles v registry data entry.1 entry.2 := by
  have hnames : Entries.names q.states = v.keys := h.names.trans names_start
  have hdistinct : Entries.Distinct q.states := by
    rw [Entries.Distinct, hnames]
    exact hv.distinct
  obtain ⟨state, hstate, hsettles⟩ := h.settled entry.1 (hnames ▸ List.mem_map_of_mem hentry)
  cases (hdistinct.get?_of_mem hentry).symm.trans hstate
  exact hsettles

namespace Settles

variable {key : String} {state : NodeState}

theorem eq_pending_iff (h : Settles v registry data key state) :
    state = .pending ↔ ∃ above, v.links.Above above key ∧ v.shows data above = false := by
  cases h with
  | pending habove hhidden => exact ⟨fun _ => ⟨_, habove, hhidden⟩, fun _ => rfl⟩
  | hidden hexposed | bound hexposed | rendered hexposed =>
    refine ⟨nofun, ?_⟩
    rintro ⟨above, habove, hhidden⟩
    cases (hexposed above habove).symm.trans hhidden

theorem eq_hidden_iff (h : Settles v registry data key state) :
    state = .hidden ↔ v.shows data key = false ∧ Exposed v data key := by
  cases h with
  | hidden hexposed hhidden => exact ⟨fun _ => ⟨hhidden, hexposed⟩, fun _ => rfl⟩
  | pending habove hhidden =>
    refine ⟨nofun, ?_⟩
    rintro ⟨-, hexposed⟩
    cases (hexposed _ habove).symm.trans hhidden
  | bound _ hshown | rendered _ hshown =>
    refine ⟨nofun, ?_⟩
    rintro ⟨hhidden, -⟩
    cases hshown.symm.trans hhidden

end Settles

end Nodes

end Rendering

end CatalogUi
