import CatalogUi.Proofs.Rendition
import CatalogUi.Proofs.Sameness

/-!
What of a store a pass depends on. A pass reads the paths of a condition only at nodes with nothing
hidden above them, and bindings only at those of them that are shown themselves; a condition cannot
tell equal values apart. So two passes go the same way, frame by frame, when their stores agree on
what the first of them reads: which paths these are is decided by what was read before.
-/

namespace CatalogUi

/-! ## Conditions -/

namespace Visibility

mutual

/-- The paths that occur in a condition. -/
def paths : Visibility → List Path
  | .present path => [path]
  | .equals path _ => [path]
  | .not inner => paths inner
  | .all items => pathsOfItems items
  | .any items => pathsOfItems items

def pathsOfItems : List Visibility → List Path
  | [] => []
  | v :: rest => paths v ++ pathsOfItems rest

end

variable {data data' : Value}

/-- A comparison cannot tell equal values apart. -/
theorem evaluate_equals_congr (hd : data.WellFormed) (hd' : data'.WellFormed) {path : Path}
    (h : Value.Alike (data.read? path) (data'.read? path)) (value : Value) :
    evaluate data' (.equals path value) = evaluate data (.equals path value) := by
  have hread := hd.read? path
  have hread' := hd'.read? path
  rw [evaluate, evaluate]
  generalize data.read? path = read at h hread ⊢
  generalize data'.read? path = read' at h hread' ⊢
  cases h with
  | none => rfl
  | some hsame =>
    exact (Value.same_eq_of_same (hread _ rfl) (hread' _ rfl) hsame value).symm

mutual

/-- A condition holds of two data alike when all of its paths read alike. -/
theorem evaluate_congr (hd : data.WellFormed) (hd' : data'.WellFormed) : ∀ v : Visibility,
    (∀ p ∈ v.paths, Value.Alike (data.read? p) (data'.read? p)) →
      v.evaluate data' = v.evaluate data
  | .present path, h => (h path List.mem_cons_self).isSome_eq.symm
  | .equals path value, h => evaluate_equals_congr hd hd' (h path List.mem_cons_self) value
  | .not inner, h => by
    rw [evaluate, evaluate, evaluate_congr hd hd' inner h]
  | .all items, h => (evaluateItems_congr hd hd' items h).1
  | .any items, h => (evaluateItems_congr hd hd' items h).2

theorem evaluateItems_congr (hd : data.WellFormed) (hd' : data'.WellFormed) :
    ∀ items : List Visibility,
      (∀ p ∈ pathsOfItems items, Value.Alike (data.read? p) (data'.read? p)) →
        evaluateAll data' items = evaluateAll data items ∧
          evaluateAny data' items = evaluateAny data items
  | [], _ => ⟨rfl, rfl⟩
  | v :: rest, h => by
    obtain ⟨hfirst, hrest⟩ := List.forall_mem_append.1 h
    obtain ⟨hall, hany⟩ := evaluateItems_congr hd hd' rest hrest
    have hv := evaluate_congr hd hd' v hfirst
    simp only [evaluateAll, evaluateAny, hv, hall, hany, and_self]

end

end Visibility

/-! ## Nodes -/

namespace Node

variable {n : Node} {data data' : Value}

/-- The paths that occur in the condition of a node. -/
def conditionPaths (n : Node) : List Path := (n.visibility.map Visibility.paths).getD []

theorem isVisible_congr (hd : data.WellFormed) (hd' : data'.WellFormed)
    (h : ∀ p ∈ n.conditionPaths, Value.Alike (data.read? p) (data'.read? p)) :
    n.isVisible data' = n.isVisible data := by
  rw [conditionPaths] at h
  rw [isVisible, isVisible]
  cases hv : n.visibility with
  | none => rfl
  | some v =>
    rw [hv] at h
    exact v.evaluate_congr hd hd' h

theorem view_congr (h : ∀ binding ∈ n.bindings, data'.read? binding.2 = data.read? binding.2)
    (key : String) : n.view key data' = n.view key data := by
  have hread : n.readBindings data' = n.readBindings data :=
    List.map_congr_left fun binding hmem => by rw [h binding hmem]
  rw [view, view, hread]

end Node

/-! ## Frame by frame -/

namespace Rendering

variable {O : Type} {v : ValidatedTree} {registry : VerifiedRegistry O} {data data' : Value}

/-- A pass on the first data reads nothing that is different in the other data. Conditions are read
where nothing above is hidden, and there their paths have equal values, or none; bindings are read
where the node itself is shown as well, and there they have the same values, or none. -/
structure LooksAlike (v : ValidatedTree) (data data' : Value) : Prop where
  conditions : ∀ key n, v.node? key = some n → Exposed v data key →
    ∀ p ∈ n.conditionPaths, Value.Alike (data.read? p) (data'.read? p)
  bindings : ∀ key n, v.node? key = some n → Exposed v data key → n.isVisible data = true →
    ∀ binding ∈ n.bindings, data'.read? binding.2 = data.read? binding.2

/-- Nothing is hidden above the nodes that are still to be entered. -/
def AllExposed (v : ValidatedTree) (data : Value) (stack : List Frame) : Prop :=
  ∀ key, .enter key ∈ stack → Exposed v data key

theorem AllExposed.start (hv : v.Sound) : AllExposed v data [.enter v.root] := by
  intro key hmem above habove
  cases List.mem_singleton.1 hmem
  exact (hv.not_above_root above habove).elim

theorem AllExposed.step (hv : v.Sound) {c c' : Configuration O} (h : AllExposed v data c.2)
    (hstep : Step v registry data c c') : AllExposed v data c'.2 := by
  cases hstep with
  | skip | hide | leave => exact fun key hmem => h key (List.mem_cons_of_mem _ hmem)
  | @bind p key rest n hkey hvisible =>
    intro other hmem
    -- New on the stack are the children of a node that is shown.
    rcases List.mem_append.1 hmem with hmem | hmem
    · obtain ⟨child, hchild, ⟨⟩⟩ := List.mem_map.1 hmem
      have hshown : v.shows data key = true :=
        (ValidatedTree.shows_of_node? hkey).trans hvisible
      exact (h key List.mem_cons_self).child hv hshown
        (ValidatedTree.lists_iff.2 ⟨n, hkey, hchild⟩)
    · cases hmem with
      | tail _ hmem => exact h other (List.mem_cons_of_mem _ hmem)

/-- A step on the first data is a step on the other data. -/
theorem LooksAlike.step (h : LooksAlike v data data') (hd : data.WellFormed)
    (hd' : data'.WellFormed) {c c' : Configuration O} (hexposed : AllExposed v data c.2)
    (hstep : Step v registry data c c') : Step v registry data' c c' := by
  cases hstep with
  | skip hkey => exact .skip hkey
  | leave => exact .leave
  | @hide p key rest n hkey hhidden =>
    have hpaths := h.conditions key n hkey (hexposed key List.mem_cons_self)
    exact .hide hkey ((Node.isVisible_congr hd hd' hpaths).trans hhidden)
  | @bind p key rest n hkey hvisible =>
    have hkeyExposed := hexposed key List.mem_cons_self
    have hpaths := h.conditions key n hkey hkeyExposed
    -- The frame that leaves the node carries its view, with the bindings as they were read.
    rw [← Node.view_congr (h.bindings key n hkey hkeyExposed hvisible) key]
    exact .bind hkey ((Node.isVisible_congr hd hd' hpaths).trans hvisible)

/-- What a pass on the first data comes by, a pass on the other data comes by too. -/
theorem LooksAlike.reachable (h : LooksAlike v data data') (hd : data.WellFormed)
    (hd' : data'.WellFormed) (hv : v.Sound) {c : Configuration O}
    (hc : Reachable v registry data c) : AllExposed v data c.2 ∧ Reachable v registry data' c := by
  induction hc with
  | refl => exact ⟨.start hv, .refl⟩
  | tail _ hstep ih =>
    obtain ⟨hexposed, hreach⟩ := ih
    exact ⟨hexposed.step hv hstep, hreach.tail (h.step hd hd' hexposed hstep)⟩

/-- A pass is read off the end of a way that the machine goes. -/
theorem exists_end {σ : Type} (hv : v.Sound) (registry : VerifiedRegistry O) (store : Store σ) :
    ∃ q, Reachable v registry store.data (q, []) ∧
      v.render registry store = ⟨q.outputs.getLast?, q.states, q.warnings, store.revision⟩ := by
  obtain ⟨output, houtput⟩ := exists_areOutputs hv registry store.data
  obtain ⟨q, hreach, hrender, -⟩ := exists_final hv store houtput
  exact ⟨q, hreach, hrender⟩

end Rendering

/-- Passes on two stores that look alike to the first of them have the same output, bring every node
to the same state, and give the same warnings. What is different below a hidden node does not
matter. -/
theorem ValidatedTree.render_of_looksAlike {t : Tree} {catalog : Catalog} {config : Config}
    {v : ValidatedTree} (hvalid : t.validate catalog config = .ok v) {O σ τ : Type}
    (registry : VerifiedRegistry O) {store : Store σ} {store' : Store τ}
    (hdata : store.data.WellFormed) (hdata' : store'.data.WellFormed)
    (h : Rendering.LooksAlike v store.data store'.data) :
    (v.render registry store').output = (v.render registry store).output ∧
      (v.render registry store').states = (v.render registry store).states ∧
      (v.render registry store').warnings = (v.render registry store).warnings := by
  have hv := Tree.sound_of_validate hvalid
  obtain ⟨q, hreach, hrender⟩ := Rendering.exists_end hv registry store
  obtain ⟨q', hreach', hrender'⟩ := Rendering.exists_end hv registry store'
  obtain ⟨-, hboth⟩ := h.reachable hdata hdata' hv hreach
  obtain rfl : q' = q := Rendering.final_unique hreach' hboth
  rw [hrender, hrender']
  exact ⟨rfl, rfl, rfl⟩

namespace Sample

/-- A gauge with a value and nothing else. -/
def dial : ComponentSpec := ⟨"Dial", .object [("value", .path)], false⟩

def dials : Catalog := ⟨[⟨"Box", .object [], true⟩, dial], []⟩

def dialRegistry : Registry String :=
  (Registry.empty.register "Box" label).register "Dial" label

/-- A board that is shown in wide mode, with a dial for the memory and a drawer. In the drawer, when
it is open, there is a dial for the processor. -/
def board : Tree :=
  .ofElements "board" [
    ⟨"board", "Box", .object [], ["memory", "drawer"], none,
      some (.equals "/mode" (.object [("wide", .bool true), ("dark", .bool false)]))⟩,
    ⟨"memory", "Dial", .object [("value", .string "/memory")], [], some "board", none⟩,
    ⟨"drawer", "Box", .object [], ["cpu"], some "board", some (.present "/drawer")⟩,
    ⟨"cpu", "Dial", .object [("value", .string "/load")], [], some "drawer",
      some (.present "/load")⟩]

def boardPage : ValidatedTree where
  root := "board"
  nodes := [
    ("board", ⟨"board", "Box", ⟨0⟩, [], ["memory", "drawer"], none,
      some (.equals ⟨[⟨"mode", by decide⟩]⟩
        (.object [("wide", .bool true), ("dark", .bool false)])), [], none⟩),
    ("memory", ⟨"memory", "Dial", ⟨1⟩, [("value", .string "/memory")], [], some "board", none,
      [("value", ⟨[⟨"memory", by decide⟩]⟩)], none⟩),
    ("drawer", ⟨"drawer", "Box", ⟨0⟩, [], ["cpu"], some "board",
      some (.present ⟨[⟨"drawer", by decide⟩]⟩), [], none⟩),
    ("cpu", ⟨"cpu", "Dial", ⟨1⟩, [("value", .string "/load")], [], some "drawer",
      some (.present ⟨[⟨"load", by decide⟩]⟩), [("value", ⟨[⟨"load", by decide⟩]⟩)], none⟩)]

theorem validate_board : board.validate dials Config.default = .ok boardPage := by cbv

/-- The board is wide, and the drawer is closed. -/
def busy : Store Unit :=
  .create (.object [("mode", .object [("wide", .bool true), ("dark", .bool false)]),
    ("memory", .string "3 GB"), ("load", .string "40 %")]) ()

/-- The mode is written down the other way round, and nothing is known of the processor. -/
def idle : Store Unit :=
  .create (.object [("memory", .string "3 GB"),
    ("mode", .object [("dark", .bool false), ("wide", .bool true)])]) ()

theorem wellFormed_busy : busy.data.WellFormed :=
  ⟨by decide, ⟨by decide, trivial, trivial, trivial⟩, trivial, trivial, trivial⟩

theorem wellFormed_idle : idle.data.WellFormed :=
  ⟨by decide, trivial, ⟨by decide, trivial, trivial, trivial⟩, trivial⟩

theorem not_exposed_cpu : ¬ Rendering.Exposed boardPage busy.data "cpu" := by
  intro h
  have hlists : boardPage.links.Lists "drawer" "cpu" := ⟨["cpu"], rfl, List.mem_cons_self⟩
  have hshown : boardPage.shows busy.data "drawer" = true := h "drawer" (.single hlists)
  have hhidden : boardPage.shows busy.data "drawer" = false := rfl
  cases hhidden.symm.trans hshown

theorem looksAlike_idle : Rendering.LooksAlike boardPage busy.data idle.data := by
  have hnodes : ∀ key n, boardPage.node? key = some n →
      Rendering.Exposed boardPage busy.data key →
        (∀ p ∈ n.conditionPaths, Value.Alike (busy.read? p) (idle.read? p)) ∧
        ∀ binding ∈ n.bindings, idle.read? binding.2 = busy.read? binding.2 := by
    intro key n hn hexposed
    have hmem : (key, n) ∈ boardPage.nodes := Entries.mem_of_get? hn
    simp only [boardPage, List.mem_cons, List.not_mem_nil, or_false, Prod.mk.injEq] at hmem
    rcases hmem with ⟨rfl, rfl⟩ | ⟨rfl, rfl⟩ | ⟨rfl, rfl⟩ | ⟨rfl, rfl⟩
    · exact ⟨List.forall_mem_singleton.2 (.some rfl), List.forall_mem_nil _⟩
    · exact ⟨List.forall_mem_nil _, List.forall_mem_singleton.2 rfl⟩
    · exact ⟨List.forall_mem_singleton.2 .none, List.forall_mem_nil _⟩
    · exact (not_exposed_cpu hexposed).elim
  exact ⟨fun key n hn hexposed => (hnodes key n hn hexposed).1,
    fun key n hn hexposed _ => (hnodes key n hn hexposed).2⟩

def dialTable : VerifiedRegistry String := ⟨[("Box", label), ("Dial", label)], []⟩

theorem verify_dialRegistry : dialRegistry.verify dials .strict = .ok dialTable := rfl

end Sample

/-- The board looks the same whether the mode is written down one way or the other, and whatever the
dial in the closed drawer would show. -/
theorem ValidatedTree.render_of_looksAlike_board :
    Sample.board.validate Sample.dials Config.default = .ok Sample.boardPage ∧
      Sample.dialRegistry.verify Sample.dials .strict = .ok Sample.dialTable ∧
      Sample.busy.data.WellFormed ∧ Sample.idle.data.WellFormed ∧
      Rendering.LooksAlike Sample.boardPage Sample.busy.data Sample.idle.data ∧
      (Sample.boardPage.render Sample.dialTable Sample.idle).output =
        (Sample.boardPage.render Sample.dialTable Sample.busy).output ∧
      (Sample.boardPage.render Sample.dialTable Sample.idle).states =
        (Sample.boardPage.render Sample.dialTable Sample.busy).states := by
  obtain ⟨houtput, hstates, -⟩ := render_of_looksAlike Sample.validate_board Sample.dialTable
    Sample.wellFormed_busy Sample.wellFormed_idle Sample.looksAlike_idle
  exact ⟨Sample.validate_board, Sample.verify_dialRegistry, Sample.wellFormed_busy,
    Sample.wellFormed_idle, Sample.looksAlike_idle, houtput, hstates⟩

end CatalogUi
