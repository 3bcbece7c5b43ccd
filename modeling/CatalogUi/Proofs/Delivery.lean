import CatalogUi.Proofs.Rendition

/-!
What of a pass is in its output. Renderers can be taken to record their calls instead of making
anything, and then the output of a pass is the record of how its real output is made. A node is in
the output when it and everything above it is rendered; a node that is rendered below one without a
renderer is not, though its state says no less than that of the others.
-/

namespace CatalogUi

namespace Rendering

variable {O : Type}

/-! ## Calls of renderers -/

/-- The call of a renderer, with the calls that made the outputs it is given. -/
inductive Call where
  | of (view : View) (inside : List Call)

namespace Call

mutual

/-- The keys of the nodes that a call and the calls inside it render. -/
def keys : Call → List String
  | .of view inside => view.key :: keysOfAll inside

def keysOfAll : List Call → List String
  | [] => []
  | call :: rest => call.keys ++ keysOfAll rest

end

mutual

/-- What a call makes with the renderers of a registry. -/
def output? (registry : VerifiedRegistry O) : Call → Option O
  | .of view inside =>
    (registry.renderer? view.kind view.type).map (· view (outputsOfAll registry inside))

def outputsOfAll (registry : VerifiedRegistry O) : List Call → List O
  | [] => []
  | call :: rest => (call.output? registry).toList ++ outputsOfAll registry rest

end

theorem mem_keysOfAll {key : String} {calls : List Call} :
    key ∈ keysOfAll calls ↔ ∃ call ∈ calls, key ∈ call.keys := by
  induction calls with
  | nil => simp [keysOfAll]
  | cons call rest ih => simp [keysOfAll, ih]

theorem mem_keys_of {key : String} {view : View} {inside : List Call} :
    key ∈ (Call.of view inside).keys ↔ key = view.key ∨ ∃ call ∈ inside, key ∈ call.keys := by
  rw [keys, List.mem_cons, mem_keysOfAll]

theorem outputsOfAll_eq (registry : VerifiedRegistry O) (calls : List Call) :
    outputsOfAll registry calls = calls.filterMap (output? registry) := by
  induction calls with
  | nil => rfl
  | cons call rest ih =>
    rw [outputsOfAll, ih, List.filterMap_cons]
    cases call.output? registry <;> rfl

end Call

end Rendering

/-- The registry that has renderers for the same types and records their calls. -/
def VerifiedRegistry.recording {O : Type} (registry : VerifiedRegistry O) :
    VerifiedRegistry Rendering.Call where
  table := registry.table.map fun entry => (entry.1, .of)
  warnings := registry.warnings

theorem VerifiedRegistry.renderer?_recording {O : Type} (registry : VerifiedRegistry O)
    (kind : ComponentKind) (type : String) :
    registry.recording.renderer? kind type =
      (registry.renderer? kind type).map fun _ => Rendering.Call.of := by
  rw [renderer?, recording, List.getElem?_map, renderer?]
  cases registry.table[kind.index]? with
  | none => rfl
  | some entry =>
    dsimp only [Option.map_some]
    split <;> rfl

namespace Rendering

variable {O : Type} {tree : ValidatedTree} {registry : VerifiedRegistry O} {data : Value}

/-! ## A pass and its record -/

/-- A pass came as far as its record, and made what the recorded calls make. -/
structure Records (registry : VerifiedRegistry O) (q : Progress Call) (p : Progress O) : Prop where
  outputs : q.outputs.map (Call.output? registry) = p.outputs.map some
  states : q.states = p.states
  warnings : q.warnings = p.warnings

namespace Records

variable {q : Progress Call} {p : Progress O}

theorem length_eq (h : Records registry q p) : q.outputs.length = p.outputs.length := by
  have := congrArg List.length h.outputs
  rwa [List.length_map, List.length_map] at this

theorem mark (h : Records registry q p) (key : String) (state : NodeState) :
    Records registry (q.mark key state) (p.mark key state) :=
  ⟨h.outputs, congrArg (Entries.set · key state) h.states, h.warnings⟩

theorem take (h : Records registry q p) (mark : Nat) :
    (q.outputs.take mark).map (Call.output? registry) = (p.outputs.take mark).map some := by
  rw [List.map_take, List.map_take, h.outputs]

/-- The recorded calls since a mark make the outputs since the mark. -/
theorem drop (h : Records registry q p) (mark : Nat) :
    Call.outputsOfAll registry (q.outputs.drop mark) = p.outputs.drop mark := by
  have hdrop : (q.outputs.drop mark).map (Call.output? registry) =
      (p.outputs.drop mark).map some := by
    rw [List.map_drop, List.map_drop, h.outputs]
  calc
    _ = ((q.outputs.drop mark).map (Call.output? registry)).filterMap id := by
      rw [Call.outputsOfAll_eq, List.filterMap_map]
      rfl
    _ = p.outputs.drop mark := by
      rw [hdrop, List.filterMap_map]
      exact List.filterMap_some

theorem leave (h : Records registry q p) (view : View) (mark : Nat) :
    Records registry (q.leave registry.recording view mark) (p.leave registry view mark) := by
  have hrecording := registry.renderer?_recording view.kind view.type
  cases hrender : registry.renderer? view.kind view.type with
  | none =>
    rw [hrender] at hrecording
    rw [q.leave_of_none view mark hrecording, p.leave_of_none view mark hrender]
    exact ⟨h.take mark, h.states, congrArg (· ++ _) h.warnings⟩
  | some render =>
    rw [hrender] at hrecording
    rw [q.leave_of_some view mark hrecording, p.leave_of_some view mark hrender]
    refine ⟨?_, (h.mark view.key .rendered).states, h.warnings⟩
    rw [List.map_append, List.map_append, h.take, List.map_singleton, List.map_singleton,
      Call.output?, hrender, h.drop]
    rfl

theorem run (h : Records registry q p) (stack : List Frame) :
    Records registry (run tree registry.recording data q stack)
      (run tree registry data p stack) := by
  fun_induction Rendering.run tree registry data p stack generalizing q with
  | case1 p =>
    rw [Rendering.run]
    exact h
  | case2 p view mark rest ih =>
    rw [Rendering.run]
    exact ih (h.leave view mark)
  | case3 p key rest hkey ih =>
    rw [Rendering.run]
    simp only [hkey]
    exact ih h
  | case4 p key rest node hkey hpending marked hvisible =>
    rename_i ih
    rw [Rendering.run]
    simp only [hkey, h.states, hpending, hvisible, if_true]
    have hlength : (q.mark key .validated).outputs.length = marked.outputs.length := h.length_eq
    rw [hlength]
    exact ih ((h.mark key .validated).mark key .bound)
  | case5 p key rest node hkey hpending marked hhidden =>
    rename_i ih
    rw [Rendering.run]
    simp only [hkey, h.states, hpending, hhidden]
    exact ih ((h.mark key .validated).mark key .hidden)
  | case6 p key rest node hkey hentered ih =>
    rw [Rendering.run]
    simp only [hkey, h.states, hentered]
    exact ih h

end Records

end Rendering

/-! ## What is in the output -/

namespace ValidatedTree

open Rendering

variable {O σ : Type} {v : ValidatedTree} {registry : VerifiedRegistry O} {data : Value}

/-- The call that made the output of a pass. -/
def outputCall? (v : ValidatedTree) (registry : VerifiedRegistry O) (store : Store σ) :
    Option Call :=
  (v.render registry.recording store).output

/-- The keys of the nodes whose outputs are in the output of a pass. -/
def outputKeys (v : ValidatedTree) (registry : VerifiedRegistry O) (store : Store σ) :
    List String :=
  (v.outputCall? registry store).elim [] Call.keys

/-- The recorded call makes the output, and there is no call when there is no output. -/
theorem map_outputCall? (v : ValidatedTree) (registry : VerifiedRegistry O) (store : Store σ) :
    (v.outputCall? registry store).map (Call.output? registry) =
      (v.render registry store).output.map some := by
  have hstart : Records registry (start v registry.recording) (start v registry) := ⟨rfl, rfl, rfl⟩
  have hrun : Records registry (run v registry.recording store.data _ _)
    (run v registry store.data _ _) := hstart.run [.enter v.root]
  rw [outputCall?, render, render, ← List.getLast?_map, ← List.getLast?_map, hrun.outputs]

theorem output_eq_none_iff (v : ValidatedTree) (registry : VerifiedRegistry O) (store : Store σ) :
    (v.render registry store).output = none ↔ v.outputKeys registry store = [] := by
  have hmap := v.map_outputCall? registry store
  rw [outputKeys]
  cases hcall : v.outputCall? registry store with
  | none =>
    rw [hcall] at hmap
    exact ⟨fun _ => rfl, fun _ => Option.map_eq_none_iff.1 hmap.symm⟩
  | some call =>
    rw [hcall] at hmap
    obtain ⟨view, inside⟩ := call
    refine ⟨fun hnone => ?_, nofun⟩
    rw [hnone] at hmap
    cases hmap

/-- The registry has a renderer for the node at a key. -/
def HasRenderer (v : ValidatedTree) (registry : VerifiedRegistry O) (key : String) : Prop :=
  ∃ n, v.node? key = some n ∧ registry.renderer? n.kind n.type ≠ none

/-- The node at a key makes an output, provided that it is reached. -/
def Renders (v : ValidatedTree) (registry : VerifiedRegistry O) (data : Value) (key : String) :
    Prop :=
  v.HasRenderer registry key ∧ v.shows data key = true

/-- A node is listed by another one and makes an output for it. -/
def Hands (v : ValidatedTree) (registry : VerifiedRegistry O) (data : Value)
    (parent child : String) : Prop :=
  v.links.Lists parent child ∧ v.Renders registry data child

theorem Renders.mem_keys {key : String} (h : v.Renders registry data key) : key ∈ v.keys := by
  obtain ⟨⟨n, hn, -⟩, -⟩ := h
  exact mem_keys_iff.2 ⟨n, hn⟩

theorem exists_output_iff {output : String → Option Call}
    (houtput : AreOutputs v registry.recording data output) {key : String} (hkey : key ∈ v.keys) :
    (∃ call, output key = some call) ↔ v.HasRenderer registry key := by
  obtain ⟨n, hn⟩ := mem_keys_iff.1 hkey
  rw [houtput key n hn, registry.renderer?_recording, HasRenderer]
  cases hrender : registry.renderer? n.kind n.type with
  | none => simp [hn, hrender]
  | some render => simp [hn, hrender]

/-- In a call that a node makes are the nodes whose outputs were handed on up to the node. -/
theorem mem_keys_call_iff (hv : v.Sound) {output : String → Option Call}
    (houtput : AreOutputs v registry.recording data output) {key : String} :
    ∀ top ∈ v.keys, ∀ call, output top = some call →
      (key ∈ call.keys ↔ Relation.ReflTransGen (v.Hands registry data) top key) := by
  intro top
  induction top using hv.wellFounded.induction with
  | h top ih =>
    intro htop call hcall
    obtain ⟨n, hn⟩ := mem_keys_iff.1 htop
    have hmade := houtput top n hn
    rw [hcall, registry.renderer?_recording] at hmade
    obtain ⟨make, hmake, rfl⟩ := Option.map_eq_some_iff.1 hmade.symm
    obtain ⟨_, -, rfl⟩ := Option.map_eq_some_iff.1 hmake
    rw [Call.mem_keys_of, Relation.ReflTransGen.cases_head_iff]
    apply or_congr eq_comm
    constructor
    · intro ⟨call, hinside, hkey⟩
      obtain ⟨child, hchild, hcall⟩ := List.mem_filterMap.1 hinside
      obtain ⟨hmem, hshown⟩ := List.mem_filter.1 hchild
      have hlists : v.links.Lists top child := lists_iff.2 ⟨n, hn, hmem⟩
      have hin := hv.child_mem hlists
      exact ⟨child, ⟨hlists, (exists_output_iff houtput hin).1 ⟨call, hcall⟩, hshown⟩,
        (ih child hlists hin call hcall).1 hkey⟩
    · intro ⟨child, ⟨hlists, hhas, hshown⟩, hreach⟩
      have hin := hv.child_mem hlists
      obtain ⟨call, hcall⟩ := (exists_output_iff houtput hin).2 hhas
      obtain ⟨n', hn', hmem⟩ := lists_iff.1 hlists
      cases hn.symm.trans hn'
      exact ⟨call, List.mem_filterMap.2 ⟨child, List.mem_filter.2 ⟨hmem, hshown⟩, hcall⟩,
        (ih child hlists hin call hcall).2 hreach⟩

/-- A node is handed on up to the root just when it and everything above it makes an output. -/
theorem handed_iff (hv : v.Sound) {key : String} :
    v.Renders registry data v.root ∧ Relation.ReflTransGen (v.Hands registry data) v.root key ↔
      ∀ other, v.links.Reaches other key → v.Renders registry data other := by
  constructor
  · intro ⟨hroot, hhanded⟩
    induction hhanded with
    | refl =>
      intro other hreach
      rcases Relation.reflTransGen_iff_eq_or_transGen.1 hreach with heq | habove
      · rwa [← heq]
      · exact (hv.not_above_root other habove).elim
    | tail _ hhands ih =>
      intro other hreach
      rcases Relation.reflTransGen_iff_eq_or_transGen.1 hreach with heq | habove
      · rw [← heq]
        exact hhands.2
      · exact ih other ((hv.above_child_iff hhands.1).1 habove)
  · intro h
    have hkey : key ∈ v.keys := (h key .refl).mem_keys
    refine ⟨h v.root (hv.reaches hkey), ?_⟩
    revert h
    -- From the root down, each key is handed on by the one that lists it.
    apply hv.induction_down (motive := fun key => (∀ other, v.links.Reaches other key →
      v.Renders registry data other) → Relation.ReflTransGen (v.Hands registry data) v.root key) _ _
      key hkey
    · exact fun _ => .refl
    · intro parent key hlists ih h
      exact .tail (ih fun other hreach => h other (hreach.tail hlists)) ⟨hlists, h key .refl⟩

/-- A node is rendered when it makes an output and everything above it is shown. -/
theorem settles_rendered_iff {key : String} {state : NodeState}
    (h : Settles v registry data key state) :
    state = .rendered ↔ v.Renders registry data key ∧ Exposed v data key := by
  cases h with
  | rendered hexposed hshown hkey hrender =>
    have hhas : v.HasRenderer registry key :=
      ⟨_, hkey, by rw [hrender]; exact Option.some_ne_none _⟩
    exact ⟨fun _ => ⟨⟨hhas, hshown⟩, hexposed⟩, fun _ => rfl⟩
  | bound _ _ hkey hnone =>
    refine ⟨nofun, fun ⟨⟨⟨n, hn, hrender⟩, _⟩, _⟩ => ?_⟩
    cases hkey.symm.trans hn
    exact (hrender hnone).elim
  | pending habove hhidden =>
    refine ⟨nofun, fun ⟨_, hexposed⟩ => ?_⟩
    cases (hexposed _ habove).symm.trans hhidden
  | hidden _ hhidden =>
    refine ⟨nofun, fun ⟨⟨_, hshown⟩, _⟩ => ?_⟩
    cases hshown.symm.trans hhidden

theorem mem_renderedKeys_iff (hv : v.Sound) (registry : VerifiedRegistry O) (store : Store σ)
    {key : String} :
    key ∈ (v.render registry store).renderedKeys ↔
      v.Renders registry store.data key ∧ Exposed v store.data key := by
  obtain ⟨output, houtput⟩ := exists_areOutputs hv registry store.data
  obtain ⟨q, -, hrender, hcovers⟩ := exists_final hv store houtput
  rw [hrender, Pass.renderedKeys, Entries.names, List.mem_map]
  constructor
  · intro h
    obtain ⟨⟨name, state⟩, hentry, hname⟩ := h
    obtain rfl : name = key := hname
    obtain ⟨hmem, hstate⟩ := List.mem_filter.1 hentry
    have hsettles := hcovers.settles_of_mem hv hmem
    exact (settles_rendered_iff hsettles).1 (of_decide_eq_true hstate)
  · intro h
    obtain ⟨state, hstate, hsettles⟩ := hcovers.settled key h.1.mem_keys
    obtain rfl := (settles_rendered_iff hsettles).2 h
    exact ⟨(key, .rendered), List.mem_filter.2 ⟨Entries.mem_of_get? hstate, rfl⟩, rfl⟩

/-- What is in the output are the nodes that make an output with everything above them. -/
theorem mem_outputKeys_iff (hv : v.Sound) (registry : VerifiedRegistry O) (store : Store σ)
    {key : String} :
    key ∈ v.outputKeys registry store ↔
      ∀ other, v.links.Reaches other key → v.Renders registry store.data other := by
  obtain ⟨output, houtput⟩ := exists_areOutputs hv registry.recording store.data
  obtain ⟨q, -, hrender, hcovers⟩ := exists_final hv store houtput
  have hcall : v.outputCall? registry store =
      if v.shows store.data v.root then output v.root else none := by
    rw [outputCall?, hrender, hcovers.outputs, List.filter_singleton]
    cases v.shows store.data v.root with
    | false => rfl
    | true =>
      rw [cond_true, filterMap_singleton]
      cases output v.root <;> rfl
  rw [← handed_iff hv, outputKeys, hcall, Renders]
  cases hshown : v.shows store.data v.root with
  | false => simp
  | true =>
    rw [if_pos rfl]
    cases hroot : output v.root with
    | none =>
      have hnot : ¬ v.HasRenderer registry v.root := by
        rw [← exists_output_iff houtput hv.root_mem, hroot]
        exact nofun
      simp [hnot]
    | some call =>
      have hhas := (exists_output_iff houtput hv.root_mem).1 ⟨call, hroot⟩
      exact (mem_keys_call_iff hv houtput v.root hv.root_mem call hroot).trans
        ⟨fun hreach => ⟨⟨hhas, rfl⟩, hreach⟩, And.right⟩

/-- A node is in the output when it and all that stands above it is rendered. -/
theorem mem_outputKeys_iff_rendered (hv : v.Sound) (registry : VerifiedRegistry O)
    (store : Store σ) {key : String} :
    key ∈ v.outputKeys registry store ↔
      ∀ other, v.links.Reaches other key → other ∈ (v.render registry store).renderedKeys := by
  rw [mem_outputKeys_iff hv]
  constructor
  · intro h other hreach
    rw [mem_renderedKeys_iff hv]
    exact ⟨h other hreach, fun above habove => (h above (habove.to_reflTransGen.trans hreach)).2⟩
  · intro h other hreach
    exact ((mem_renderedKeys_iff hv registry store).1 (h other hreach)).1

/-- The rendered nodes are those in the output just when nothing rendered stands below a node
without a renderer. -/
theorem renderedKeys_eq_outputKeys_iff (hv : v.Sound) (registry : VerifiedRegistry O)
    (store : Store σ) :
    (∀ key, key ∈ (v.render registry store).renderedKeys ↔ key ∈ v.outputKeys registry store) ↔
      ∀ key ∈ (v.render registry store).renderedKeys, ∀ above, v.links.Above above key →
        v.HasRenderer registry above := by
  constructor
  · intro h key hkey above habove
    exact ((mem_outputKeys_iff hv registry store).1 ((h key).1 hkey) above
      habove.to_reflTransGen).1
  · intro h key
    rw [mem_outputKeys_iff_rendered hv]
    constructor
    · intro hkey other hreach
      obtain ⟨hrenders, hexposed⟩ := (mem_renderedKeys_iff hv registry store).1 hkey
      rcases Relation.reflTransGen_iff_eq_or_transGen.1 hreach with heq | habove
      · rwa [← heq]
      · rw [mem_renderedKeys_iff hv]
        exact ⟨⟨h key hkey other habove, hexposed other habove⟩,
          fun above habove' => hexposed above (habove'.trans habove)⟩
    · exact fun hall => hall key .refl

end ValidatedTree

/-- What of a render pass is in its output, whichever catalog the registry was verified against. The
output is made by the recorded call. Rendered is what has a renderer and is shown with everything
above it; in the output is what is rendered with everything above it. So the rendered nodes are those
in the output just when nothing rendered stands below a node without a renderer. -/
theorem ValidatedTree.output_contains_iff {t : Tree} {catalog : Catalog} {config : Config}
    {v : ValidatedTree} (hvalid : t.validate catalog config = .ok v) {O σ : Type}
    (registry : VerifiedRegistry O) (store : Store σ) :
    (v.outputCall? registry store).map (Rendering.Call.output? registry) =
      (v.render registry store).output.map some ∧
    ((v.render registry store).output = none ↔ v.outputKeys registry store = []) ∧
    (∀ key, key ∈ (v.render registry store).renderedKeys ↔
      v.HasRenderer registry key ∧ v.shows store.data key = true ∧
        ∀ above, v.links.Above above key → v.shows store.data above = true) ∧
    (∀ key, key ∈ v.outputKeys registry store ↔
      ∀ other, v.links.Reaches other key → other ∈ (v.render registry store).renderedKeys) ∧
    ((∀ key, key ∈ (v.render registry store).renderedKeys ↔ key ∈ v.outputKeys registry store) ↔
      ∀ key ∈ (v.render registry store).renderedKeys, ∀ above, v.links.Above above key →
        v.HasRenderer registry above) := by
  have hv := Tree.sound_of_validate hvalid
  refine ⟨map_outputCall? v registry store, output_eq_none_iff v registry store, fun key => ?_,
    fun key => mem_outputKeys_iff_rendered hv registry store,
    renderedKeys_eq_outputKeys_iff hv registry store⟩
  rw [mem_renderedKeys_iff hv, Renders, and_assoc]
  rfl

namespace Sample

/-- The data on which the side box of the page is open. -/
def opened : Store Unit := .create (.object [("open", .bool true)]) ()

/-- The types of another program, where buttons have the place that they have here. -/
def panelCatalog : Catalog := ⟨[⟨"Panel", .object [], true⟩, ⟨"Button", .object [], false⟩], []⟩

/-- Renderers for the types of the other program. -/
def panelRegistry : Registry String :=
  (Registry.empty.register "Panel" label).register "Button" label

def foreign : VerifiedRegistry String := ⟨[("Panel", label), ("Button", label)], []⟩

theorem verify_panelRegistry : panelRegistry.verify panelCatalog .strict = .ok foreign := rfl

theorem renderedKeys_foreign : (page.render foreign opened).renderedKeys = ["send"] := by cbv

end Sample

/-- With the renderers of the other program the button of the open side box is rendered, but the box
is not, and so the button is not in the output. -/
theorem ValidatedTree.output_contains_iff_page :
    Sample.tree.validate Sample.catalog Config.default = .ok Sample.page ∧
      "send" ∈ (Sample.page.render Sample.foreign Sample.opened).renderedKeys ∧
      "send" ∉ Sample.page.outputKeys Sample.foreign Sample.opened := by
  obtain ⟨-, -, -, hdelivered, -⟩ :=
    output_contains_iff Sample.validate_tree Sample.foreign Sample.opened
  have hlists : Sample.page.links.Lists "side" "send" := ⟨["send"], rfl, List.mem_cons_self⟩
  refine ⟨Sample.validate_tree, ?_, fun hmem => ?_⟩
  · rw [Sample.renderedKeys_foreign]
    exact List.mem_cons_self
  · have hside := (hdelivered "send").1 hmem "side" (.single hlists)
    rw [Sample.renderedKeys_foreign] at hside
    exact absurd hside (by decide)

/-- A pass without an output can have rendered something. -/
theorem ValidatedTree.not_rendered_iff_contained_page :
    Sample.tree.validate Sample.catalog Config.default = .ok Sample.page ∧
      Sample.panelRegistry.verify Sample.panelCatalog .strict = .ok Sample.foreign ∧
      (Sample.page.render Sample.foreign Sample.opened).output = none ∧
      (Sample.page.render Sample.foreign Sample.opened).renderedKeys ≠ [] ∧
      ¬ ∀ key, key ∈ (Sample.page.render Sample.foreign Sample.opened).renderedKeys ↔
        key ∈ Sample.page.outputKeys Sample.foreign Sample.opened := by
  have hnone : (Sample.page.render Sample.foreign Sample.opened).output = none := by cbv
  have hsend : "send" ∈ (Sample.page.render Sample.foreign Sample.opened).renderedKeys := by
    rw [Sample.renderedKeys_foreign]
    exact List.mem_cons_self
  refine ⟨Sample.validate_tree, Sample.verify_panelRegistry, hnone, List.ne_nil_of_mem hsend,
    fun h => ?_⟩
  have hin := (h "send").1 hsend
  rw [(output_eq_none_iff Sample.page Sample.foreign Sample.opened).1 hnone] at hin
  exact List.not_mem_nil hin

end CatalogUi
