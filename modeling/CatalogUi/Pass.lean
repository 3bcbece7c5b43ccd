import CatalogUi.Registry
import CatalogUi.Store

/-!
Render passes. A pass walks a validated tree depth first, with a stack of frames and the outputs so
far. A node is entered once: it is hidden when its condition does not hold, and then nothing below
it is entered; otherwise its bindings are read, and it is rendered after its children, from the
outputs that were added since it was entered.
-/

namespace CatalogUi

/-- How far a node came in a pass. -/
inductive NodeState where
  /-- Not reached, because something above is hidden. -/
  | pending
  | validated
  | hidden
  /-- Its bindings are read. -/
  | bound
  | rendered
deriving DecidableEq

/-- The result of one pass. -/
structure Pass (O : Type) where
  /-- The output of the root, unless it is hidden. -/
  output : Option O
  /-- The state of every node, in depth-first order. -/
  states : List (String × NodeState)
  /-- The warnings of the registry, and those of this pass. -/
  warnings : List RegistryError
  /-- The revision of the store that the pass shows. -/
  revision : Nat

namespace Pass

variable {O : Type}

def state? (p : Pass O) (key : String) : Option NodeState := Entries.get? p.states key

def isRendered (p : Pass O) (key : String) : Bool := p.state? key = some .rendered

/-- The keys of rendered nodes, in depth-first order. -/
def renderedKeys (p : Pass O) : List String :=
  Entries.names (p.states.filter fun entry => entry.2 = .rendered)

end Pass

namespace Rendering

variable {O : Type}

/-- What is still to be done: entering a node, or leaving a node with all its children done. The
mark is the number of outputs that were there when the node was entered. -/
inductive Frame where
  | enter (key : String)
  | leave (view : View) (mark : Nat)

/-- How far a pass is. -/
structure Progress (O : Type) where
  states : List (String × NodeState)
  /-- The outputs of nodes that are done and wait for their parents, in order. -/
  outputs : List O
  warnings : List RegistryError

namespace Progress

def mark (p : Progress O) (key : String) (state : NodeState) : Progress O :=
  { p with states := Entries.set p.states key state }

/-- Renders a node from the outputs of its children. Without a renderer these are dropped. -/
def leave (registry : VerifiedRegistry O) (p : Progress O) (view : View) (mark : Nat) :
    Progress O :=
  match registry.renderer? view.kind view.type with
  | some render =>
    { p.mark view.key .rendered with
      outputs := p.outputs.take mark ++ [render view (p.outputs.drop mark)] }
  | none =>
    { p with
      outputs := p.outputs.take mark
      warnings := p.warnings ++ [.missingRenderer view.type] }

end Progress

/-! ## Termination -/

/-- How many nodes were not entered yet. -/
def pendingCount (states : List (String × NodeState)) : Nat :=
  states.countP fun entry => entry.2 = .pending

theorem pendingCount_set_le {states : List (String × NodeState)} {key : String} {s : NodeState}
    (hs : s ≠ .pending) : pendingCount (Entries.set states key s) ≤ pendingCount states := by
  induction states with
  | nil => simp [pendingCount, Entries.set, hs]
  | cons entry rest ih =>
    by_cases hkey : entry.1 = key <;> simp_all [pendingCount, Entries.set, List.countP_cons]

theorem pendingCount_set_lt {states : List (String × NodeState)} {key : String} {s : NodeState}
    (hkey : Entries.get? states key = some .pending) (hs : s ≠ .pending) :
    pendingCount (Entries.set states key s) < pendingCount states := by
  induction states with
  | nil => simp [Entries.get?] at hkey
  | cons entry rest ih =>
    by_cases hname : entry.1 = key <;>
      simp_all [pendingCount, Entries.get?, Entries.set, List.countP_cons]

theorem pendingCount_leave_le (registry : VerifiedRegistry O) (p : Progress O) (view : View)
    (mark : Nat) : pendingCount (p.leave registry view mark).states ≤ pendingCount p.states := by
  unfold Progress.leave
  split
  · exact pendingCount_set_le (by decide)
  · exact Nat.le_refl _

/-! ## The walk -/

/-- Takes frames from the stack until it is empty. -/
def run (tree : ValidatedTree) (registry : VerifiedRegistry O) (data : Value) (p : Progress O)
    (stack : List Frame) : Progress O :=
  match stack with
  | [] => p
  | .leave view mark :: rest => run tree registry data (p.leave registry view mark) rest
  | .enter key :: rest =>
    match tree.node? key with
    | none => run tree registry data p rest
    | some node =>
      if _ : Entries.get? p.states key = some .pending then
        let q := p.mark key .validated
        if node.isVisible data then
          run tree registry data (q.mark key .bound)
            (node.children.map .enter ++ .leave (node.view key data) q.outputs.length :: rest)
        else run tree registry data (q.mark key .hidden) rest
      else run tree registry data p rest
termination_by (pendingCount p.states, stack.length)
decreasing_by
  · exact Prod.Lex.right' _ (pendingCount_leave_le registry p view mark) (Nat.lt_succ_self _)
  · exact Prod.Lex.right _ (Nat.lt_succ_self _)
  · exact Prod.Lex.left _ _ (Nat.lt_of_le_of_lt (pendingCount_set_le (by decide))
      (pendingCount_set_lt ‹_› (by decide)))
  · exact Prod.Lex.left _ _ (Nat.lt_of_le_of_lt (pendingCount_set_le (by decide))
      (pendingCount_set_lt ‹_› (by decide)))
  · exact Prod.Lex.right _ (Nat.lt_succ_self _)

/-- Nothing is done yet. -/
def start (tree : ValidatedTree) (registry : VerifiedRegistry O) : Progress O where
  states := tree.nodes.map fun entry => (entry.1, .pending)
  outputs := []
  warnings := registry.warnings

end Rendering

/-- Renders a tree on the data of a store. -/
def ValidatedTree.render {O σ : Type} (tree : ValidatedTree) (registry : VerifiedRegistry O)
    (store : Store σ) : Pass O :=
  let p := Rendering.run tree registry store.data (Rendering.start tree registry)
    [.enter tree.root]
  ⟨p.outputs.getLast?, p.states, p.warnings, store.revision⟩

end CatalogUi
