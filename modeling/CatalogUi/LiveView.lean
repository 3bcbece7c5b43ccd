import CatalogUi.Pass

/-!
Live views keep a render pass in step with a store. Every write marks a view stale, by way of a
listener; asking a stale view for its pass renders anew. The marks of all views stand on a board in
the memory of the listeners. A view that is dropped takes its mark with it, and its listener leaves
at the next write.
-/

namespace CatalogUi

/-- Names the mark of a view. -/
structure MarkId where
  number : Nat
deriving DecidableEq

/-- The memory of listeners where there are views: the mark of every view, which is true while the
view is stale, and whatever other listeners remember. -/
structure Board (σ : Type) where
  marks : List (MarkId × Bool)
  /-- The number of the next mark. -/
  nextMark : Nat
  rest : σ

namespace Board

variable {σ : Type}

def create (rest : σ) : Board σ := ⟨[], 1, rest⟩

def mark? (b : Board σ) (id : MarkId) : Option Bool :=
  (b.marks.find? (·.1 = id)).map (·.2)

/-- Sets a mark that is on the board. -/
def set (b : Board σ) (id : MarkId) (stale : Bool) : Board σ :=
  { b with marks := b.marks.map fun m => if m.1 = id then (m.1, stale) else m }

/-- Puts up a new mark, which says stale. -/
def add (b : Board σ) : MarkId × Board σ :=
  let id : MarkId := ⟨b.nextMark⟩
  (id, { b with marks := b.marks ++ [(id, true)], nextMark := b.nextMark + 1 })

def remove (b : Board σ) (id : MarkId) : Board σ :=
  { b with marks := b.marks.filter (·.1 ≠ id) }

/-- Sets a mark at every write, for as long as it is on the board. -/
def listener (id : MarkId) : Listener (Board σ) := fun _ _ b =>
  if (b.mark? id).isSome then (true, b.set id true) else (false, b)

end Board

structure LiveView (O : Type) where
  tree : ValidatedTree
  registry : VerifiedRegistry O
  mark : MarkId
  listener : ListenerId
  /-- The pass that was rendered last. -/
  last : Option (Pass O)

namespace LiveView

variable {O σ : Type}

/-- Makes a view of a tree, which listens to the store and starts out stale. -/
def attach (tree : ValidatedTree) (registry : VerifiedRegistry O) (s : Store (Board σ)) :
    LiveView O × Store (Board σ) :=
  let (mark, board) := s.memory.add
  let (listener, s) := { s with memory := board }.subscribe (Board.listener mark)
  (⟨tree, registry, mark, listener, none⟩, s)

/-- Whether the last pass is missing or out of date. -/
def isStale (v : LiveView O) (s : Store (Board σ)) : Bool :=
  v.last.isNone || (s.memory.mark? v.mark).getD false

/-- The pass for the data of the store. Only a stale view renders. -/
def current (v : LiveView O) (s : Store (Board σ)) : Pass O × LiveView O × Store (Board σ) :=
  match v.last, v.isStale s with
  | some pass, false => (pass, v, s)
  | _, _ =>
    let pass := v.tree.render v.registry s
    (pass, { v with last := some pass }, { s with memory := s.memory.set v.mark false })

/-- Gives up a view without a word to the store. -/
def drop (v : LiveView O) (s : Store (Board σ)) : Store (Board σ) :=
  { s with memory := s.memory.remove v.mark }

/-- Gives up a view and stops listening. Says whether the view was listening. -/
def detach (v : LiveView O) (s : Store (Board σ)) : Bool × Store (Board σ) :=
  (v.drop s).unsubscribe v.listener

end LiveView

end CatalogUi
