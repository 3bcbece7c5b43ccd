import CatalogUi.Tree

/-!
The depth-first walk over the links of a tree, which need not be a tree at all: children can be
missing, shared, or ancestors. The walk keeps a stack of frames. It expands a key at most once, and
every link it comes to ends in exactly one visit, which says what the link leads to.
-/

namespace CatalogUi

/-- The children of every key. -/
abbrev Links := List (String × List String)

def Tree.links (t : Tree) : Links := t.elements.map fun entry => (entry.1, entry.2.children)

namespace Walk

/-- What is still to be done: following a link, or leaving a key with all its descendants done. A
walk begins at a key without parent. -/
inductive Frame where
  | enter (parent : Option String) (key : String)
  | leave (key : String)
deriving DecidableEq

/-- What a link leads to. -/
inductive Visit where
  /-- A key that was not visited before. -/
  | first (parent : Option String) (key : String)
  /-- A key whose descendants are still being visited. -/
  | cycle (parent : Option String) (key : String)
  /-- A key that was visited before. -/
  | again (parent : Option String) (key : String)
  /-- A key that does not exist. -/
  | missing (parent : Option String) (key : String)
deriving DecidableEq

/-- How many keys were not visited yet. -/
def unvisited (links : Links) (visited : List String) : Nat :=
  links.countP fun entry => entry.1 ∉ visited

theorem unvisited_cons_le (links : Links) (visited : List String) (key : String) :
    unvisited links (key :: visited) ≤ unvisited links visited := by
  apply List.countP_mono_left
  intro entry _ h
  simp_all

theorem unvisited_cons_lt {links : Links} {visited : List String} {key : String}
    {children : List String} (hkey : Entries.get? links key = some children)
    (hnew : key ∉ visited) : unvisited links (key :: visited) < unvisited links visited := by
  induction links with
  | nil => simp [Entries.get?] at hkey
  | cons entry rest ih =>
    obtain ⟨name, below⟩ := entry
    have hle := unvisited_cons_le rest visited key
    by_cases hname : name = key
    · subst hname
      simp [unvisited, hnew] at hle ⊢
      omega
    · simp only [Entries.get?, hname, if_false] at hkey
      have hlt := ih hkey
      simp [unvisited, List.countP_cons, hname] at hlt ⊢
      omega

/-- Takes frames from the stack until it is empty. The result is the visits in order, and all keys
visited by then. -/
def walk (links : Links) (visited onPath : List String) (stack : List Frame) :
    List Visit × List String :=
  match stack with
  | [] => ([], visited)
  | .leave key :: rest => walk links visited (onPath.erase key) rest
  | .enter parent key :: rest =>
    if key ∈ onPath then
      let (visits, visited) := walk links visited onPath rest
      (.cycle parent key :: visits, visited)
    else if _ : key ∈ visited then
      let (visits, visited) := walk links visited onPath rest
      (.again parent key :: visits, visited)
    else
      match _ : Entries.get? links key with
      | none =>
        let (visits, visited) := walk links visited onPath rest
        (.missing parent key :: visits, visited)
      | some children =>
        let (visits, visited) := walk links (key :: visited) (key :: onPath)
          (children.map (.enter (some key)) ++ .leave key :: rest)
        (.first parent key :: visits, visited)
termination_by (unvisited links visited, stack.length)
decreasing_by
  · exact Prod.Lex.right _ (Nat.lt_succ_self _)
  · exact Prod.Lex.right _ (Nat.lt_succ_self _)
  · exact Prod.Lex.right _ (Nat.lt_succ_self _)
  · exact Prod.Lex.right _ (Nat.lt_succ_self _)
  · exact Prod.Lex.left _ _ (unvisited_cons_lt ‹_› ‹_›)

/-- Walks from every key that no earlier walk has visited. -/
def sweep (links : Links) (visited : List String) : List String → List Visit
  | [] => []
  | key :: rest =>
    if key ∈ visited then sweep links visited rest
    else
      let (visits, visited) := walk links visited [] [.enter none key]
      visits ++ sweep links visited rest

/-- The visits from the root, and those from the keys that the root does not reach. -/
structure Survey where
  reached : List Visit
  detached : List Visit

def survey (links : Links) (root : String) : Survey :=
  let (reached, visited) := walk links [] [] [.enter none root]
  ⟨reached, sweep links visited (Entries.names links)⟩

end Walk

end CatalogUi
