import CatalogUi.Proofs.Walk

/-!
The walk over links as a recursion. A descent goes through the children of a key one after the
other. Below a child that was not visited before it descends first, with the child added to the path
that leads down to it, and only then goes on to the next child. A stack of frames does just this:
frames to enter are the children that are still to come, and a frame to leave is the end of a
descent, where the path becomes shorter again.
-/

namespace CatalogUi.Walk

variable {links : Links}

/-- A descent to some children of a key. There is a path of keys that leads down to the key and ends
in it, and some keys were visited before; the descent comes to its visits in order, and leaves more
keys visited. -/
inductive Descent (links : Links) :
    List String → List String → String → List String → List Visit → List String → Prop
  | done {path visited : List String} {key : String} : Descent links path visited key [] [] visited
  | cycle {path visited final rest : List String} {key child : String} {visits : List Visit}
      (hpath : child ∈ path) (hrest : Descent links path visited key rest visits final) :
      Descent links path visited key (child :: rest) (.cycle (some key) child :: visits) final
  | again {path visited final rest : List String} {key child : String} {visits : List Visit}
      (hpath : child ∉ path) (hvisited : child ∈ visited)
      (hrest : Descent links path visited key rest visits final) :
      Descent links path visited key (child :: rest) (.again (some key) child :: visits) final
  | missing {path visited final rest : List String} {key child : String} {visits : List Visit}
      (hpath : child ∉ path) (hnew : child ∉ visited) (hchild : Entries.get? links child = none)
      (hrest : Descent links path visited key rest visits final) :
      Descent links path visited key (child :: rest) (.missing (some key) child :: visits) final
  | first {path visited between final children rest : List String} {key child : String}
      {below after : List Visit} (hpath : child ∉ path) (hnew : child ∉ visited)
      (hchild : Entries.get? links child = some children)
      (hbelow : Descent links (child :: path) (child :: visited) child children below between)
      (hrest : Descent links path between key rest after final) :
      Descent links path visited key (child :: rest)
        (.first (some key) child :: (below ++ after)) final

/-- The more is visited, the less is left. -/
theorem unvisited_le_of_subset (links : Links) {visited visited' : List String}
    (h : visited ⊆ visited') : unvisited links visited' ≤ unvisited links visited := by
  apply List.countP_mono_left
  intro entry _ hnew
  rw [decide_eq_true_eq] at hnew ⊢
  exact fun hmem => hnew (h hmem)

namespace Descent

variable {path visited final children : List String} {key : String} {visits : List Visit}

theorem subset (h : Descent links path visited key children visits final) : visited ⊆ final := by
  induction h with
  | done => exact List.Subset.refl _
  | cycle _ _ ih => exact ih
  | again _ _ _ ih => exact ih
  | missing _ _ _ _ ih => exact ih
  | first _ _ _ _ _ ihbelow ihrest =>
    intro other hmem
    exact ihrest (ihbelow (List.mem_cons_of_mem _ hmem))

/-- There is a descent everywhere, since below a new child there is less left to visit. -/
theorem exists_descent (links : Links) (path visited : List String) (key : String)
    (children : List String) :
    ∃ visits final, Descent links path visited key children visits final := by
  induction hleft : unvisited links visited using Nat.strongRecOn
    generalizing path visited key children with
  | ind left ih =>
    induction children with
    | nil => exact ⟨[], visited, .done⟩
    | cons child rest ihrest =>
      obtain ⟨visits, final, hrest⟩ := ihrest
      by_cases hpath : child ∈ path
      · exact ⟨_, final, .cycle hpath hrest⟩
      by_cases hvisited : child ∈ visited
      · exact ⟨_, final, .again hpath hvisited hrest⟩
      cases hchild : Entries.get? links child with
      | none => exact ⟨_, final, .missing hpath hvisited hchild hrest⟩
      | some children =>
        have hlt := unvisited_cons_lt hchild hvisited
        rw [hleft] at hlt
        obtain ⟨below, between, hbelow⟩ := ih _ hlt (child :: path) _ child children rfl
        have hle := unvisited_le_of_subset links hbelow.subset
        obtain ⟨after, final, hrest⟩ := ih _ (Nat.lt_of_le_of_lt hle hlt) path between key rest rfl
        exact ⟨_, final, .first hpath hvisited hchild hbelow hrest⟩

/-- Where the children of a key are entered next, the walk makes their descent, and then goes on with
the frames below them. -/
theorem walk_eq (h : Descent links path visited key children visits final) (stack : List Frame) :
    walk links visited path (children.map (.enter (some key)) ++ stack) =
      (visits ++ (walk links final path stack).1, (walk links final path stack).2) := by
  induction h generalizing stack with
  | done => rfl
  | cycle hpath _ ih => rw [List.map_cons, List.cons_append, walk, if_pos hpath, ih, List.cons_append]
  | again hpath hvisited _ ih =>
    rw [List.map_cons, List.cons_append, walk, if_neg hpath, dif_pos hvisited, ih, List.cons_append]
  | missing hpath hnew hchild _ ih =>
    rw [List.map_cons, List.cons_append, walk, if_neg hpath, dif_neg hnew]
    split
    · rw [ih, List.cons_append]
    · rename_i heq
      rw [hchild] at heq
      cases heq
  | first hpath hnew hchild _ _ ihbelow ihrest =>
    rw [List.map_cons, List.cons_append, walk_first hpath hnew hchild, ihbelow, walk,
      List.erase_cons_head, ihrest]
    simp only [List.cons_append, List.append_assoc]

end Descent

/-- A walk from a key that was not visited before: the descent to its children, with the key alone on
the path. -/
structure Start (links : Links) (visited : List String) (key : String) (children : List String)
    (visits : List Visit) (final : List String) : Prop where
  new : key ∉ visited
  children_eq : Entries.get? links key = some children
  descent : Descent links [key] (key :: visited) key children visits final

namespace Start

variable {visited final children : List String} {key : String} {visits : List Visit}

theorem exists_start (hnew : key ∉ visited) (hkey : Entries.get? links key = some children) :
    ∃ visits final, Start links visited key children visits final := by
  obtain ⟨visits, final, h⟩ := Descent.exists_descent links [key] (key :: visited) key children
  exact ⟨visits, final, hnew, hkey, h⟩

/-- The walk visits the key that it starts at, and then makes the descent. -/
theorem walk_eq (h : Start links visited key children visits final) :
    walk links visited [] [.enter none key] = (.first none key :: visits, final) := by
  rw [walk_first List.not_mem_nil h.new h.children_eq, h.descent.walk_eq, walk, walk,
    List.append_nil]

theorem run (h : Start links visited key children visits final) :
    Run links visited [] [.enter none key] (.first none key :: visits) final := by
  have hrun := run_walk links visited [] [.enter none key]
  rwa [h.walk_eq] at hrun

/-- A sweep that comes to a key not visited before starts a walk there. -/
theorem sweep_eq (h : Start links visited key children visits final) (rest : List String) :
    sweep links visited (key :: rest) = .first none key :: (visits ++ sweep links final rest) := by
  rw [sweep, if_neg h.new, h.walk_eq]
  rfl

theorem lists (h : Start links visited key children visits final) :
    ∀ child ∈ children, links.Lists key child :=
  fun _ hmem => ⟨children, h.children_eq, hmem⟩

end Start

/-- What a sweep over keys visits: it starts a walk at each key that was not visited by then. -/
inductive Swept (links : Links) : List String → List String → List Visit → Prop
  | done {visited : List String} : Swept links visited [] []
  | skip {visited rest : List String} {key : String} {visits : List Visit}
      (hvisited : key ∈ visited) (hrest : Swept links visited rest visits) :
      Swept links visited (key :: rest) visits
  | start {visited final children rest : List String} {key : String} {visits after : List Visit}
      (hstart : Start links visited key children visits final)
      (hrest : Swept links final rest after) :
      Swept links visited (key :: rest) (.first none key :: (visits ++ after))

theorem swept_sweep (visited : List String) {keys : List String}
    (hkeys : keys ⊆ Entries.names links) : Swept links visited keys (sweep links visited keys) := by
  induction keys generalizing visited with
  | nil => exact .done
  | cons key rest ih =>
    obtain ⟨hkey, hrest⟩ := List.cons_subset.1 hkeys
    by_cases hvisited : key ∈ visited
    · rw [sweep, if_pos hvisited]
      exact .skip hvisited (ih visited hrest)
    · obtain ⟨children, hchildren⟩ := Entries.mem_names_iff.1 hkey
      obtain ⟨visits, final, hstart⟩ := Start.exists_start hvisited hchildren
      rw [hstart.sweep_eq]
      exact .start hstart (ih final hrest)

end CatalogUi.Walk
