import CatalogUi.Proofs.Links
import Mathlib.Data.List.Flatten
import Mathlib.Data.List.Nodup
import Mathlib.Data.List.Perm.Subperm
import Mathlib.Data.List.Permutation

/-!
What a walk does, on any links: it follows every link that it comes to just once, it expands a key
at most once, and it visits every key that it can reach. On links that make up a tree all visits are
first ones, in depth-first order, and no other links are walked in that way.
-/

namespace CatalogUi.Walk

variable {links : Links}

/-! ## The walk as a relation -/

/-- What a walk with a stack of frames comes to: the visits, and the keys visited in the end. -/
inductive Run (links : Links) :
    List String → List String → List Frame → List Visit → List String → Prop
  | done {visited onPath : List String} : Run links visited onPath [] [] visited
  | leave {visited onPath final : List String} {key : String} {rest : List Frame}
      {visits : List Visit} (h : Run links visited (onPath.erase key) rest visits final) :
      Run links visited onPath (.leave key :: rest) visits final
  | cycle {visited onPath final : List String} {parent : Option String} {key : String}
      {rest : List Frame} {visits : List Visit} (hpath : key ∈ onPath)
      (h : Run links visited onPath rest visits final) :
      Run links visited onPath (.enter parent key :: rest) (.cycle parent key :: visits) final
  | again {visited onPath final : List String} {parent : Option String} {key : String}
      {rest : List Frame} {visits : List Visit} (hpath : key ∉ onPath) (hvisited : key ∈ visited)
      (h : Run links visited onPath rest visits final) :
      Run links visited onPath (.enter parent key :: rest) (.again parent key :: visits) final
  | missing {visited onPath final : List String} {parent : Option String} {key : String}
      {rest : List Frame} {visits : List Visit} (hpath : key ∉ onPath) (hnew : key ∉ visited)
      (hkey : Entries.get? links key = none) (h : Run links visited onPath rest visits final) :
      Run links visited onPath (.enter parent key :: rest) (.missing parent key :: visits) final
  | first {visited onPath final : List String} {parent : Option String} {key : String}
      {children : List String} {rest : List Frame} {visits : List Visit} (hpath : key ∉ onPath)
      (hnew : key ∉ visited) (hkey : Entries.get? links key = some children)
      (h : Run links (key :: visited) (key :: onPath)
        (children.map (.enter (some key)) ++ .leave key :: rest) visits final) :
      Run links visited onPath (.enter parent key :: rest) (.first parent key :: visits) final

theorem walk_first {visited onPath children : List String} {key : String}
    {parent : Option String} {rest : List Frame} (hpath : key ∉ onPath) (hnew : key ∉ visited)
    (hkey : Entries.get? links key = some children) :
    walk links visited onPath (.enter parent key :: rest) =
      let expand := walk links (key :: visited) (key :: onPath)
        (children.map (.enter (some key)) ++ .leave key :: rest)
      (.first parent key :: expand.1, expand.2) := by
  rw [walk, if_neg hpath, dif_neg hnew]
  split
  · rename_i hnone
    rw [hkey] at hnone
    cases hnone
  · rename_i hsome
    rw [hkey] at hsome
    cases hsome
    rfl

theorem run_walk (links : Links) (visited onPath : List String) (stack : List Frame) :
    Run links visited onPath stack (walk links visited onPath stack).1
      (walk links visited onPath stack).2 := by
  induction visited, onPath, stack using walk.induct links with
  | case1 =>
    rw [walk]
    exact .done
  | case2 _ _ _ _ ih =>
    rw [walk]
    exact .leave ih
  | case3 _ _ _ _ _ hpath _ _ _ ih =>
    rw [walk, if_pos hpath]
    exact .cycle hpath ih
  | case4 _ _ _ _ _ hpath hvisited _ _ _ ih =>
    rw [walk, if_neg hpath, dif_pos hvisited]
    exact .again hpath hvisited ih
  | case5 _ _ _ _ _ hpath hnew hkey _ _ _ ih =>
    rw [walk, if_neg hpath, dif_neg hnew]
    split
    · exact .missing hpath hnew hkey ih
    · rename_i heq
      rw [hkey] at heq
      cases heq
  | case6 _ _ _ _ _ hpath hnew _ hkey _ _ _ ih =>
    rw [walk_first hpath hnew hkey]
    exact .first hpath hnew hkey ih

/-! ## Links and visits -/

/-- The link that a visit comes by. -/
def Visit.link : Visit → Option String × String
  | .first parent key => (parent, key)
  | .cycle parent key => (parent, key)
  | .again parent key => (parent, key)
  | .missing parent key => (parent, key)

/-- The key that a visit comes to. -/
def Visit.key (v : Visit) : String := v.link.2

def Visit.IsFirst (v : Visit) : Prop := v = .first v.link.1 v.link.2

/-- The key that a visit expands. -/
def Visit.expands? : Visit → Option String
  | .first _ key => some key
  | _ => none

/-- The keys that are expanded, in order. -/
def expanded (visits : List Visit) : List String := visits.filterMap Visit.expands?

/-- The link that a frame will follow. -/
def Frame.link? : Frame → Option (Option String × String)
  | .enter parent key => some (parent, key)
  | .leave _ => none

/-- The links that follow from a stack. -/
def pending (stack : List Frame) : List (Option String × String) := stack.filterMap Frame.link?

/-- The links from a key to its children. -/
def outgoing (links : Links) (key : String) : List (Option String × String) :=
  (links.childrenOf key).map fun child => (some key, child)

@[simp] theorem pending_leave (key : String) (rest : List Frame) :
    pending (.leave key :: rest) = pending rest := rfl

@[simp] theorem pending_enter (parent : Option String) (key : String) (rest : List Frame) :
    pending (.enter parent key :: rest) = (parent, key) :: pending rest := rfl

@[simp] theorem pending_expand (key : String) (children : List String) (rest : List Frame) :
    pending (children.map (.enter (some key)) ++ .leave key :: rest) =
      children.map (fun child => (some key, child)) ++ pending rest := by
  have henter : children.filterMap (Frame.link? ∘ Frame.enter (some key)) =
      children.map fun child => (some key, child) := by
    rw [← List.filterMap_eq_map]
    rfl
  rw [pending, List.filterMap_append, List.filterMap_map, henter]
  rfl

@[simp] theorem expanded_first (parent : Option String) (key : String) (visits : List Visit) :
    expanded (.first parent key :: visits) = key :: expanded visits := rfl

theorem mem_expanded {visits : List Visit} {key : String} :
    key ∈ expanded visits ↔ ∃ parent, .first parent key ∈ visits := by
  rw [expanded, List.mem_filterMap]
  constructor
  · rintro ⟨visit, hmem, hexpands⟩
    cases visit with
    | first parent name =>
      cases hexpands
      exact ⟨parent, hmem⟩
    | cycle | again | missing => cases hexpands
  · rintro ⟨parent, hmem⟩
    exact ⟨_, hmem, rfl⟩

/-- When all visits are first ones, they expand the keys that they come to. -/
theorem expanded_eq_map_key {visits : List Visit} (h : ∀ visit ∈ visits, visit.IsFirst) :
    expanded visits = visits.map Visit.key := by
  induction visits with
  | nil => rfl
  | cons visit rest ih =>
    rw [h visit List.mem_cons_self, expanded_first, List.map_cons,
      ih fun other hmem => h other (List.mem_cons_of_mem _ hmem)]
    rfl

namespace Run

variable {visited onPath final : List String} {stack : List Frame} {visits : List Visit}

/-- Expanding a key is what makes it visited. -/
theorem final_eq (h : Run links visited onPath stack visits final) :
    final = (expanded visits).reverse ++ visited := by
  induction h with
  | done => rfl
  | leave _ ih => exact ih
  | cycle _ _ ih => exact ih
  | again _ _ _ ih => exact ih
  | missing _ _ _ _ ih => exact ih
  | first _ _ _ _ ih => rw [ih, expanded_first, List.reverse_cons, List.append_assoc]; rfl

/-- Every link that is followed was on the stack or goes out from an expanded key, and each of these
is followed once. -/
theorem links_perm (h : Run links visited onPath stack visits final) :
    (visits.map Visit.link).Perm (pending stack ++ (expanded visits).flatMap (outgoing links)) := by
  induction h with
  | done => exact .nil
  | leave _ ih => exact ih
  | cycle _ _ ih => exact ih.cons _
  | again _ _ _ ih => exact ih.cons _
  | missing _ _ _ _ ih => exact ih.cons _
  | @first _ _ _ _ key children rest visits _ _ hkey _ ih =>
    have hout : outgoing links key = children.map fun child => (some key, child) := by
      rw [outgoing, Links.childrenOf, hkey]
      rfl
    rw [pending_expand, ← hout] at ih
    rw [List.map_cons, expanded_first, List.flatMap_cons, pending_enter, List.cons_append]
    refine (ih.trans ?_).cons _
    rw [← List.append_assoc]
    exact List.perm_append_comm.append_right _

/-- A key is expanded at most once, and only a key that exists and was not visited before. -/
theorem expanded_nodup (h : Run links visited onPath stack visits final) :
    (expanded visits).Nodup ∧ ∀ key ∈ expanded visits,
      key ∉ visited ∧ ∃ children, Entries.get? links key = some children := by
  induction h with
  | done => exact ⟨List.nodup_nil, fun _ hmem => (List.not_mem_nil hmem).elim⟩
  | leave _ ih => exact ih
  | cycle _ _ ih => exact ih
  | again _ _ _ ih => exact ih
  | missing _ _ _ _ ih => exact ih
  | first _ hnew hkey _ ih =>
    obtain ⟨hnodup, hfresh⟩ := ih
    rw [expanded_first]
    refine ⟨List.nodup_cons.2 ⟨fun hmem => (hfresh _ hmem).1 List.mem_cons_self, hnodup⟩, ?_⟩
    intro key hmem
    rcases List.mem_cons.1 hmem with rfl | hmem
    · exact ⟨hnew, _, hkey⟩
    · exact ⟨fun hvisited => (hfresh key hmem).1 (List.mem_cons_of_mem _ hvisited),
        (hfresh key hmem).2⟩

theorem subset_final (h : Run links visited onPath stack visits final) : visited ⊆ final := by
  rw [h.final_eq]
  exact List.subset_append_right _ _

/-- Every key that a walk comes to is visited in the end, unless it does not exist. -/
theorem visited_or_missing (h : Run links visited onPath stack visits final)
    (hpath : onPath ⊆ visited) :
    ∀ visit ∈ visits, visit.key ∈ final ∨
      Entries.get? links visit.key = none ∧ ∃ parent, visit = .missing parent visit.key := by
  induction h with
  | done => exact fun _ hmem => (List.not_mem_nil hmem).elim
  | leave _ ih => exact ih fun _ hmem => hpath (List.mem_of_mem_erase hmem)
  | cycle hkey h ih =>
    intro visit hmem
    rcases List.mem_cons.1 hmem with rfl | hmem
    · exact Or.inl (h.subset_final (hpath hkey))
    · exact ih hpath visit hmem
  | again _ hkey h ih =>
    intro visit hmem
    rcases List.mem_cons.1 hmem with rfl | hmem
    · exact Or.inl (h.subset_final hkey)
    · exact ih hpath visit hmem
  | missing _ _ hkey _ ih =>
    intro visit hmem
    rcases List.mem_cons.1 hmem with rfl | hmem
    · exact Or.inr ⟨hkey, _, rfl⟩
    · exact ih hpath visit hmem
  | first _ _ _ h ih =>
    intro visit hmem
    rcases List.mem_cons.1 hmem with rfl | hmem
    · exact Or.inl (h.subset_final List.mem_cons_self)
    · exact ih (List.cons_subset_cons _ hpath) visit hmem

/-- The keys that are come to are those on the stack and the children of expanded keys. -/
theorem keys_perm (h : Run links visited onPath stack visits final) :
    (visits.map Visit.key).Perm
      ((pending stack).map (·.2) ++ (expanded visits).flatMap links.childrenOf) := by
  have hperm := h.links_perm.map (·.2)
  rw [List.map_append, List.map_flatMap, List.map_map] at hperm
  have hout (key : String) : (outgoing links key).map (·.2) = links.childrenOf key := by
    rw [outgoing, List.map_map]
    exact List.map_id _
  simp only [hout] at hperm
  exact hperm

/-- A walk with first visits only goes in depth-first order. -/
theorem preorder (h : Run links visited onPath stack visits final)
    (hfirst : ∀ visit ∈ visits, visit.IsFirst) :
    links.Preorder ((pending stack).map (·.2)) (visits.map Visit.key) := by
  induction h with
  | done => exact .nil
  | leave _ ih => exact ih hfirst
  | cycle | again | missing => cases hfirst _ List.mem_cons_self
  | @first _ _ _ _ key children rest visits _ _ hkey _ ih =>
    have horder := ih fun visit hmem => hfirst visit (List.mem_cons_of_mem _ hmem)
    rw [pending_expand, List.map_append, List.map_map] at horder
    obtain ⟨below, after, hvisits, hbelow, hafter⟩ := horder.append_inv
    rw [List.map_cons, hvisits]
    refine .cons hkey ?_ hafter
    simpa [Function.comp_def] using hbelow

end Run

/-! ## Trees -/

section Root

variable {root : String} {visits : List Visit} {final : List String}

theorem mem_expanded_iff_mem_final (h : Run links [] [] [.enter none root] visits final)
    {key : String} : key ∈ expanded visits ↔ key ∈ final := by
  rw [h.final_eq, List.append_nil, List.mem_reverse]

/-- A walk from the root that comes to every key expands every key once. -/
theorem expanded_perm_names (hd : Entries.Distinct links)
    (h : Run links [] [] [.enter none root] visits final) (hall : Entries.names links ⊆ final) :
    (expanded visits).Perm (Entries.names links) := by
  refine (List.perm_ext_iff_of_nodup h.expanded_nodup.1 hd).2 fun key => ⟨fun hmem => ?_, ?_⟩
  · exact Entries.mem_names_iff.2 (h.expanded_nodup.2 key hmem).2
  · exact fun hmem => (mem_expanded_iff_mem_final h).2 (hall hmem)

/-- When the walk from the root comes to every key, and always for the first time, the links make up
a tree. -/
theorem isTree_of_first (hd : Entries.Distinct links)
    (h : Run links [] [] [.enter none root] visits final)
    (hfirst : ∀ visit ∈ visits, visit.IsFirst) (hall : Entries.names links ⊆ final) :
    links.IsTree root := by
  have hkeys := expanded_eq_map_key hfirst
  have hnames := expanded_perm_names hd h hall
  constructor
  · have hperm : (expanded visits).Perm (root :: (expanded visits).flatMap links.childrenOf) := by
      have := h.keys_perm
      rwa [← hkeys] at this
    rw [← Links.flatMap_childrenOf hd]
    exact (((hnames.flatMap_right _).cons root).symm.trans hperm.symm).trans hnames
  · intro key hmem
    rw [hnames.mem_iff.symm, hkeys] at hmem
    obtain ⟨top, htop, hreach⟩ := (h.preorder hfirst).exists_reaches key hmem
    rw [List.mem_singleton.1 htop] at hreach
    exact hreach

/-- The links that a walk follows: the way to the root, and all links from visited keys. -/
theorem exists_visit_iff (h : Run links [] [] [.enter none root] visits final)
    {parent : Option String} {key : String} :
    (∃ visit ∈ visits, visit.link = (parent, key)) ↔
      (parent, key) = (none, root) ∨
        ∃ lister ∈ final, parent = some lister ∧ links.Lists lister key := by
  rw [← List.mem_map, h.links_perm.mem_iff, List.mem_append]
  refine or_congr List.mem_singleton ?_
  simp only [List.mem_flatMap, mem_expanded_iff_mem_final h, outgoing, List.mem_map,
    Links.mem_childrenOf]
  constructor
  · rintro ⟨lister, hmem, child, hlists, heq⟩
    cases heq
    exact ⟨lister, hmem, rfl, hlists⟩
  · rintro ⟨lister, hmem, rfl, hlists⟩
    exact ⟨lister, hmem, key, hlists, rfl⟩

/-- On a tree the walk from the root has first visits only. -/
theorem isFirst_of_isTree (hd : Entries.Distinct links) (htree : links.IsTree root)
    (h : Run links [] [] [.enter none root] visits final) :
    ∀ visit ∈ visits, visit.IsFirst := by
  have hnames : expanded visits ⊆ Entries.names links := fun key hmem =>
    Entries.mem_names_iff.2 (h.expanded_nodup.2 key hmem).2
  -- The keys that are come to stand among the root and the listed keys, where none stands twice.
  have hsub : (visits.map Visit.key).Subperm (Entries.names links) := by
    obtain ⟨l, hl, hsublist⟩ := h.expanded_nodup.1.subperm hnames
    have hbelow : ((expanded visits).flatMap links.childrenOf).Subperm
        (links.listings) := by
      rw [← Links.flatMap_childrenOf hd]
      exact ⟨_, hl.flatMap_right _, hsublist.flatMap _⟩
    have hroot : (root :: (expanded visits).flatMap links.childrenOf).Subperm
        (root :: links.listings) := (List.subperm_cons root).2 hbelow
    exact h.keys_perm.subperm.trans (hroot.trans htree.listed.subperm)
  have hnodup : (visits.map Visit.key).Nodup := by
    obtain ⟨l, hl, hsublist⟩ := hsub
    exact hl.nodup_iff.1 (hsublist.nodup hd)
  intro visit hmem
  rcases h.visited_or_missing (List.Subset.refl _) visit hmem with hvisited | ⟨hmissing, -⟩
  · rw [← mem_expanded_iff_mem_final h, mem_expanded] at hvisited
    obtain ⟨parent, hfirst⟩ := hvisited
    have heq : visit = .first parent visit.key :=
      List.inj_on_of_nodup_map hnodup hmem hfirst rfl
    rw [heq]
    rfl
  · obtain ⟨children, hkey⟩ := Entries.mem_names_iff.1 (hsub.subset (List.mem_map_of_mem hmem))
    rw [hmissing] at hkey
    cases hkey

/-- On a tree the walk from the root comes to every key. -/
theorem names_subset_final_of_isTree (hd : Entries.Distinct links) (htree : links.IsTree root)
    (h : Run links [] [] [.enter none root] visits final) : Entries.names links ⊆ final := by
  have hexpanded := expanded_eq_map_key (isFirst_of_isTree hd htree h)
  have hvisited {parent : Option String} {key : String}
      (hlink : ∃ visit ∈ visits, visit.link = (parent, key)) : key ∈ final := by
    obtain ⟨visit, hmem, hlink⟩ := hlink
    have hkey : visit.key = key := congrArg Prod.snd hlink
    rw [← mem_expanded_iff_mem_final h, hexpanded, ← hkey]
    exact List.mem_map_of_mem hmem
  intro key hkey
  have hreach := htree.reached key hkey
  clear hkey
  induction hreach with
  | refl => exact hvisited ((exists_visit_iff h).2 (.inl rfl))
  | tail _ hlists ih => exact hvisited ((exists_visit_iff h).2 (.inr ⟨_, ih, rfl, hlists⟩))

end Root

/-! ## The keys that the root does not reach -/

/-- Nothing is left to sweep when everything is visited. -/
theorem sweep_eq_nil {visited keys : List String} (h : keys ⊆ visited) :
    sweep links visited keys = [] := by
  induction keys with
  | nil => rfl
  | cons key rest ih =>
    rw [sweep, if_pos (h List.mem_cons_self)]
    exact ih (List.subset_of_cons_subset h)

/-- A sweep begins with a first visit to a key that was not visited before. -/
theorem exists_first_mem_sweep {visited keys : List String} (hkeys : keys ⊆ Entries.names links)
    (h : ¬ keys ⊆ visited) : ∃ key, .first none key ∈ sweep links visited keys := by
  induction keys with
  | nil => exact (h (List.nil_subset _)).elim
  | cons key rest ih =>
    by_cases hkey : key ∈ visited
    · rw [sweep, if_pos hkey]
      apply ih (List.subset_of_cons_subset hkeys)
      intro hrest
      exact h (List.cons_subset.2 ⟨hkey, hrest⟩)
    · obtain ⟨children, hchildren⟩ := Entries.mem_names_iff.1 (hkeys List.mem_cons_self)
      refine ⟨key, ?_⟩
      rw [sweep, if_neg hkey, walk_first List.not_mem_nil hkey hchildren]
      exact List.mem_append_left _ List.mem_cons_self

end CatalogUi.Walk
