import CatalogUi.Validation.Walk
import Mathlib.Data.List.Nodup
import Mathlib.Logic.Relation

/-!
The graph of the links of a tree: which key lists which, what is reached from a key, and the
depth-first order of what stands below some keys. Keys that have a depth-first order list no cycle,
so that recursion along the lists of their children ends.
-/

namespace CatalogUi.Links

variable {links : Links}

/-- A key stands among the children of another. -/
def Lists (links : Links) (parent child : String) : Prop :=
  ∃ children, Entries.get? links parent = some children ∧ child ∈ children

/-- A key lists another, or lists one that reaches it. Every key reaches itself. -/
abbrev Reaches (links : Links) : String → String → Prop :=
  Relation.ReflTransGen links.Lists

/-- A key stands properly above another. -/
abbrev Above (links : Links) : String → String → Prop :=
  Relation.TransGen links.Lists

/-- The children of a key. -/
def childrenOf (links : Links) (key : String) : List String :=
  (Entries.get? links key).getD []

theorem mem_childrenOf {parent child : String} :
    child ∈ links.childrenOf parent ↔ links.Lists parent child := by
  rw [childrenOf, Lists]
  cases Entries.get? links parent with
  | none => simp
  | some children => simp

/-- All that is listed, each key as often as it is listed. -/
def listings (links : Links) : List String :=
  links.flatMap (·.2)

/-- Where no key stands twice, the children of the keys are all that is listed. -/
theorem flatMap_childrenOf (hd : Entries.Distinct links) :
    (Entries.names links).flatMap links.childrenOf = links.listings := by
  rw [Entries.names, List.flatMap_map]
  apply List.flatMap_congr
  intro entry hmem
  rw [childrenOf, hd.get?_of_mem hmem]
  rfl

/-- Links from a root to everything else, on which no two ways lead to the same key. -/
structure IsTree (links : Links) (root : String) : Prop where
  /-- Every key but the root is listed once, and nothing else is listed. -/
  listed : (root :: links.listings).Perm (Entries.names links)
  reached : ∀ key ∈ Entries.names links, links.Reaches root key

theorem mem_listings (hd : Entries.Distinct links) {child : String} :
    child ∈ links.listings ↔ ∃ parent, links.Lists parent child := by
  rw [← flatMap_childrenOf hd, List.mem_flatMap]
  constructor
  · rintro ⟨parent, -, hmem⟩
    exact ⟨parent, mem_childrenOf.1 hmem⟩
  · rintro ⟨parent, hlists⟩
    obtain ⟨children, hkey, _⟩ := id hlists
    exact ⟨parent, Entries.mem_names_iff.2 ⟨children, hkey⟩, mem_childrenOf.2 hlists⟩

/-- Links make up a tree when the counts of the listings are right and everything is reached. -/
theorem isTree_iff (hd : Entries.Distinct links) {root : String} :
    links.IsTree root ↔
      root ∈ Entries.names links ∧
      (∀ parent child, links.Lists parent child → child ∈ Entries.names links) ∧
      links.listings.count root = 0 ∧
      (∀ key ∈ Entries.names links, key ≠ root → links.listings.count key = 1) ∧
      ∀ key ∈ Entries.names links, links.Reaches root key := by
  constructor
  · intro h
    have hcount {key : String} (hmem : key ∈ Entries.names links) :
        (root :: links.listings).count key = 1 := by
      rw [h.listed.count_eq, List.count_eq_one_of_mem hd hmem]
    have hroot := h.listed.mem_iff.1 List.mem_cons_self
    refine ⟨hroot, fun parent child hlists => ?_, ?_, fun key hmem hne => ?_, h.reached⟩
    · exact h.listed.mem_iff.1 (List.mem_cons_of_mem _ ((mem_listings hd).2 ⟨parent, hlists⟩))
    · have := hcount hroot
      rw [List.count_cons_self] at this
      omega
    · rw [← hcount hmem, List.count_cons_of_ne hne.symm]
  · rintro ⟨hroot, hexist, hunlisted, honce, hreached⟩
    refine ⟨List.perm_iff_count.2 fun key => ?_, hreached⟩
    by_cases hmem : key ∈ Entries.names links
    · rw [List.count_eq_one_of_mem hd hmem]
      by_cases hkey : key = root
      · rw [hkey, List.count_cons_self, hunlisted]
      · rw [List.count_cons_of_ne (Ne.symm hkey), honce key hmem hkey]
    · have hne : key ≠ root := fun heq => hmem (heq ▸ hroot)
      have hnot : key ∉ links.listings := fun hlisted => by
        obtain ⟨parent, hlists⟩ := (mem_listings hd).1 hlisted
        exact hmem (hexist parent key hlists)
      rw [List.count_cons_of_ne hne.symm, List.count_eq_zero_of_not_mem hnot,
        List.count_eq_zero_of_not_mem hmem]

/-- Going down from a key along the lists of children comes to an end, whichever way is taken. -/
abbrev Grounded (links : Links) : String → Prop :=
  Acc fun child parent => links.Lists parent child

theorem grounded_of_children {key : String} {children : List String}
    (hkey : Entries.get? links key = some children) (h : ∀ child ∈ children, links.Grounded child) :
    links.Grounded key := by
  apply Acc.intro
  rintro child ⟨children', hchildren', hchild⟩
  rw [hkey] at hchildren'
  cases hchildren'
  exact h child hchild

/-- Going down for ever is what a key would allow that stands above itself. -/
theorem Grounded.not_above_self {key : String} (h : links.Grounded key) :
    ¬ links.Above key key := by
  induction h with
  | intro key _ ih =>
    intro habove
    obtain ⟨child, hlists, hreach⟩ := Relation.TransGen.head'_iff.1 habove
    exact ih child hlists (.tail' hreach hlists)

/-- The depth-first order of some keys and of everything below them: a key comes first, then what
stands below it, its children in the order of their list, then what the keys after it lead to. -/
inductive Preorder (links : Links) : List String → List String → Prop
  | nil : Preorder links [] []
  | cons {key : String} {children rest below after : List String}
      (hkey : Entries.get? links key = some children)
      (hbelow : Preorder links children below) (hrest : Preorder links rest after) :
      Preorder links (key :: rest) (key :: (below ++ after))

namespace Preorder

theorem top_mem {tops order : List String} (h : Preorder links tops order) :
    ∀ key ∈ tops, key ∈ order := by
  induction h with
  | nil => exact fun _ hmem => hmem
  | cons _ _ _ _ ihrest =>
    intro key hmem
    rcases List.mem_cons.1 hmem with rfl | hmem
    · exact List.mem_cons_self
    · exact List.mem_cons_of_mem _ (List.mem_append_right _ (ihrest key hmem))

/-- The order begins with the first key at its top. -/
theorem head?_eq {top : String} {tops order : List String}
    (h : Preorder links (top :: tops) order) : order.head? = some top := by
  cases h with
  | cons => rfl

/-- The children of what stands in a depth-first order stand in it too. -/
theorem mem_of_lists {tops order : List String} (h : Preorder links tops order) {child : String} :
    ∀ key ∈ order, links.Lists key child → child ∈ order := by
  induction h with
  | nil => exact fun _ hmem => (List.not_mem_nil hmem).elim
  | cons hkey hbelow _ ihbelow ihrest =>
    intro key hmem hlists
    rcases List.mem_cons.1 hmem with rfl | hmem
    · obtain ⟨children, hchildren, hchild⟩ := hlists
      cases hkey.symm.trans hchildren
      exact List.mem_cons_of_mem _ (List.mem_append_left _ (hbelow.top_mem child hchild))
    · apply List.mem_cons_of_mem
      rw [List.mem_append] at hmem ⊢
      exact hmem.imp (ihbelow key · hlists) (ihrest key · hlists)

/-- What stands in a depth-first order is reached from the keys at its top. -/
theorem exists_reaches {tops order : List String} (h : Preorder links tops order) :
    ∀ key ∈ order, ∃ top ∈ tops, links.Reaches top key := by
  induction h with
  | nil => exact fun _ hmem => (List.not_mem_nil hmem).elim
  | cons hkey _ _ ihbelow ihrest =>
    intro key hmem
    rcases List.mem_cons.1 hmem with rfl | hmem
    · exact ⟨_, List.mem_cons_self, .refl⟩
    rcases List.mem_append.1 hmem with hmem | hmem
    · obtain ⟨child, hchild, hreach⟩ := ihbelow key hmem
      exact ⟨_, List.mem_cons_self, .head ⟨_, hkey, hchild⟩ hreach⟩
    · obtain ⟨top, htop, hreach⟩ := ihrest key hmem
      exact ⟨top, List.mem_cons_of_mem _ htop, hreach⟩

/-- Going down from what stands in a depth-first order comes to an end. -/
theorem grounded {tops order : List String} (h : Preorder links tops order) :
    ∀ key ∈ order, links.Grounded key := by
  induction h with
  | nil => exact fun _ hmem => (List.not_mem_nil hmem).elim
  | cons hkey hbelow _ ihbelow ihrest =>
    intro key hmem
    rcases List.mem_cons.1 hmem with rfl | hmem
    · exact grounded_of_children hkey fun child hchild => ihbelow child (hbelow.top_mem child hchild)
    · exact (List.mem_append.1 hmem).elim (ihbelow key) (ihrest key)

/-- No key of a depth-first order stands above itself. -/
theorem not_above_self {tops order : List String} (h : Preorder links tops order) {key : String}
    (hmem : key ∈ order) : ¬ links.Above key key :=
  (h.grounded key hmem).not_above_self

/-- The order of two lists of keys is the order of the first, then the order of the second. -/
theorem append_inv {left right order : List String} (h : Preorder links (left ++ right) order) :
    ∃ before after, order = before ++ after ∧ Preorder links left before ∧
      Preorder links right after := by
  induction left generalizing order with
  | nil => exact ⟨[], order, rfl, .nil, h⟩
  | cons key rest ih =>
    cases h with
    | cons hkey hbelow hrest =>
      obtain ⟨before, after, rfl, hleft, hright⟩ := ih hrest
      refine ⟨key :: (_ ++ before), after, ?_, .cons hkey hbelow hleft, hright⟩
      rw [List.cons_append, List.append_assoc]

/-- The order depends on the children of the keys only. -/
theorem congr {links' : Links} (hlinks : ∀ key, Entries.get? links key = Entries.get? links' key)
    {tops order : List String} (h : Preorder links tops order) : Preorder links' tops order := by
  induction h with
  | nil => exact .nil
  | cons hkey _ _ ihbelow ihrest => exact .cons ((hlinks _).symm.trans hkey) ihbelow ihrest

/-- Keys have one depth-first order only. -/
theorem unique {tops order order' : List String} (h : Preorder links tops order)
    (h' : Preorder links tops order') : order = order' := by
  induction h generalizing order' with
  | nil => cases h'; rfl
  | cons hkey _ _ ihbelow ihrest =>
    cases h' with
    | cons hkey' hbelow' hrest' =>
      rw [hkey] at hkey'
      cases hkey'
      rw [ihbelow hbelow', ihrest hrest']

end Preorder

end CatalogUi.Links
