/-!
Named entries in the order of their definition. Writing a name that is there already keeps its place
and replaces what stands under it, and a new name goes to the end.
-/

namespace CatalogUi.Entries

variable {α : Type}

/-- What stands under a name. -/
def get? (entries : List (String × α)) (name : String) : Option α :=
  match entries with
  | [] => none
  | (key, value) :: rest => if key = name then some value else get? rest name

/-- Writes under a name. -/
def set (entries : List (String × α)) (name : String) (value : α) : List (String × α) :=
  match entries with
  | [] => [(name, value)]
  | (key, old) :: rest =>
    if key = name then (key, value) :: rest else (key, old) :: set rest name value

@[simp] theorem get?_set_self (entries : List (String × α)) (name : String) (value : α) :
    get? (set entries name value) name = some value := by
  induction entries with
  | nil => simp [set, get?]
  | cons entry rest ih => by_cases h : entry.1 = name <;> simp [set, get?, h, ih]

theorem get?_set_of_ne (entries : List (String × α)) {name other : String} (value : α)
    (hne : other ≠ name) : get? (set entries name value) other = get? entries other := by
  induction entries with
  | nil => simp [set, get?, Ne.symm hne]
  | cons entry rest ih =>
    by_cases h : entry.1 = name
    · simp [set, get?, h, Ne.symm hne]
    · simp [set, get?, h, ih]

theorem set_set (entries : List (String × α)) (name : String) (value other : α) :
    set (set entries name value) name other = set entries name other := by
  induction entries with
  | nil => simp [set]
  | cons entry rest ih => by_cases h : entry.1 = name <;> simp [set, h, ih]

/-- Writing what stands there already changes nothing. -/
theorem set_get? {entries : List (String × α)} {name : String} {value : α}
    (h : get? entries name = some value) : set entries name value = entries := by
  induction entries with
  | nil => cases h
  | cons entry rest ih =>
    obtain ⟨key, old⟩ := entry
    by_cases hkey : key = name
    · simp only [get?, hkey, if_true, Option.some.injEq] at h
      simp [set, hkey, h]
    · simp only [get?, hkey, if_false] at h
      simp [set, hkey, ih h]

/-- Takes out the entry under a name. The last entry moves to its place, so that no other one has to
move. -/
def swapRemove (entries : List (String × α)) (name : String) : List (String × α) :=
  match entries with
  | [] => []
  | (key, value) :: rest =>
    if key = name then
      match rest.getLast? with
      | none => []
      | some last => last :: rest.dropLast
    else (key, value) :: swapRemove rest name

/-- Removes everything under a name. -/
def erase (entries : List (String × α)) (name : String) : List (String × α) :=
  match entries with
  | [] => []
  | (key, value) :: rest =>
    if key = name then erase rest name else (key, value) :: erase rest name

theorem length_erase_le (entries : List (String × α)) (name : String) :
    (erase entries name).length ≤ entries.length := by
  fun_induction erase entries name with
  | case1 => exact Nat.le_refl _
  | case2 => exact Nat.le_succ_of_le ‹_›
  | case3 => exact Nat.succ_le_succ ‹_›

theorem length_erase_lt {entries : List (String × α)} {name : String} {value : α}
    (h : get? entries name = some value) : (erase entries name).length < entries.length := by
  have hle (rest : List (String × α)) := length_erase_le rest name
  fun_induction erase entries name with
  | case1 => simp [get?] at h
  | case2 => exact Nat.lt_succ_of_le (hle _)
  | case3 key _ rest hkey ih =>
    simp only [get?, hkey, if_false] at h
    exact Nat.succ_lt_succ (ih h)

def has (entries : List (String × α)) (name : String) : Bool :=
  (get? entries name).isSome

def names (entries : List (String × α)) : List String :=
  entries.map (·.1)

/-- Something stands under a name just when the name is there. -/
theorem has_iff_mem_names (entries : List (String × α)) (name : String) :
    has entries name = true ↔ name ∈ names entries := by
  induction entries with
  | nil => simp [has, get?, names]
  | cons entry rest ih =>
    by_cases h : entry.1 = name
    · simp [has, get?, names, h]
    · simpa [has, get?, names, h, Ne.symm h] using ih

/-- Writing keeps the names in their order, with a new name at the end. -/
theorem names_set (entries : List (String × α)) (name : String) (value : α) :
    names (set entries name value) =
      if name ∈ names entries then names entries else names entries ++ [name] := by
  induction entries with
  | nil => simp [set, names]
  | cons entry rest ih =>
    by_cases h : entry.1 = name
    · simp [set, names, h]
    · simp only [names] at ih
      by_cases hmem : name ∈ rest.map (·.1) <;>
        simp [set, names, h, Ne.symm h, ih, hmem]

/-- Something stands under each name that is there. -/
theorem mem_names_iff {entries : List (String × α)} {name : String} :
    name ∈ names entries ↔ ∃ value, get? entries name = some value := by
  rw [← has_iff_mem_names, has, Option.isSome_iff_exists]

/-- Writing under a name that is there keeps the names. -/
theorem names_set_of_mem {entries : List (String × α)} {name : String} (value : α)
    (h : name ∈ names entries) : names (set entries name value) = names entries := by
  rw [names_set, if_pos h]

theorem mem_of_get? {entries : List (String × α)} {name : String} {value : α}
    (h : get? entries name = some value) : (name, value) ∈ entries := by
  induction entries with
  | nil => cases h
  | cons entry rest ih =>
    obtain ⟨key, old⟩ := entry
    by_cases hkey : key = name
    · simp only [get?, hkey, if_true, Option.some.injEq] at h
      rw [hkey, h]
      exact List.mem_cons_self
    · simp only [get?, hkey, if_false] at h
      exact List.mem_cons_of_mem _ (ih h)

theorem mem_of_mem_set {entries : List (String × α)} {name : String} {value : α}
    {entry : String × α} (h : entry ∈ set entries name value) :
    entry = (name, value) ∨ entry ∈ entries := by
  induction entries with
  | nil => exact Or.inl (List.mem_singleton.1 h)
  | cons first rest ih =>
    obtain ⟨key, old⟩ := first
    by_cases hkey : key = name
    · simp only [set, hkey, if_true] at h
      rcases List.mem_cons.1 h with heq | hmem
      · exact Or.inl heq
      · exact Or.inr (List.mem_cons_of_mem _ hmem)
    · simp only [set, hkey, if_false] at h
      rcases List.mem_cons.1 h with heq | hmem
      · exact Or.inr (heq ▸ List.mem_cons_self)
      · exact (ih hmem).imp_right (List.mem_cons_of_mem _)

/-- What is made of every value is found under the same name. -/
theorem get?_map {β : Type} (f : α → β) (entries : List (String × α)) (name : String) :
    get? (entries.map fun entry => (entry.1, f entry.2)) name = (get? entries name).map f := by
  induction entries with
  | nil => rfl
  | cons entry rest ih => by_cases h : entry.1 = name <;> simp [get?, h, ih]

@[simp] theorem names_map {β : Type} (f : α → β) (entries : List (String × α)) :
    names (entries.map fun entry => (entry.1, f entry.2)) = names entries := by
  simp [names, Function.comp_def]

theorem get?_erase_of_ne {entries : List (String × α)} {name other : String}
    (hne : other ≠ name) : get? (erase entries name) other = get? entries other := by
  induction entries with
  | nil => rfl
  | cons entry rest ih =>
    by_cases h : entry.1 = name
    · simp [erase, get?, h, Ne.symm hne, ih]
    · simp [erase, get?, h, ih]

/-- No name stands twice. -/
def Distinct (entries : List (String × α)) : Prop :=
  (names entries).Nodup

instance (entries : List (String × α)) : Decidable (Distinct entries) :=
  inferInstanceAs (Decidable (List.Nodup _))

theorem Distinct.get?_of_mem {entries : List (String × α)} (hd : Distinct entries)
    {name : String} {value : α} (hmem : (name, value) ∈ entries) :
    get? entries name = some value := by
  induction entries with
  | nil => cases hmem
  | cons entry rest ih =>
    obtain ⟨hnew, hrest⟩ := List.nodup_cons.1 hd
    rcases List.mem_cons.1 hmem with heq | hmem
    · simp [get?, ← heq]
    · have hname : name ∈ names rest := List.mem_map_of_mem (f := (·.1)) hmem
      have hne : entry.1 ≠ name := by
        rintro rfl
        exact hnew hname
      simp only [get?, hne, if_false]
      exact ih hrest hmem

/-- What stands under a name does not depend on the order of the entries. -/
theorem Distinct.get?_of_perm {entries entries' : List (String × α)} (hd : Distinct entries)
    (hperm : entries'.Perm entries) (name : String) : get? entries' name = get? entries name := by
  have hnames : (names entries').Perm (names entries) := hperm.map _
  have hd' : Distinct entries' := hnames.nodup_iff.2 hd
  apply Option.ext
  intro value
  constructor
  · intro h
    exact hd.get?_of_mem (hperm.mem_iff.1 (mem_of_get? h))
  · intro h
    exact hd'.get?_of_mem (hperm.mem_iff.2 (mem_of_get? h))

/-- With the entry that was taken out in front, there are the same entries in some order. -/
theorem perm_swapRemove {entries : List (String × α)} {name : String} {value : α}
    (h : get? entries name = some value) :
    ((name, value) :: swapRemove entries name).Perm entries := by
  induction entries with
  | nil => cases h
  | cons entry rest ih =>
    obtain ⟨key, old⟩ := entry
    by_cases hkey : key = name
    · simp only [get?, hkey, if_true, Option.some.injEq] at h
      rw [swapRemove, if_pos hkey, ← hkey, ← h]
      refine .cons _ ?_
      cases hlast : rest.getLast? with
      | none => rw [List.getLast?_eq_none_iff.1 hlast]
      | some last =>
        obtain ⟨front, rfl⟩ := List.getLast?_eq_some_iff.1 hlast
        rw [List.dropLast_concat]
        exact (List.perm_append_singleton last front).symm
    · simp only [get?, hkey, if_false] at h
      rw [swapRemove, if_neg hkey]
      exact (List.Perm.swap _ _ _).trans (.cons _ (ih h))

theorem swapRemove_of_get?_eq_none {entries : List (String × α)} {name : String}
    (h : get? entries name = none) : swapRemove entries name = entries := by
  induction entries with
  | nil => rfl
  | cons entry rest ih =>
    obtain ⟨key, old⟩ := entry
    by_cases hkey : key = name
    · simp [get?, hkey] at h
    · simp only [get?, hkey, if_false] at h
      rw [swapRemove, if_neg hkey, ih h]

theorem Distinct.swapRemove {entries : List (String × α)} (hd : Distinct entries)
    (name : String) : Distinct (swapRemove entries name) := by
  cases h : get? entries name with
  | none => rwa [swapRemove_of_get?_eq_none h]
  | some value =>
    have hperm := (perm_swapRemove h).map (·.1)
    exact (List.nodup_cons.1 (hperm.nodup_iff.2 hd)).2

/-- Taking out an entry leaves what stands under the other names. -/
theorem Distinct.get?_swapRemove_of_ne {entries : List (String × α)} (hd : Distinct entries)
    {name other : String} (hne : other ≠ name) :
    get? (Entries.swapRemove entries name) other = get? entries other := by
  cases h : get? entries name with
  | none => rw [swapRemove_of_get?_eq_none h]
  | some value =>
    rw [← hd.get?_of_perm (perm_swapRemove h)]
    simp [get?, Ne.symm hne]

theorem Distinct.set {entries : List (String × α)} (hd : Distinct entries) (name : String)
    (value : α) : Distinct (set entries name value) := by
  rw [Distinct, names_set]
  split
  · exact hd
  · rename_i hnew
    exact List.nodup_append.2 ⟨hd, by simp, by
      intro a ha b hb heq
      rw [List.mem_singleton.1 hb] at heq
      exact hnew (heq ▸ ha)⟩

/-- Writes pairs one after the other. The last value of a name counts, at its first place. -/
def ofPairs (pairs : List (String × α)) : List (String × α) :=
  pairs.foldl (fun entries pair => set entries pair.1 pair.2) []

theorem distinct_ofPairs (pairs : List (String × α)) : Distinct (ofPairs pairs) := by
  have hfold (entries : List (String × α)) (hd : Distinct entries) :
      Distinct (pairs.foldl (fun entries pair => set entries pair.1 pair.2) entries) := by
    induction pairs generalizing entries with
    | nil => exact hd
    | cons pair rest ih => exact ih _ (hd.set pair.1 pair.2)
  exact hfold [] List.nodup_nil

end CatalogUi.Entries
