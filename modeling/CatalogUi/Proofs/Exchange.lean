import CatalogUi.Proofs.Reading

/-!
Trees that were written are read again. Reading takes the elements of a tree one by one from its
document, in their order, and no key twice.
-/

namespace CatalogUi

open Json Outcome

/-! ## Trees -/

namespace Tree

/-- The values in the elements of a tree that are no more than values. -/
def values (t : Tree) : List Value := t.elements.flatMap fun entry => entry.2.values

theorem readMembers_ofFields {nesting : Nat} {elements : List (String × Element)}
    (h : ∀ entry ∈ elements, Element.read nesting (Draft.ofValue entry.2.toValue) = .ok entry.2)
    (hd : Entries.Distinct elements) {earlier : List String}
    (hnew : ∀ key ∈ Entries.names elements, key ∉ earlier) :
    readMembers nesting earlier
      (Draft.ofFields (elements.map fun entry => (entry.1, entry.2.toValue))) .closed =
        .ok elements := by
  induction elements generalizing earlier with
  | nil => rfl
  | cons entry rest ih =>
    obtain ⟨hentry, hrest⟩ := List.forall_mem_cons.1 h
    obtain ⟨hfirst, hd⟩ := List.nodup_cons.1 hd
    obtain ⟨hfresh, hnew⟩ := List.forall_mem_cons.1 hnew
    have hlater (key : String) (hkey : key ∈ Entries.names rest) : key ∉ entry.1 :: earlier := by
      rw [List.mem_cons, not_or]
      exact ⟨ne_of_mem_of_not_mem hkey hfirst, hnew key hkey⟩
    rw [List.map_cons, Draft.ofFields, readMembers, hentry]
    simp only [bind, Except.bind, if_neg hfresh, ih hrest hd hlater]
    rfl

theorem readElements_of_readMembers {nesting : Nat} {members : List (Option String × Draft)}
    {ending : Ending} {elements : List (String × Element)} (hd : Entries.Distinct elements)
    (h : readMembers nesting [] members ending = .ok elements) :
    readElements (nesting + 1) (.object members ending) = .ok ⟨elements, hd⟩ := by
  rw [readElements]
  simp only [enter, bind, Except.bind]
  split
  · rename_i found hfound
    cases h.symm.trans hfound
    rfl
  · rename_i e hfound
    cases h.symm.trans hfound

theorem exists_readMembers_of_readElements {nesting : Nat} {d : Draft}
    {elements : {elements : List (String × Element) // Entries.Distinct elements}}
    (h : readElements nesting d = .ok elements) :
    ∃ n members ending, nesting = n + 1 ∧ d = .object members ending ∧
      readMembers n [] members ending = .ok elements.1 := by
  cases d with
  | object members ending =>
    cases nesting with
    | zero => cases h
    | succ n =>
      refine ⟨n, members, ending, rfl, rfl, ?_⟩
      rw [readElements] at h
      simp only [enter, bind, Except.bind] at h
      split at h
      · rename_i found hfound
        cases h
        exact hfound
      · cases h
  | _ => cases h

theorem toValue_eq (t : Tree) :
    t.toValue = .object [("root", .string t.root),
      ("elements", .object (t.elements.map fun entry => (entry.1, entry.2.toValue)))] := rfl

theorem legible_values {t : Tree} (h : ∀ v ∈ t.values, v.Legible) :
    ∀ entry ∈ t.elements, ∀ v ∈ entry.2.values, v.Legible :=
  fun entry hentry v hv => h v (List.mem_flatMap.2 ⟨entry, hentry, hv⟩)

/-- The document of a tree is read as the tree. -/
theorem read_toValue {t : Tree} {nesting : Nat} (h : ∀ v ∈ t.values, v.Legible)
    (hdepth : t.toValue.depth ≤ nesting) : read nesting (Draft.ofValue t.toValue) = .ok t := by
  rw [toValue_eq] at hdepth ⊢
  obtain ⟨n, rfl, hfields⟩ := Value.exists_nesting_object hdepth
  obtain ⟨m, rfl, helements⟩ := Value.exists_nesting_object
    (hfields ("elements", _) (List.mem_cons_of_mem _ List.mem_cons_self))
  have hmembers : readMembers m [] _ .closed = .ok t.elements :=
    readMembers_ofFields
      (fun entry hentry => Element.read_toValue (legible_values h entry hentry)
        (helements _ (List.mem_map_of_mem hentry)))
      t.distinct fun _ _ => List.not_mem_nil
  have hread := readElements_of_readMembers t.distinct hmembers
  have hroot : format.field (none, none) "root" (m + 1) (Draft.ofValue (.string t.root)) =
      .ok (some t.root, none) := rfl
  have hfield : format.field (some t.root, none) "elements" (m + 1)
      (Draft.ofValue (.object (t.elements.map fun entry => (entry.1, entry.2.toValue)))) =
        .ok (some t.root, some ⟨t.elements, t.distinct⟩) := by
    change (do return (some t.root, ← readOnce "elements" none readElements (m + 1) _)) = _
    rw [readOnce, Draft.ofValue, hread]
    rfl
  have hformat : format.read (m + 2) (Draft.ofValue (.object [("root", .string t.root),
      ("elements", .object (t.elements.map fun entry => (entry.1, entry.2.toValue)))])) =
        .ok (some t.root, some ⟨t.elements, t.distinct⟩) := by
    change format.readMembers (m + 1) (none, none) [_, _] .closed = _
    rw [RecordFormat.readMembers_cons hroot, RecordFormat.readMembers_cons hfield]
    rfl
  rw [read, hformat]
  rfl

theorem legible_toValue {t : Tree} (h : ∀ v ∈ t.values, v.Legible) : t.toValue.Legible := by
  have helements : (Value.object
      (t.elements.map fun entry => (entry.1, entry.2.toValue))).Legible := by
    apply Value.legible_object
    · rw [Entries.Distinct, Entries.names_map]
      exact t.distinct
    · rw [List.forall_mem_map]
      exact fun entry hentry => Element.legible_toValue (legible_values h entry hentry)
  rw [toValue_eq]
  apply Value.legible_object
  · exact (by decide : ["root", "elements"].Nodup)
  · exact List.forall_mem_cons.2
      ⟨Value.legible_string _, List.forall_mem_singleton.2 helements⟩

/-- What is written is read again. -/
theorem ofText_pretty {t : Tree} (h : ∀ v ∈ t.values, v.Legible)
    (hdepth : t.toValue.depth ≤ maxNesting) : ofText t.pretty = .ok t := by
  have hstop : Stops [] := nofun
  have hdocument : Document.ofText (t.toValue.pretty ++ "") = ⟨Draft.ofValue t.toValue, false⟩ :=
    ofText_pretty_append (legible_toValue h) hstop tokens_nil
  rw [String.append_empty] at hdocument
  rw [ofText, readText, pretty, hdocument, read_toValue h hdepth]
  rfl

/-! ## What is read -/

/-- Where a document gives the elements of its tree: as the field of the name, or as the second item
of the fields in order. -/
inductive GivesElements : Draft → Draft → Prop
  | field {members : List (Option String × Draft)} {ending : Ending} {d : Draft}
      (h : (some "elements", d) ∈ members) : GivesElements (.object members ending) d
  | item {first d : Draft} {rest : List Draft} {ending : Ending} :
      GivesElements (.array (first :: d :: rest) ending) d

theorem eq_closed_of_reach {ending : Ending} (h : ending.reach = .ok ()) : ending = .closed := by
  cases ending with
  | closed => rfl
  | cut | afterComma => cases h

/-- The elements are those of the members, one by one and in their order. -/
theorem forall₂_of_readMembers {nesting : Nat} {earlier : List String}
    {members : List (Option String × Draft)} {ending : Ending}
    {elements : List (String × Element)}
    (h : readMembers nesting earlier members ending = .ok elements) :
    ending = .closed ∧ List.Forall₂ (fun member entry =>
      member.1 = some entry.1 ∧ Element.read nesting member.2 = .ok entry.2) members elements := by
  induction members generalizing earlier elements with
  | nil =>
    rw [readMembers] at h
    obtain ⟨hend, hnil⟩ := check_bind_ok_iff.1 h
    cases hnil
    exact ⟨eq_closed_of_reach hend, .nil⟩
  | cons member rest ih =>
    obtain ⟨name, d⟩ := member
    cases name with
    | none => cases h
    | some key =>
      rw [readMembers] at h
      obtain ⟨e, he, h⟩ := bind_ok_iff.1 h
      split at h
      · cases h
      · obtain ⟨others, hothers, h⟩ := bind_ok_iff.1 h
        cases h
        obtain ⟨hclosed, hrest⟩ := ih hothers
        exact ⟨hclosed, .cons ⟨rfl, he⟩ hrest⟩

section Record

variable {nesting : Nat} {record next : Option String ×
  Option {elements : List (String × Element) // Entries.Distinct elements}}

theorem field_elements {d : Draft} (h : format.field record "elements" nesting d = .ok next) :
    record.2 = none ∧ ∃ elements, readElements nesting d = .ok elements ∧
      next.2 = some elements := by
  obtain ⟨root, elements⟩ := record
  obtain ⟨slot, hslot, hnext⟩ := bind_ok_iff.1 h
  cases hnext
  cases elements with
  | some elements => cases hslot
  | none =>
    obtain ⟨elements, hread, hsome⟩ := map_ok_iff.1 hslot
    exact ⟨rfl, elements, hread, hsome.symm⟩

theorem field_of_ne {name : String} {d : Draft} (hne : name ≠ "elements")
    (h : format.field record name nesting d = .ok next) : next.2 = record.2 := by
  simp only [format] at h
  split at h
  · obtain ⟨root, -, hnext⟩ := bind_ok_iff.1 h
    cases hnext
    rfl
  · exact absurd rfl hne
  · obtain ⟨-, hnext⟩ := check_bind_ok_iff.1 h
    cases hnext
    rfl

/-- The elements are read from the one member of the name. -/
theorem elements_of_readMembers {members : List (Option String × Draft)} {ending : Ending}
    (h : format.readMembers nesting record members ending = .ok next) :
    (∀ d, (some "elements", d) ∈ members →
      ∃ elements, readElements nesting d = .ok elements ∧ next.2 = some elements) ∧
    ((∀ d, (some "elements", d) ∉ members) → next.2 = record.2) ∧
    (record.2 ≠ none → next.2 = record.2) := by
  induction members generalizing record with
  | nil =>
    rw [RecordFormat.readMembers] at h
    obtain ⟨-, hnext⟩ := check_bind_ok_iff.1 h
    cases hnext
    exact ⟨fun _ hmem => (List.not_mem_nil hmem).elim, fun _ => rfl, fun _ => rfl⟩
  | cons member rest ih =>
    obtain ⟨name, d⟩ := member
    cases name with
    | none => cases h
    | some name =>
      rw [RecordFormat.readMembers] at h
      obtain ⟨middle, hfield, h⟩ := bind_ok_iff.1 h
      obtain ⟨hmem, habsent, hkept⟩ := ih h
      by_cases hname : name = "elements"
      · subst hname
        obtain ⟨hnone, elements, hread, hmiddle⟩ := field_elements hfield
        have hnext : next.2 = some elements := by
          rw [hkept (by rw [hmiddle]; exact Option.some_ne_none elements), hmiddle]
        refine ⟨fun other hother => ?_, fun hnot => ?_, fun hsome => absurd hnone hsome⟩
        · rcases List.mem_cons.1 hother with heq | hother
          · cases heq
            exact ⟨elements, hread, hnext⟩
          · exact hmem other hother
        · exact absurd List.mem_cons_self (hnot d)
      · have hmiddle := field_of_ne hname hfield
        refine ⟨fun other hother => ?_, fun hnot => ?_, fun hsome => ?_⟩
        · rcases List.mem_cons.1 hother with heq | hother
          · cases heq
            exact absurd rfl hname
          · exact hmem other hother
        · rw [habsent fun other hother => hnot other (List.mem_cons_of_mem _ hother), hmiddle]
        · rw [hkept (by rwa [hmiddle]), hmiddle]

/-- In order, the elements are read from the second item. -/
theorem elements_of_readInOrder {items : List Draft} {ending : Ending}
    (h : format.readInOrder nesting 0 (none, none) ["root", "elements"] items ending =
      .ok next) :
    ∃ first d rest elements, items = first :: d :: rest ∧ readElements nesting d = .ok elements ∧
      next.2 = some elements := by
  cases items with
  | nil =>
    obtain ⟨-, h⟩ := check_bind_ok_iff.1 h
    cases h
  | cons first items =>
    obtain ⟨record, -, h⟩ := bind_ok_iff.1 h
    cases items with
    | nil =>
      obtain ⟨-, h⟩ := check_bind_ok_iff.1 h
      cases h
    | cons d rest =>
      obtain ⟨last, hfield, h⟩ := bind_ok_iff.1 h
      obtain ⟨-, elements, hread, hlast⟩ := field_elements hfield
      cases rest with
      | cons => cases h
      | nil =>
        obtain ⟨-, hnext⟩ := check_bind_ok_iff.1 h
        cases hnext
        exact ⟨first, d, [], elements, rfl, hread, hlast⟩

end Record

/-- A tree that was read was read from what its document gives as the elements. -/
theorem readElements_of_read {nesting : Nat} {body : Draft} {t : Tree}
    (h : read (nesting + 1) body = .ok t) :
    (∃ d, GivesElements body d) ∧
      ∀ d, GivesElements body d → readElements nesting d = .ok ⟨t.elements, t.distinct⟩ := by
  obtain ⟨⟨root, slot⟩, hformat, h⟩ := bind_ok_iff.1 h
  obtain ⟨name, -, h⟩ := bind_ok_iff.1 h
  obtain ⟨elements, hslot, h⟩ := bind_ok_iff.1 h
  cases h
  obtain rfl : slot = some elements := by
    cases slot with
    | none => cases hslot
    | some found =>
      cases hslot
      rfl
  cases body with
  | object members ending =>
    obtain ⟨hmem, habsent, -⟩ := elements_of_readMembers hformat
    constructor
    · by_contra hnone
      have hnot (d : Draft) (hd : (some "elements", d) ∈ members) : False :=
        hnone ⟨d, .field hd⟩
      cases habsent hnot
    · intro d hd
      cases hd with
      | field hd =>
        obtain ⟨found, hread, hfound⟩ := hmem d hd
        cases hfound
        exact hread
  | array items ending =>
    obtain ⟨first, d, rest, found, rfl, hread, hfound⟩ := elements_of_readInOrder hformat
    cases hfound
    constructor
    · exact ⟨d, .item⟩
    · intro d hd
      cases hd
      exact hread
  | _ => cases hformat

/-- Which document a tree comes from: its elements are those of the document, one by one and in their
order. -/
theorem elements_of_ofText {text : String} {t : Tree} (h : ofText text = .ok t) :
    (∃ d, GivesElements (Document.ofText text).body d) ∧
      ∀ d, GivesElements (Document.ofText text).body d → ∃ members,
        d = .object members .closed ∧ List.Forall₂ (fun member entry =>
          member.1 = some entry.1 ∧
            Element.read (maxNesting - 2) member.2 = .ok entry.2) members t.elements := by
  obtain ⟨found, hread, h⟩ := bind_ok_iff.1 h
  split at h
  · cases h
  · cases h
    obtain ⟨hexists, helements⟩ := readElements_of_read hread
    refine ⟨hexists, fun d hd => ?_⟩
    obtain ⟨n, members, ending, hn, rfl, hmembers⟩ :=
      exists_readMembers_of_readElements (helements d hd)
    cases hn
    obtain ⟨rfl, hforall⟩ := forall₂_of_readMembers hmembers
    exact ⟨members, rfl, hforall⟩

theorem names_of_forall₂ {nesting : Nat} {members : List (Option String × Draft)}
    {elements : List (String × Element)}
    (h : List.Forall₂ (fun member entry =>
      member.1 = some entry.1 ∧ Element.read nesting member.2 = .ok entry.2) members elements) :
    members.map (·.1) = (Entries.names elements).map some := by
  induction h with
  | nil => rfl
  | cons hfirst _ ih =>
    rw [List.map_cons, hfirst.1, ih]
    rfl

/-- The exchange format of trees. A tree that is written is read again, with its elements in their
order, whether it is valid or not. Reading any text gives a tree only with the elements of the
document, in the order of the document, and never from elements in which a key stands twice. -/
theorem exchange_faithful :
    (∀ t : Tree, (∀ v ∈ t.values, v.Legible) → t.toValue.depth ≤ maxNesting →
      ofText t.pretty = .ok t) ∧
    (∀ text t, ofText text = .ok t → (∃ d, GivesElements (Document.ofText text).body d) ∧
      ∀ d, GivesElements (Document.ofText text).body d → ∃ members,
        d = .object members .closed ∧ List.Forall₂ (fun member entry =>
          member.1 = some entry.1 ∧
            Element.read (maxNesting - 2) member.2 = .ok entry.2) members t.elements) ∧
    (∀ text members ending, GivesElements (Document.ofText text).body (.object members ending) →
      ¬ (members.map (·.1)).Nodup → ∀ t, ofText text ≠ .ok t) := by
  refine ⟨fun t => ofText_pretty, fun text t => elements_of_ofText,
    fun text members ending hgives hrepeated t h => ?_⟩
  obtain ⟨members', heq, hforall⟩ := (elements_of_ofText h).2 _ hgives
  cases heq
  apply hrepeated
  rw [names_of_forall₂ hforall]
  exact t.distinct.map (Option.some_injective String)

end Tree

namespace Sample

/-- A tree that is far from valid: a card that lists one key twice, and another element under a key
that is not its own. -/
def unsound : Tree where
  root := "card"
  elements := [
    ("card", ⟨"card", "Card", .object [("rows", .number (.int 3))], ["list", "list"], none,
      some (.not (.any [.present "/user", .differs "server" .null, .all []]))⟩),
    ("list", ⟨"other", "", .null, [], some "nowhere", none⟩)]
  distinct := by decide

theorem legible_unsound : ∀ v ∈ unsound.values, v.Legible := by
  have hrows : (Value.object [("rows", .number (.int 3))]).Legible :=
    Value.legible_singleton "rows" ⟨(by decide : Number.InRange 3), trivial⟩
  exact List.forall_mem_cons.2 ⟨hrows, List.forall_mem_cons.2 ⟨Value.legible_null,
    List.forall_mem_cons.2 ⟨Value.legible_null, nofun⟩⟩⟩

end Sample

/-- The unsound tree is read again as it is. -/
theorem Tree.exchange_faithful_unsound :
    (∀ v ∈ Sample.unsound.values, v.Legible) ∧ Sample.unsound.toValue.depth ≤ maxNesting ∧
      Tree.ofText Sample.unsound.pretty = .ok Sample.unsound := by
  have hdepth : Sample.unsound.toValue.depth ≤ maxNesting := by decide
  exact ⟨Sample.legible_unsound, hdepth,
    exchange_faithful.1 Sample.unsound Sample.legible_unsound hdepth⟩

end CatalogUi
