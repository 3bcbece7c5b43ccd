import CatalogUi.Activation
import CatalogUi.Proofs.Rendition

/-!
Which elements can be activated. An activation goes up from the element, and a render pass comes
down from the root; they agree about what is hidden, because in a validated tree what is met on the
way up is what stands above.
-/

namespace CatalogUi.ValidatedTree

variable {v : ValidatedTree} {data : Value}

/-- An element can be seen when it is shown and everything above it is. -/
theorem isVisible_iff (hv : v.Sound) {key : String} (hkey : key ∈ v.keys) :
    v.isVisible key data = true ↔ v.shows data key = true ∧ Rendering.Exposed v data key := by
  rw [isVisible, List.all_eq_true]
  constructor
  · intro h
    have hreached (above : String) (n : Node) (hn : v.node? above = some n)
        (hreach : v.links.Reaches above key) : v.shows data above = true := by
      rw [shows_of_node? hn]
      exact h n ((hv.mem_lineage_iff key hkey n).2 ⟨above, hreach, hn⟩)
    obtain ⟨n, hn⟩ := mem_keys_iff.1 hkey
    refine ⟨hreached key n hn .refl, fun above habove => ?_⟩
    obtain ⟨child, hlists, -⟩ := Relation.TransGen.head'_iff.1 habove
    obtain ⟨m, hm, -⟩ := lists_iff.1 hlists
    exact hreached above m hm habove.to_reflTransGen
  · rintro ⟨hshown, hexposed⟩ n hmem
    obtain ⟨above, hreach, hn⟩ := (hv.mem_lineage_iff key hkey n).1 hmem
    rw [← shows_of_node? hn]
    rcases Relation.reflTransGen_iff_eq_or_transGen.1 hreach with rfl | habove
    · exact hshown
    · exact hexposed above habove

/-- The elements that cannot be seen are those that a pass leaves hidden or pending. -/
theorem isVisible_eq_false_iff (hv : v.Sound) {O : Type} {registry : VerifiedRegistry O}
    {key : String} (hkey : key ∈ v.keys) {state : NodeState}
    (h : Rendering.Settles v registry data key state) :
    v.isVisible key data = false ↔ state = .hidden ∨ state = .pending := by
  rw [← Bool.not_eq_true, isVisible_iff hv hkey, h.eq_hidden_iff, h.eq_pending_iff]
  constructor
  · intro hnot
    by_cases hexposed : Rendering.Exposed v data key
    · exact Or.inl ⟨Bool.eq_false_iff.2 fun hshown => hnot ⟨hshown, hexposed⟩, hexposed⟩
    · rw [Rendering.Exposed, not_forall] at hexposed
      obtain ⟨above, hhidden⟩ := hexposed
      rw [Classical.not_imp, Bool.not_eq_true] at hhidden
      exact Or.inr ⟨above, hhidden⟩
  · rintro (⟨hhidden, -⟩ | ⟨above, habove, hhidden⟩) ⟨hshown, hexposed⟩
    · cases hhidden.symm.trans hshown
    · cases hhidden.symm.trans (hexposed above habove)

variable {τ : Type} {catalog : Catalog} {config : Config} {handlers : Handlers τ}
  {params : Option Value}

/-- What cannot be seen is refused before anything else is looked at. -/
theorem invocation_of_hidden {key : String} (hkey : key ∈ v.keys)
    (hhidden : v.isVisible key data = false) :
    v.invocation catalog config data handlers key params = .error (.notEligible key) := by
  obtain ⟨n, hn⟩ := mem_keys_iff.1 hkey
  rw [invocation, hn]
  dsimp only
  rw [hhidden]
  rfl

/-- What can be seen is refused for other reasons only. -/
theorem invocation_ne_notEligible {key : String} (hvisible : v.isVisible key data = true)
    (other : String) :
    v.invocation catalog config data handlers key params ≠ .error (.notEligible other) := by
  intro h
  rw [invocation, hvisible, Bool.not_true] at h
  split at h
  · cases h
  rw [if_neg Bool.false_ne_true] at h
  split at h
  · cases h
  split at h
  · cases h
  split at h
  · cases h
  split at h
  · cases h
  · cases h

/-- An activation ends as its invocation does, when there is no call. -/
theorem activate_of_error {key : String} {memory : τ} {e : ActivationError}
    (h : v.invocation catalog config data handlers key params = .error e) :
    v.activate catalog config data handlers key params memory = (.error e, memory) := by
  rw [activate, h]

/-- A call that fails is not refused as not eligible. -/
theorem activate_ne_notEligible {key : String} {memory : τ}
    (hvisible : v.isVisible key data = true) (other : String) :
    (v.activate catalog config data handlers key params memory).1 ≠
      .error (.notEligible other) := by
  cases hcall : v.invocation catalog config data handlers key params with
  | error e =>
    rw [activate_of_error hcall]
    intro h
    cases h
    exact invocation_ne_notEligible hvisible other hcall
  | ok call =>
    rw [activate, hcall]
    dsimp only
    split
    · exact nofun
    · exact nofun

end CatalogUi.ValidatedTree

namespace CatalogUi

/-- What a render pass leaves hidden or pending is just what is refused as not eligible, and what it
has bound or rendered is not. A refusal leaves the memory of the handlers alone. -/
theorem ValidatedTree.activate_notEligible_iff {t : Tree} {catalog : Catalog} {config : Config}
    {v : ValidatedTree} (hvalid : t.validate catalog config = .ok v) {key : String}
    (hkey : key ∈ v.keys) {O σ τ : Type} (registry : VerifiedRegistry O) (store : Store σ)
    (catalog' : Catalog) (config' : Config) (handlers : Handlers τ) (params : Option Value)
    (memory : τ) :
    ((v.activate catalog' config' store.data handlers key params memory).1 =
        .error (.notEligible key) ↔
      (v.render registry store).state? key = some .hidden ∨
        (v.render registry store).state? key = some .pending) ∧
    ((v.render registry store).state? key = some .hidden ∨
        (v.render registry store).state? key = some .pending →
      v.activate catalog' config' store.data handlers key params memory =
        (.error (.notEligible key), memory)) ∧
    ((v.render registry store).state? key = some .bound ∨
        (v.render registry store).state? key = some .rendered →
      ∀ other, (v.activate catalog' config' store.data handlers key params memory).1 ≠
        .error (.notEligible other)) := by
  have hv := Tree.sound_of_validate hvalid
  obtain ⟨state, hstate, hsettles⟩ := Rendering.exists_settled hv hkey registry store
  have hhidden := isVisible_eq_false_iff hv hkey hsettles
  have hrefused (hnot : v.isVisible key store.data = false) :
      v.activate catalog' config' store.data handlers key params memory =
        (.error (.notEligible key), memory) :=
    activate_of_error (invocation_of_hidden hkey hnot)
  simp only [hstate, Option.some.injEq, ← hhidden]
  refine ⟨⟨fun h => ?_, fun hnot => ?_⟩, hrefused, fun hdone => ?_⟩
  · rw [← Bool.not_eq_true]
    exact fun hvisible => activate_ne_notEligible hvisible key h
  · rw [hrefused hnot]
  · have hvisible : v.isVisible key store.data = true := by
      rw [← Bool.not_eq_false, hhidden]
      rcases hdone with rfl | rfl <;> exact nofun
    exact activate_ne_notEligible hvisible

/-- The button in the closed side box of the page cannot be activated. -/
theorem ValidatedTree.activate_notEligible_page :
    Sample.tree.validate Sample.catalog Config.default = .ok Sample.page ∧
      "send" ∈ Sample.page.keys ∧
      (Sample.page.render Sample.verified Sample.closed).state? "send" = some .pending ∧
      Sample.page.activate Sample.catalog Config.default Sample.closed.data
          (Handlers.empty : Handlers Unit) "send" none () =
        (.error (.notEligible "send"), ()) := by
  have hkey : "send" ∈ Sample.page.keys := by decide
  obtain ⟨state, hpending, hsettles⟩ := Rendering.exists_settled
    (Tree.sound_of_validate Sample.validate_tree) hkey Sample.verified Sample.closed
  -- The box in front of the button is closed.
  have hlists : Sample.page.links.Lists "side" "send" := ⟨["send"], rfl, List.mem_cons_self⟩
  obtain rfl : state = .pending := hsettles.eq_pending_iff.2 ⟨"side", .single hlists, rfl⟩
  obtain ⟨-, hrefused, -⟩ := activate_notEligible_iff Sample.validate_tree hkey Sample.verified
    Sample.closed Sample.catalog Config.default (Handlers.empty : Handlers Unit) none ()
  exact ⟨Sample.validate_tree, hkey, hpending, hrefused (Or.inr hpending)⟩

end CatalogUi
