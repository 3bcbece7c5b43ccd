import CatalogUi.LiveView
import CatalogUi.Proofs.History

/-!
Boards of marks, and what a write does to one. Besides the listeners of views there may be others,
which know nothing of marks. When all of them are told of a write, the listeners of views whose marks
are on the board set these marks and stay, and those whose marks are gone leave.
-/

namespace CatalogUi

namespace Board

variable {σ : Type} {b b' b'' : Board σ} {m m' : MarkId} {stale : Bool} {next : Nat}
  {id : ListenerId} {listener : Listener (Board σ)} {p : Path} {v : Value}
  {listeners : List (ListenerId × Listener (Board σ))}

/-- A listener that knows nothing of marks. -/
def lifted (listen : Listener σ) : Listener (Board σ) := fun p v b =>
  let called := listen p v b.rest
  (called.1, { b with rest := called.2 })

/-! ## Marks -/

theorem mark?_set : (b.set m stale).mark? m' =
    if m' = m then (b.mark? m').map fun _ => stale else b.mark? m' := by
  have hids : ((fun entry => decide (entry.1 = m')) ∘ fun entry : MarkId × Bool =>
      if entry.1 = m then (entry.1, stale) else entry) = fun entry => decide (entry.1 = m') := by
    funext entry
    dsimp only [Function.comp]
    split <;> rfl
  rw [mark?, mark?, set, List.find?_map, hids]
  cases h : b.marks.find? (·.1 = m') with
  | none => split <;> rfl
  | some entry =>
    have hid : entry.1 = m' := by simpa using List.find?_some h
    subst hid
    split <;> simp [*]

theorem mark?_set_self (h : (b.mark? m).isSome) : (b.set m stale).mark? m = some stale := by
  obtain ⟨old, hold⟩ := Option.isSome_iff_exists.1 h
  rw [mark?_set, if_pos rfl, hold, Option.map_some]

theorem isSome_mark?_set : ((b.set m stale).mark? m').isSome = (b.mark? m').isSome := by
  rw [mark?_set]
  split
  · rw [Option.isSome_map]
  · rfl

theorem mark?_remove : (b.remove m).mark? m' = if m' = m then none else b.mark? m' := by
  rw [mark?, mark?, remove, List.find?_filter]
  split
  · subst m
    rw [List.find?_eq_none.2 (by simp), Option.map_none]
  · have hkept (entry : MarkId × Bool) :
        (decide (entry.1 ≠ m) = true ∧ decide (entry.1 = m') = true) ↔ entry.1 = m' := by
      by_cases h : entry.1 = m' <;> simp [*]
    simp only [hkept]

theorem mark?_add : b.add.2.mark? m =
    (b.mark? m).or (if m = b.add.1 then some true else none) := by
  rw [mark?, mark?, add, List.find?_append]
  cases b.marks.find? (·.1 = m) with
  | some entry => rfl
  | none =>
    by_cases h : m = ⟨b.nextMark⟩ <;> simp [h, eq_comm]

/-! ## Telling listeners of a write -/

/-- The same marks are on the board, and some that did not say stale do now. -/
structure Raised (b b' : Board σ) : Prop where
  nextMark_eq : b'.nextMark = b.nextMark
  isSome_eq : ∀ m, (b'.mark? m).isSome = (b.mark? m).isSome
  still : ∀ m, b.mark? m = some true → b'.mark? m = some true

/-- The listeners there are: those of views, and those that know nothing of marks. -/
inductive Polite (b : Board σ) : Listener (Board σ) → Prop
  | view (m : MarkId) (h : m.number < b.nextMark) : Polite b (Board.listener m)
  | lifted (listen : Listener σ) : Polite b (lifted listen)

/-- What telling listeners of a write comes to: which of them stay, and how they leave the board. -/
structure Told (b : Board σ) (listeners : List (ListenerId × Listener (Board σ)))
    (told : List (ListenerId × Listener (Board σ)) × Board σ) : Prop where
  raised : Raised b told.2
  sublist : told.1.Sublist listeners
  stays : ∀ id m, (id, Board.listener m) ∈ listeners → (b.mark? m).isSome →
    (id, Board.listener m) ∈ told.1 ∧ told.2.mark? m = some true
  leaves : ∀ id m, (id, Board.listener m) ∈ told.1 → (b.mark? m).isSome

theorem Raised.refl (b : Board σ) : Raised b b := ⟨rfl, fun _ => rfl, fun _ h => h⟩

theorem Raised.trans (h : Raised b b') (h' : Raised b' b'') : Raised b b'' where
  nextMark_eq := h'.nextMark_eq.trans h.nextMark_eq
  isSome_eq m := (h'.isSome_eq m).trans (h.isSome_eq m)
  still m hm := h'.still m (h.still m hm)

theorem raised_set (b : Board σ) (m : MarkId) : Raised b (b.set m true) where
  nextMark_eq := rfl
  isSome_eq _ := isSome_mark?_set
  still m' h := by
    rw [mark?_set, h]
    split <;> rfl

theorem listener_eq_of_isSome (h : (b.mark? m).isSome) :
    Board.listener m p v b = (true, b.set m true) := if_pos h

theorem listener_eq_of_none (h : b.mark? m = none) : Board.listener m p v b = (false, b) := by
  rw [listener, h]
  rfl

theorem isSome_of_stays (h : (Board.listener m p v b).1 = true) : (b.mark? m).isSome := by
  cases hm : b.mark? m with
  | some stale => rfl
  | none =>
    rw [listener_eq_of_none hm] at h
    cases h

theorem Polite.raised (h : Polite b listener) : Raised b (listener p v b).2 := by
  cases h with
  | view m _ =>
    cases hm : b.mark? m with
    | some stale =>
      rw [listener_eq_of_isSome (hm ▸ rfl)]
      exact raised_set b m
    | none =>
      rw [listener_eq_of_none hm]
      exact .refl b
  | lifted listen => exact ⟨rfl, fun _ => rfl, fun _ h => h⟩

theorem Polite.of_nextMark (h : Polite b listener) (hb : b.nextMark ≤ b'.nextMark) :
    Polite b' listener := by
  cases h with
  | view m hm => exact .view m (Nat.lt_of_lt_of_le hm hb)
  | lifted listen => exact .lifted listen

theorem told_notify (hpolite : ∀ entry ∈ listeners, Polite b entry.2) :
    Told b listeners (Store.notify p v listeners b) := by
  induction listeners generalizing b with
  | nil => exact ⟨.refl b, .refl _, nofun, nofun⟩
  | cons entry rest ih =>
    obtain ⟨id, listener⟩ := entry
    obtain ⟨hfirst, hrest⟩ := List.forall_mem_cons.1 hpolite
    have hraised : Raised b (listener p v b).2 := hfirst.raised
    -- The others are told with the board as the first one leaves it, which has the same marks.
    have htold := ih fun entry hmem =>
      (hrest entry hmem).of_nextMark (Nat.le_of_eq hraised.nextMark_eq.symm)
    rw [Store.notify]
    constructor
    case raised => exact hraised.trans htold.raised
    case sublist =>
      dsimp only
      split
      · exact htold.sublist.cons_cons _
      · exact htold.sublist.cons _
    case stays =>
      intro id' m hmem hm
      dsimp only
      rcases List.mem_cons.1 hmem with heq | hmem
      · cases heq
        rw [listener_eq_of_isSome hm] at htold ⊢
        exact ⟨List.mem_cons_self, htold.raised.still m (mark?_set_self hm)⟩
      · obtain ⟨hthere, htrue⟩ := htold.stays id' m hmem (hraised.isSome_eq m ▸ hm)
        refine ⟨?_, htrue⟩
        split
        · exact List.mem_cons_of_mem _ hthere
        · exact hthere
    case leaves =>
      intro id' m hmem
      dsimp only at hmem
      have hlater (h : (id', Board.listener m) ∈ (Store.notify p v rest (listener p v b).2).1) :
          (b.mark? m).isSome := hraised.isSome_eq m ▸ htold.leaves id' m h
      split at hmem
      case isTrue hagain =>
        rcases List.mem_cons.1 hmem with heq | hmem
        · cases heq
          exact isSome_of_stays hagain
        · exact hlater hmem
      case isFalse => exact hlater hmem

end Board

end CatalogUi
