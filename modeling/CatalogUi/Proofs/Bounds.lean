import CatalogUi.Proofs.Conformance
import CatalogUi.Proofs.Sameness

/-!
Bounds that are not finite. The one that is no number is the only bound that does not equal itself;
so a shape equals itself just when it has no such bound. All other bounds are in one order, and a
number can be found between two finite ones that are the right way round.
-/

namespace CatalogUi

theorem Double.le_refl (d : Double) : d ≤ d := Int.le_refl _

namespace Bound

variable {a b : Bound}

def IsFinite (b : Bound) : Prop := ∃ d, b = .finite d

theorem IsFinite.ne_nan (h : b.IsFinite) : b ≠ .nan := by
  obtain ⟨d, rfl⟩ := h
  nofun

theorem finite_le_finite_iff {a b : Double} : Bound.finite a ≤ Bound.finite b ↔ a ≤ b :=
  decide_eq_true_iff

theorem le_self_iff : b ≤ b ↔ b ≠ .nan := by
  cases b with
  | finite d => exact iff_of_true (finite_le_finite_iff.2 d.le_refl) nofun
  | infinite negative => cases negative <;> exact iff_of_true rfl nofun
  | nan => exact iff_of_false nofun fun h => h rfl

theorem same_self_iff : b.same b = true ↔ b ≠ .nan := by
  rw [same, Bool.and_self, decide_eq_true_iff, le_self_iff]

/-- Of two numbers one is at most the other. -/
theorem le_total (ha : a ≠ .nan) (hb : b ≠ .nan) : a ≤ b ∨ b ≤ a := by
  cases a with
  | nan => exact (ha rfl).elim
  | infinite negative =>
    cases b with
    | nan => exact (hb rfl).elim
    | finite => cases negative <;> simp [LE.le, le]
    | infinite negative' => cases negative <;> cases negative' <;> simp [LE.le, le]
  | finite d =>
    cases b with
    | nan => exact (hb rfl).elim
    | infinite negative => cases negative <;> simp [LE.le, le]
    | finite d' =>
      exact (Int.le_total d.place d'.place).imp finite_le_finite_iff.2 finite_le_finite_iff.2

theorem not_lt_iff (ha : a ≠ .nan) (hb : b ≠ .nan) : ¬ b < a ↔ a ≤ b := by
  constructor
  · intro h
    by_contra hle
    exact h ⟨(le_total ha hb).resolve_left hle, hle⟩
  · exact fun hle hlt => hlt.2 hle

end Bound

namespace Schema

variable {P : Bound → Prop} {s : Schema} {fields : List (String × Schema)}

mutual

/-- Every bound of a number in a shape is as demanded. -/
def EveryBound (P : Bound → Prop) : Schema → Prop
  | .number min max => (∀ bound ∈ min, P bound) ∧ ∀ bound ∈ max, P bound
  | .array items => EveryBound P items
  | .object fields => EveryBoundOfFields P fields
  | .optional inner _ => EveryBound P inner
  | .nullable inner => EveryBound P inner
  | _ => True

def EveryBoundOfFields (P : Bound → Prop) : List (String × Schema) → Prop
  | [] => True
  | (_, s) :: rest => EveryBound P s ∧ EveryBoundOfFields P rest

end

theorem everyBound_object_iff :
    (object fields).EveryBound P ↔ ∀ field ∈ fields, field.2.EveryBound P := by
  rw [EveryBound]
  induction fields with
  | nil => simp [EveryBoundOfFields]
  | cons field rest ih => simp [EveryBoundOfFields, ih]

theorem EveryBound.imp {Q : Bound → Prop} (h : s.EveryBound P) (hPQ : ∀ bound, P bound → Q bound) :
    s.EveryBound Q := by
  induction s using Schema.induct with
  | plain s hs =>
    cases s with
    | number min max =>
      exact ⟨fun bound hmem => hPQ bound (h.1 bound hmem), fun bound hmem => hPQ bound (h.2 bound hmem)⟩
    | string | boolean | oneOf | path => trivial
    | _ => exact hs.elim
  | array items ih => exact ih h
  | object fields ih =>
    rw [everyBound_object_iff] at h ⊢
    exact fun field hmem => ih field hmem (h field hmem)
  | optional inner default ih => exact ih h
  | nullable inner ih => exact ih h

/-! ## Equality -/

theorem sameIfAny_self_iff {α : Type} {same : α → α → Bool} {a : Option α} :
    sameIfAny same a a = true ↔ ∀ x ∈ a, same x x = true := by
  cases a <;> simp [sameIfAny]

/-- The induction is on the fields that are looked up, among fields that stay the same. -/
theorem sameFields_iff_of_get? {all : List (String × Schema)}
    (h : ∀ field ∈ fields, Entries.get? all field.1 = some field.2) :
    sameFields fields all = true ↔ ∀ field ∈ fields, field.2.same field.2 = true := by
  induction fields with
  | nil => simp [sameFields]
  | cons field rest ih =>
    obtain ⟨hfield, hrest⟩ := List.forall_mem_cons.1 h
    rw [sameFields, hfield, Bool.and_eq_true, ih hrest, List.forall_mem_cons]

/-- A shape equals itself just when none of its bounds is no number. -/
theorem same_self_iff (hw : s.WellFormed) : s.same s = true ↔ s.EveryBound (· ≠ .nan) := by
  induction s using Schema.induct with
  | plain s hs =>
    cases s with
    | number min max =>
      simp only [same, Bool.and_eq_true, sameIfAny_self_iff, Bound.same_self_iff, EveryBound]
    | string | boolean | path | oneOf => simp [same, EveryBound]
    | _ => exact hs.elim
  | array items ih => rw [same, ih hw, EveryBound]
  | object fields ih =>
    obtain ⟨hd, hfields⟩ := wellFormed_object_iff.1 hw
    rw [same, everyBound_object_iff, decide_eq_true rfl, Bool.true_and,
      sameFields_iff_of_get? fun _ hmem => hd.get?_of_mem hmem]
    exact forall₂_congr fun field hmem => ih field hmem (hfields field hmem)
  | optional inner default ih =>
    have hdefault : sameIfAny Value.same default default = true :=
      sameIfAny_self_iff.2 fun v hv => Value.same_refl v (hw.2 v hv)
    rw [same, hdefault, Bool.and_true, ih hw.1, EveryBound]
  | nullable inner ih => rw [same, ih hw, EveryBound]

end Schema

end CatalogUi
