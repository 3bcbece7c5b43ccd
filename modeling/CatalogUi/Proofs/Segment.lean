import CatalogUi.Path
import Mathlib.Data.Nat.Digits.Defs

/-!
Segments that are numbers. A number has one usual decimal only, so two segments that address the same
place of a sequence are equal.
-/

namespace CatalogUi.Segment

theorem digit_lt {c : Char} (h : c.isDigit = true) : c.toNat - '0'.toNat < 10 := by
  obtain ⟨-, hhigh⟩ := Char.isDigit_iff_toNat.1 h
  have hzero : '0'.toNat = 48 := rfl
  have hnine : '9'.toNat = 57 := rfl
  omega

/-- A digit is the decimal of its value. -/
theorem toDigits_digit {c : Char} (h : c.isDigit = true) :
    Nat.toDigits 10 (c.toNat - '0'.toNat) = [c] := by
  obtain ⟨hlow, -⟩ := Char.isDigit_iff_toNat.1 h
  have hzero : '0'.toNat = 48 := rfl
  have hchar : (c.toNat - '0'.toNat).digitChar = c := by
    apply Char.toNat_inj.1
    rw [Nat.toNat_digitChar_of_lt_ten (digit_lt h)]
    omega
  rw [Nat.toDigits_of_lt_base (digit_lt h), hchar]

/-- Digits that follow the decimal of a number that is not zero are those of a longer decimal. -/
theorem toDigits_foldl {n : Nat} (hn : 0 < n) {rest : List Char}
    (h : ∀ c ∈ rest, c.isDigit = true) :
    Nat.toDigits 10 (rest.foldl (fun n c => n * 10 + (c.toNat - '0'.toNat)) n) =
      Nat.toDigits 10 n ++ rest := by
  induction rest generalizing n with
  | nil => simp
  | cons c rest ih =>
    obtain ⟨hc, hrest⟩ := List.forall_mem_cons.1 h
    calc Nat.toDigits 10 ((c :: rest).foldl (fun n c => n * 10 + (c.toNat - '0'.toNat)) n)
      _ = Nat.toDigits 10 (10 * n + (c.toNat - '0'.toNat)) ++ rest := by
          rw [List.foldl_cons, ih (by omega) hrest, Nat.mul_comm n 10]
      _ = Nat.toDigits 10 n ++ [c] ++ rest := by
          rw [← Nat.toDigits_append_toDigits (by decide) hn (digit_lt hc), toDigits_digit hc]
      _ = Nat.toDigits 10 n ++ c :: rest := by simp

/-- The usual decimal of a number is the one that is written for it. -/
theorem toDigits_decimalValue {digits : List Char} (h : isCanonical digits = true) :
    Nat.toDigits 10 (decimalValue digits) = digits := by
  unfold isCanonical at h
  split at h
  · cases h
  · rfl
  · rename_i first rest _
    simp only [Bool.and_eq_true, decide_eq_true_eq, List.all_eq_true] at h
    obtain ⟨⟨hne, hfirst⟩, hrest⟩ := h
    have hpos : 0 < first.toNat - '0'.toNat := by
      apply Nat.pos_of_ne_zero
      intro hzero
      have hdigit := toDigits_digit hfirst
      rw [hzero] at hdigit
      exact hne (List.singleton_inj.1 hdigit).symm
    rw [decimalValue, List.foldl_cons, Nat.zero_mul, Nat.zero_add, toDigits_foldl hpos hrest,
      toDigits_digit hfirst, List.singleton_append]

theorem index?_eq_some_iff {s : Segment} {i : Nat} :
    s.index? = some i ↔ isCanonical s.name.toList = true ∧
      decimalValue s.name.toList < Nat.pow 2 64 ∧ decimalValue s.name.toList = i := by
  unfold index?
  simp [and_assoc]

/-- A place of a sequence is addressed by one segment only. -/
theorem eq_of_index?_eq {s t : Segment} {i : Nat} (hs : s.index? = some i)
    (ht : t.index? = some i) : s = t := by
  obtain ⟨hcanonical, -, hvalue⟩ := index?_eq_some_iff.1 hs
  obtain ⟨hcanonical', -, hvalue'⟩ := index?_eq_some_iff.1 ht
  have hdigits : s.name.toList = t.name.toList := by
    rw [← toDigits_decimalValue hcanonical, ← toDigits_decimalValue hcanonical', hvalue, hvalue']
  obtain ⟨name, _⟩ := s
  obtain ⟨name', _⟩ := t
  cases String.toList_inj.1 hdigits
  rfl

end CatalogUi.Segment
