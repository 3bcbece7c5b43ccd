import Mathlib.Data.List.Basic

/-!
Texts that show where they end. What stands in front of the first place of a separator is told by the
whole text, and so are things that are written one after the other when each of them shows its end,
if their number is known or something stands behind them that cannot be taken for one more.
-/

namespace CatalogUi.Text

/-! ## Separators -/

/-- A list is cut in one way only at the first place of an item. -/
theorem append_cons_inj {α : Type} {c : α} {left right rest rest' : List α} (hleft : c ∉ left)
    (hright : c ∉ right) (h : left ++ c :: rest = right ++ c :: rest') :
    left = right ∧ rest = rest' := by
  induction left generalizing right with
  | nil =>
    cases right with
    | nil => exact ⟨rfl, (List.cons.inj h).2⟩
    | cons d right => exact absurd ((List.cons.inj h).1 ▸ List.mem_cons_self) hright
  | cons d left ih =>
    cases right with
    | nil => exact absurd ((List.cons.inj h).1 ▸ List.mem_cons_self) hleft
    | cons e right =>
      obtain ⟨rfl, htail⟩ := List.cons.inj h
      obtain ⟨rfl, hrest⟩ := ih (List.not_mem_of_not_mem_cons hleft)
        (List.not_mem_of_not_mem_cons hright) htail
      exact ⟨rfl, hrest⟩

variable {c : Char} {separator rest rest' : String}

/-- A text without the first character of a separator ends where the separator stands. -/
theorem append_separator_inj {left right : String} (hseparator : separator.toList.head? = some c)
    (hleft : c ∉ left.toList) (hright : c ∉ right.toList)
    (h : left ++ (separator ++ rest) = right ++ (separator ++ rest')) :
    left = right ∧ rest = rest' := by
  obtain ⟨more, hmore⟩ := List.head?_eq_some_iff.1 hseparator
  have hchars := congrArg String.toList h
  simp only [String.toList_append, hmore, List.cons_append] at hchars
  obtain ⟨hfront, hback⟩ := append_cons_inj hleft hright hchars
  exact ⟨String.toList_injective hfront,
    String.toList_injective (List.append_cancel_left hback)⟩

/-- A number ends where something stands that is no digit. -/
theorem toString_separator_inj {m n : Nat} (hseparator : separator.toList.head? = some c)
    (hc : c.isDigit = false)
    (h : toString m ++ (separator ++ rest) = toString n ++ (separator ++ rest')) :
    m = n ∧ rest = rest' := by
  have hdigits (k : Nat) : (toString k).toList = Nat.toDigits 10 k := Nat.toList_repr
  have hmem (k : Nat) : c ∉ (toString k).toList := by
    intro hmem
    rw [hdigits] at hmem
    rw [Nat.isDigit_of_mem_toDigits (by decide) (by decide) hmem] at hc
    cases hc
  obtain ⟨hnumber, hrest⟩ := append_separator_inj hseparator (hmem m) (hmem n) h
  have hvalue := congrArg (fun k => Nat.ofDigitChars 10 (String.toList k) 0) hnumber
  simp only [hdigits, Nat.ofDigitChars_ten_toDigits] at hvalue
  exact ⟨hvalue, hrest⟩

/-! ## One thing after the other -/

variable {α β : Type} {P : α → Prop} {text : α → String} {trait : α → β}

/-- Whatever follows, the text of a thing shows a trait of it and where it ends, when the thing meets a
condition. -/
def Delimits (P : α → Prop) (text : α → String) (trait : α → β) : Prop :=
  ∀ {a b : α}, P a → P b → ∀ {rest rest' : String}, text a ++ rest = text b ++ rest' →
    trait a = trait b ∧ rest = rest'

namespace Delimits

/-- Texts in a row show the traits, when it is known how many there are. -/
theorem join (h : Delimits P text trait) {as bs : List α} (has : ∀ a ∈ as, P a)
    (hbs : ∀ b ∈ bs, P b) (hlength : as.length = bs.length)
    (heq : String.join (as.map text) ++ rest = String.join (bs.map text) ++ rest') :
    as.map trait = bs.map trait ∧ rest = rest' := by
  induction as generalizing bs with
  | nil =>
    cases List.length_eq_zero_iff.1 hlength.symm
    exact ⟨rfl, (String.append_right_inj _).1 heq⟩
  | cons a as ih =>
    obtain ⟨b, bs, rfl⟩ := List.exists_cons_of_length_eq_add_one hlength.symm
    obtain ⟨ha, has⟩ := List.forall_mem_cons.1 has
    obtain ⟨hb, hbs⟩ := List.forall_mem_cons.1 hbs
    simp only [List.map_cons, String.join_cons, String.append_assoc] at heq
    obtain ⟨htrait, htail⟩ := h ha hb heq
    obtain ⟨htraits, hrest⟩ := ih has hbs (Nat.succ.inj hlength) htail
    exact ⟨congrArg₂ List.cons htrait htraits, hrest⟩

/-- Texts in a row show the traits up to something that is not the beginning of one more text. -/
theorem join_until (h : Delimits P text trait) {stop : String}
    (hstop : ∀ a, P a → ∀ rest rest', text a ++ rest ≠ stop ++ rest') {as bs : List α}
    (has : ∀ a ∈ as, P a) (hbs : ∀ b ∈ bs, P b)
    (heq : String.join (as.map text) ++ (stop ++ rest) =
      String.join (bs.map text) ++ (stop ++ rest')) :
    as.map trait = bs.map trait ∧ rest = rest' := by
  induction as generalizing bs with
  | nil =>
    cases bs with
    | nil => exact ⟨rfl, by simpa using heq⟩
    | cons b bs =>
      simp only [List.map_nil, String.join_nil, String.empty_append, List.map_cons,
        String.join_cons, String.append_assoc] at heq
      exact absurd heq.symm (hstop b (hbs b List.mem_cons_self) _ _)
  | cons a as ih =>
    obtain ⟨ha, has⟩ := List.forall_mem_cons.1 has
    cases bs with
    | nil =>
      simp only [List.map_nil, String.join_nil, String.empty_append, List.map_cons,
        String.join_cons, String.append_assoc] at heq
      exact absurd heq (hstop a ha _ _)
    | cons b bs =>
      obtain ⟨hb, hbs⟩ := List.forall_mem_cons.1 hbs
      simp only [List.map_cons, String.join_cons, String.append_assoc] at heq
      obtain ⟨htrait, htail⟩ := h ha hb heq
      obtain ⟨htraits, hrest⟩ := ih has hbs htail
      exact ⟨congrArg₂ List.cons htrait htraits, hrest⟩

end Delimits

end CatalogUi.Text
