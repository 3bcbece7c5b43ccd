import CatalogUi.Json.Token
import CatalogUi.Value.Printer
import Mathlib.Data.List.TakeWhile

/-!
Scanning what was written. A written string, and a written whole number that fits, are scanned as
the tokens that they are made of, whatever follows them. What follows a number must not go on with it.
-/

namespace CatalogUi.Json

/-! ## Blanks and punctuation -/

@[simp] theorem tokens_nil : tokens [] = [] := by rw [tokens]

theorem tokens_of_isBlank {c : Char} (h : isBlank c = true) (rest : List Char) :
    tokens (c :: rest) = tokens rest := by
  rw [tokens, if_pos h]

theorem tokens_of_scanToken {c : Char} {rest rest' : List Char} {t : Token}
    (h : isBlank c = false) (hscan : scanToken c rest = (t, rest')) :
    tokens (c :: rest) = t :: tokens rest' := by
  rw [tokens, h, hscan]
  rfl

theorem tokens_lineBreak (level : Nat) (rest : List Char) :
    tokens (Value.lineBreak level ++ rest) = tokens rest := by
  have hblanks (n : Nat) : tokens (List.replicate n ' ' ++ rest) = tokens rest := by
    induction n with
    | zero => rfl
    | succ n ih => rw [List.replicate_succ, List.cons_append, tokens_of_isBlank rfl, ih]
  rw [Value.lineBreak, List.cons_append, tokens_of_isBlank rfl, hblanks]

@[simp] theorem tokens_openArray (rest : List Char) :
    tokens ('[' :: rest) = .openArray :: tokens rest := tokens_of_scanToken rfl rfl

@[simp] theorem tokens_closeArray (rest : List Char) :
    tokens (']' :: rest) = .closeArray :: tokens rest := tokens_of_scanToken rfl rfl

@[simp] theorem tokens_openObject (rest : List Char) :
    tokens ('\x7b' :: rest) = .openObject :: tokens rest := tokens_of_scanToken rfl rfl

@[simp] theorem tokens_closeObject (rest : List Char) :
    tokens ('\x7d' :: rest) = .closeObject :: tokens rest := tokens_of_scanToken rfl rfl

@[simp] theorem tokens_comma (rest : List Char) :
    tokens (',' :: rest) = .comma :: tokens rest := tokens_of_scanToken rfl rfl

@[simp] theorem tokens_colon (rest : List Char) :
    tokens (':' :: rest) = .colon :: tokens rest := tokens_of_scanToken rfl rfl

theorem tokens_null (rest : List Char) :
    tokens (Value.compactText .null ++ rest) = .null :: tokens rest := by
  rw [Value.compactText]
  exact tokens_of_scanToken rfl rfl

theorem tokens_bool (b : Bool) (rest : List Char) :
    tokens (Value.compactText (.bool b) ++ rest) = .bool b :: tokens rest := by
  cases b with
  | true =>
    rw [Value.compactText]
    exact tokens_of_scanToken rfl rfl
  | false =>
    rw [Value.compactText]
    exact tokens_of_scanToken rfl rfl

/-! ## Strings -/

/-- What has been read of a string without surrogates. -/
def plainSpelling (reversed : List Char) : Spelling := ⟨reversed, true, none⟩

theorem push_plainSpelling (reversed : List Char) (c : Char) :
    (plainSpelling reversed).push c = plainSpelling (c :: reversed) := rfl

/-- Two digits in base sixteen spell a control character. -/
theorem hexUnit?_control : ∀ n < 32,
    hexUnit? '0' '0' (Nat.digitChar (n / 16)) (Nat.digitChar (n % 16)) = some n := by decide

theorem pushUnit_control (reversed : List Char) {c : Char} (hc : c.toNat < 32) :
    (plainSpelling reversed).pushUnit c.toNat = plainSpelling (c :: reversed) := by
  rw [Spelling.pushUnit, if_neg (by omega), if_neg (by omega), Char.ofNat_toNat,
    push_plainSpelling]

theorem scanString_escape (reversed : List Char) {letter c : Char} (hletter : letter ≠ 'u')
    (h : escape? letter = some c) (rest : List Char) :
    scanString (plainSpelling reversed) ('\\' :: letter :: rest) =
      scanString (plainSpelling (c :: reversed)) rest := by
  rw [scanString, h]
  · rfl
  · exact fun _ _ _ _ _ hu => absurd hu hletter
  · exact hletter

theorem scanString_raw (reversed : List Char) {c : Char} (hquote : c ≠ '"') (hslash : c ≠ '\\')
    (hc : 32 ≤ c.toNat) (rest : List Char) :
    scanString (plainSpelling reversed) (c :: rest) =
      scanString (plainSpelling (c :: reversed)) rest := by
  rw [scanString, if_neg (Nat.not_lt.2 hc), push_plainSpelling]
  · exact hquote
  all_goals simp [hslash]

/-- A written character is read as the character. -/
theorem scanString_escapedChar (reversed : List Char) (c : Char) (rest : List Char) :
    scanString (plainSpelling reversed) (Value.escapedChar c ++ rest) =
      scanString (plainSpelling (c :: reversed)) rest := by
  unfold Value.escapedChar
  split
  case h_8 =>
    split
    · rename_i hc
      simp only [List.cons_append, List.nil_append]
      rw [scanString, hexUnit?_control _ hc]
      dsimp only
      rw [pushUnit_control reversed hc]
    · rename_i hquote hslash _ _ _ _ _ hc
      exact scanString_raw reversed hquote hslash (Nat.le_of_not_lt hc) rest
  all_goals exact scanString_escape reversed (by decide) rfl rest

theorem scanString_escaped (reversed cs rest : List Char) :
    scanString (plainSpelling reversed) (cs.flatMap Value.escapedChar ++ '"' :: rest) =
      (.string (String.ofList (reversed.reverse ++ cs)), rest) := by
  induction cs generalizing reversed with
  | nil =>
    rw [List.flatMap_nil, List.nil_append, scanString, List.append_nil]
    rfl
  | cons c cs ih =>
    rw [List.flatMap_cons, List.append_assoc, scanString_escapedChar, ih, List.reverse_cons,
      List.append_assoc, List.singleton_append]

/-- A written string is read as the string. -/
theorem tokens_stringText (s : String) (rest : List Char) :
    tokens (Value.stringText s ++ rest) = .string s :: tokens rest := by
  have hscan : scanToken '"' (s.toList.flatMap Value.escapedChar ++ '"' :: rest) =
      (.string s, rest) := by
    have hscan := scanString_escaped [] s.toList rest
    rwa [List.reverse_nil, List.nil_append, String.ofList_toList] at hscan
  simp only [Value.stringText, List.cons_append, List.append_assoc, List.nil_append]
  exact tokens_of_scanToken rfl hscan

/-! ## Numbers -/

/-- What follows does not go on with a number. -/
def Stops (rest : List Char) : Prop :=
  ∀ c ∈ rest.head?, c.isDigit = false ∧ c ≠ '.' ∧ c ≠ 'e' ∧ c ≠ 'E'

/-- A number is read as itself where its text stands alone. -/
def ReadsBack (n : Number) : Prop := tokens n.text = [.number n]

instance (n : Number) : Decidable (ReadsBack n) := inferInstanceAs (Decidable (_ = _))

theorem takeWhile_isDigit_append (cs : List Char) {rest : List Char} (h : Stops rest) :
    (cs ++ rest).takeWhile Char.isDigit = cs.takeWhile Char.isDigit ∧
      (cs ++ rest).dropWhile Char.isDigit = cs.dropWhile Char.isDigit ++ rest := by
  induction cs with
  | nil =>
    cases rest with
    | nil => exact ⟨rfl, rfl⟩
    | cons c rest =>
      have hc := (h c rfl).1
      simp [hc]
  | cons c cs ih =>
    cases hc : c.isDigit with
    | true => simp [hc, ih.1, ih.2]
    | false => simp [hc]

/-- A scan that does not break off leaves what follows alone. -/
def Local (scan : List Char → Token × List Char) : Prop :=
  ∀ (n : Number) (cs rest : List Char), Stops rest → (scan cs).1 = .number n →
    scan (cs ++ rest) = (.number n, (scan cs).2 ++ rest)

/-- Digits must come; what is made of them depends on what follows. -/
theorem local_digits {f : List Char → List Char → Token × List Char} (hf : ∀ ds, Local (f ds)) :
    Local fun cs =>
      if (cs.takeWhile Char.isDigit).isEmpty then missingDigit cs
      else f (cs.takeWhile Char.isDigit) (cs.dropWhile Char.isDigit) := by
  intro n cs rest hrest h
  obtain ⟨htake, hdrop⟩ := takeWhile_isDigit_append cs hrest
  dsimp only at h ⊢
  rw [htake, hdrop]
  split at h
  · cases h
  · rename_i hdigits
    simp only [hdigits, Bool.false_eq_true, if_false]
    exact hf _ n _ rest hrest h

theorem local_token (t : Token) : Local fun rest => (t, rest) := by
  intro n cs rest _ h
  exact congrArg (·, cs ++ rest) h

/-- The digits of an exponent, behind its sign. -/
def exponentDigits (n : Numeral) (negative : Bool) (rest : List Char) : Token × List Char :=
  if (rest.takeWhile Char.isDigit).isEmpty then missingDigit rest
  else
    let size : Int := digitsValue (rest.takeWhile Char.isDigit)
    (numeralToken { n with exponent := some (if negative then -size else size) },
      rest.dropWhile Char.isDigit)

/-- An exponent, behind its letter. -/
def signedExponent (n : Numeral) (rest : List Char) : Token × List Char :=
  match rest with
  | '+' :: rest => exponentDigits n false rest
  | '-' :: rest => exponentDigits n true rest
  | rest => exponentDigits n false rest

theorem scanExponent_eq (n : Numeral) (rest : List Char) :
    scanExponent n rest =
      match rest with
      | 'e' :: rest => signedExponent n rest
      | 'E' :: rest => signedExponent n rest
      | rest => (numeralToken n, rest) := rfl

theorem local_exponentDigits (n : Numeral) (negative : Bool) : Local (exponentDigits n negative) :=
  local_digits fun ds => local_token
    (numeralToken { n with exponent := some (if negative then -(digitsValue ds : Int)
      else digitsValue ds) })

theorem local_signedExponent (n : Numeral) : Local (signedExponent n) := by
  intro m cs rest hrest h
  cases cs with
  | nil => cases h
  | cons c cs =>
    by_cases hplus : c = '+'
    · subst hplus
      exact local_exponentDigits n false m cs rest hrest h
    by_cases hminus : c = '-'
    · subst hminus
      exact local_exponentDigits n true m cs rest hrest h
    have hunsigned (ds : List Char) :
        signedExponent n (c :: ds) = exponentDigits n false (c :: ds) := by
      unfold signedExponent
      split <;> simp_all
    rw [List.cons_append, hunsigned]
    rw [hunsigned] at h ⊢
    exact local_exponentDigits n false m (c :: cs) rest hrest h

theorem scanExponent_of_stops (n : Numeral) {rest : List Char} (h : Stops rest) :
    scanExponent n rest = (numeralToken n, rest) := by
  rw [scanExponent_eq]
  split
  · exact absurd rfl (h _ rfl).2.2.1
  · exact absurd rfl (h _ rfl).2.2.2
  · rfl

theorem local_scanExponent (n : Numeral) : Local (scanExponent n) := by
  intro m cs rest hrest h
  cases cs with
  | nil =>
    rw [List.nil_append, scanExponent_of_stops n hrest]
    exact congrArg (·, rest) h
  | cons c cs =>
    by_cases hlower : c = 'e'
    · subst hlower
      exact local_signedExponent n m cs rest hrest h
    by_cases hupper : c = 'E'
    · subst hupper
      exact local_signedExponent n m cs rest hrest h
    have hnone (ds : List Char) : scanExponent n (c :: ds) = (numeralToken n, c :: ds) := by
      rw [scanExponent_eq]
      split <;> simp_all
    rw [List.cons_append, hnone]
    rw [hnone] at h ⊢
    exact congrArg (·, c :: cs ++ rest) h

theorem local_scanFraction (negative : Bool) (whole : List Char) :
    Local (scanFraction negative whole) := by
  intro m cs rest hrest h
  cases cs with
  | nil =>
    have hstop : scanFraction negative whole rest =
        scanExponent ⟨negative, whole, [], none⟩ rest := by
      unfold scanFraction
      split
      · exact absurd rfl (hrest _ rfl).2.1
      · rfl
    rw [List.nil_append, hstop]
    exact local_scanExponent _ m [] rest hrest h
  | cons c cs =>
    by_cases hpoint : c = '.'
    · subst hpoint
      exact local_digits (fun ds => local_scanExponent ⟨negative, whole, ds, none⟩) m cs rest
        hrest h
    have hnone (ds : List Char) : scanFraction negative whole (c :: ds) =
        scanExponent ⟨negative, whole, [], none⟩ (c :: ds) := by
      unfold scanFraction
      split <;> simp_all
    rw [List.cons_append, hnone]
    rw [hnone] at h ⊢
    exact local_scanExponent _ m (c :: cs) rest hrest h

theorem local_scanNumeral (negative : Bool) : Local (scanNumeral negative) := by
  intro m cs rest hrest h
  obtain ⟨htake, hdrop⟩ := takeWhile_isDigit_append cs hrest
  unfold scanNumeral at h ⊢
  dsimp only at h ⊢
  rw [htake, hdrop]
  split at h
  · cases h
  · cases h
  · exact local_scanFraction negative _ m _ rest hrest h

theorem scanString_ne_number (s : Spelling) (cs : List Char) (n : Number) :
    (scanString s cs).1 ≠ .number n := by
  have htoken (s : Spelling) : s.token ≠ .number n := by
    unfold Spelling.token
    split <;> simp
  have hbroken (s : Spelling) (fault : Fault) : s.brokenToken fault ≠ .number n := by
    simp [Spelling.brokenToken]
  fun_induction scanString s cs with
  | case2 => exact htoken _
  | case4 | case7 | case10 => assumption
  | _ => exact hbroken _ _

theorem scanWord_ne_number {t : Token} {broken : Defect → Token} {n : Number}
    (ht : t ≠ .number n) (hbroken : ∀ defect, broken defect ≠ .number n) (word cs : List Char) :
    (scanWord t broken word cs).1 ≠ .number n := by
  fun_induction scanWord t broken word cs with
  | case1 => exact ht
  | case3 => assumption
  | _ => exact hbroken _

theorem local_scanToken (c : Char) : Local (scanToken c) := by
  intro n cs rest hrest h
  unfold scanToken at h ⊢
  split at h
  case h_11 => exact local_scanNumeral true n cs rest hrest h
  case h_12 =>
    split at h
    · rw [if_pos ‹_›, if_pos ‹_›]
      exact local_scanNumeral false n (_ :: cs) rest hrest h
    · cases h
  case h_7 => exact absurd h (scanString_ne_number _ _ _)
  case h_8 => exact absurd h (scanWord_ne_number (by simp) (by simp) _ _)
  case h_9 => exact absurd h (scanWord_ne_number (by simp) (by simp) _ _)
  case h_10 => exact absurd h (scanWord_ne_number (by simp) (by simp) _ _)
  all_goals cases h

theorem tokens_append_of_blank {cs : List Char} (h : tokens cs = []) (rest : List Char) :
    tokens (cs ++ rest) = tokens rest := by
  induction cs with
  | nil => rfl
  | cons c cs ih =>
    rw [tokens] at h
    cases hblank : isBlank c with
    | true =>
      rw [hblank, if_pos rfl] at h
      rw [List.cons_append, tokens_of_isBlank hblank, ih h]
    | false =>
      rw [hblank] at h
      cases h

/-- A number that stands alone in a text is read as the same number in front of what stops it. -/
theorem tokens_append {n : Number} {cs rest : List Char} (hrest : Stops rest)
    (h : tokens cs = [.number n]) : tokens (cs ++ rest) = .number n :: tokens rest := by
  induction cs with
  | nil =>
    rw [tokens_nil] at h
    cases h
  | cons c cs ih =>
    rw [tokens] at h
    cases hblank : isBlank c with
    | true =>
      rw [hblank, if_pos rfl] at h
      rw [List.cons_append, tokens_of_isBlank hblank, ih h]
    | false =>
      rw [hblank, if_neg Bool.false_ne_true, List.cons.injEq] at h
      have hscan := local_scanToken c n cs rest hrest h.1
      rw [List.cons_append, tokens_of_scanToken hblank hscan, tokens_append_of_blank h.2]

/-! ### Whole numbers -/

theorem digitValue_digitChar {d : Nat} (hd : d < 10) : digitValue d.digitChar = d := by
  rw [digitValue, if_pos (by rw [Nat.isDigit_digitChar, decide_eq_true hd])]
  exact Nat.toNat_digitChar_sub_48_of_lt_ten hd

theorem readCoefficient_concat {start n : Nat} {ds : List Char} {c : Char}
    (h : readCoefficient start ds = (n, [])) (hlt : n * 10 + digitValue c < Nat.pow 2 64) :
    readCoefficient start (ds ++ [c]) = (n * 10 + digitValue c, []) := by
  induction ds generalizing start with
  | nil =>
    rw [readCoefficient, Prod.mk.injEq] at h
    obtain ⟨rfl, -⟩ := h
    rw [List.nil_append, readCoefficient]
    exact if_pos hlt
  | cons d ds ih =>
    rw [readCoefficient] at h
    rw [List.cons_append, readCoefficient]
    split at h
    · rw [if_pos ‹_›]
      exact ih h
    · cases h

/-- The digits of a number that fits are read as the number. -/
theorem readCoefficient_toDigits {n : Nat} (hn : n < Nat.pow 2 64) :
    readCoefficient 0 (Nat.toDigits 10 n) = (n, []) := by
  induction n using Nat.strongRecOn with
  | ind n ih =>
    by_cases hsmall : n < 10
    · have hvalue := digitValue_digitChar hsmall
      rw [Nat.toDigits_of_lt_base hsmall, readCoefficient, hvalue, Nat.zero_mul, Nat.zero_add,
        if_pos hn]
      rfl
    · have hdigit := digitValue_digitChar (Nat.mod_lt n (by decide : 0 < 10))
      have hsplit : n / 10 * 10 + n % 10 = n := Nat.div_add_mod' n 10
      have h := readCoefficient_concat (ih (n / 10) (by omega) (by omega))
        (by rwa [hdigit, hsplit])
      rw [hdigit, hsplit] at h
      rw [Nat.toDigits_of_base_le (by decide) (Nat.le_of_not_lt hsmall)]
      exact h

/-- Only zero has digits that begin with zero. -/
theorem eq_zero_of_toDigits {n : Nat} {ds : List Char} (h : Nat.toDigits 10 n = '0' :: ds) :
    n = 0 ∧ ds = [] := by
  induction n using Nat.strongRecOn generalizing ds with
  | ind n ih =>
    by_cases hsmall : n < 10
    · rw [Nat.toDigits_of_lt_base hsmall, List.cons.injEq] at h
      have hvalue := digitValue_digitChar hsmall
      rw [h.1] at hvalue
      exact ⟨hvalue.symm, h.2.symm⟩
    · rw [Nat.toDigits_of_base_le (by decide) (Nat.le_of_not_lt hsmall)] at h
      cases hfront : Nat.toDigits 10 (n / 10) with
      | nil => exact absurd hfront Nat.toDigits_ne_nil
      | cons c cs =>
        rw [hfront, List.cons_append, List.cons.injEq] at h
        rw [h.1] at hfront
        have hzero := (ih (n / 10) (by omega) hfront).1
        omega

/-- A digit sequence that stands alone is a numeral without point and exponent. -/
theorem scanNumeral_toDigits (negative : Bool) (n : Nat) :
    scanNumeral negative (Nat.toDigits 10 n) =
      (numeralToken ⟨negative, Nat.toDigits 10 n, [], none⟩, []) := by
  have hall : ∀ c ∈ Nat.toDigits 10 n, c.isDigit = true := fun c hc =>
    Nat.isDigit_of_mem_toDigits (by decide) (by decide) hc
  have htake : (Nat.toDigits 10 n).takeWhile Char.isDigit = Nat.toDigits 10 n :=
    List.takeWhile_eq_self_iff.2 hall
  have hdrop : (Nat.toDigits 10 n).dropWhile Char.isDigit = [] := List.dropWhile_eq_nil_iff.2 hall
  unfold scanNumeral
  dsimp only
  rw [htake, hdrop]
  split
  · exact absurd ‹_› Nat.toDigits_ne_nil
  · cases (eq_zero_of_toDigits ‹_›).2
  · rfl

theorem numeralToken_toDigits {negative : Bool} {n : Nat} (hn : n < Nat.pow 2 64)
    (hnegative : negative = true → 0 < n ∧ n ≤ Nat.pow 2 63) :
    numeralToken ⟨negative, Nat.toDigits 10 n, [], none⟩ =
      .number (.int (if negative then -(n : Int) else n)) := by
  have hinteger : (!negative || (decide (0 < n) && decide (n ≤ Nat.pow 2 63))) = true := by
    cases negative with
    | false => rfl
    | true => simpa using hnegative rfl
  unfold numeralToken Numeral.number?
  dsimp only [Numeral.isWhole]
  rw [readCoefficient_toDigits hn]
  simp [hinteger]

theorem isBlank_digit {c : Char} (h : c.isDigit = true) : isBlank c = false := by
  unfold isBlank
  by_contra hblank
  simp only [Bool.not_eq_false, Bool.or_eq_true, decide_eq_true_eq] at hblank
  rcases hblank with ((rfl | rfl) | rfl) | rfl <;> cases h

theorem scanToken_digit {c : Char} (h : c.isDigit = true) (rest : List Char) :
    scanToken c rest = scanNumeral false (c :: rest) := by
  unfold scanToken
  split
  case h_12 => rw [if_pos h]
  all_goals cases h

/-- A whole number that a document can hold is read back. -/
theorem readsBack_int {n : Int} (h : Number.InRange n) : ReadsBack (.int n) := by
  obtain ⟨hlow, hhigh⟩ := h
  have h63 : Nat.pow 2 63 = 9223372036854775808 := rfl
  have h64 : Nat.pow 2 64 = 18446744073709551616 := rfl
  rw [ReadsBack, Number.text, Number.intText]
  split
  · rename_i hneg
    have hscan : scanToken '-' (Nat.toDigits 10 n.natAbs) = (.number (.int n), []) := by
      show scanNumeral true (Nat.toDigits 10 n.natAbs) = _
      have hbound : n.natAbs < Nat.pow 2 64 := by omega
      rw [scanNumeral_toDigits, numeralToken_toDigits hbound fun _ => ⟨by omega, by omega⟩,
        if_pos rfl]
      congr 3
      omega
    rw [tokens_of_scanToken rfl hscan, tokens_nil]
  · rename_i hneg
    have hscan : scanNumeral false (Nat.toDigits 10 n.natAbs) = (.number (.int n), []) := by
      have hbound : n.natAbs < Nat.pow 2 64 := by omega
      rw [scanNumeral_toDigits, numeralToken_toDigits hbound (by simp), if_neg Bool.false_ne_true]
      congr 3
      omega
    cases hdigits : Nat.toDigits 10 n.natAbs with
    | nil => exact absurd hdigits Nat.toDigits_ne_nil
    | cons c cs =>
      have hdigit : c.isDigit = true :=
        Nat.isDigit_of_mem_toDigits (by decide) (by decide) (hdigits ▸ List.mem_cons_self)
      rw [hdigits, ← scanToken_digit hdigit] at hscan
      rw [tokens_of_scanToken (isBlank_digit hdigit) hscan, tokens_nil]

theorem tokens_number {n : Number} (hn : ReadsBack n) {rest : List Char} (hrest : Stops rest) :
    tokens (n.text ++ rest) = .number n :: tokens rest :=
  tokens_append hrest hn

end CatalogUi.Json
