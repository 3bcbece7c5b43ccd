import CatalogUi.Number

/-!
The tokens of a JSON text. A defect in the text is itself a token, and the last one: what it means
depends on who reads it. A strict reader needs the value at that place; a reader that only skips
the value neither pairs surrogates nor looks at the size of numbers.
-/

namespace CatalogUi.Json

/-- How a text can be defective: it goes on in a way that it must not, or it ends too early. -/
inductive Fault where
  | malformed
  | truncated
deriving DecidableEq

/-- A fault as a strict reader and as a skipping reader see it. -/
structure Defect where
  strict : Fault
  skipped : Fault
deriving DecidableEq

namespace Defect

def malformed : Defect := ⟨.malformed, .malformed⟩

def truncated : Defect := ⟨.truncated, .truncated⟩

/-- A numeral whose text ends before a digit that must come. -/
def unfinishedNumeral : Defect := ⟨.truncated, .malformed⟩

end Defect

inductive Token where
  | openArray
  | closeArray
  | openObject
  | closeObject
  | comma
  | colon
  | null
  | bool (b : Bool)
  | number (n : Number)
  /-- A numeral that is too large for any number. -/
  | hugeNumber
  | string (s : String)
  /-- A string with a surrogate that has no partner. -/
  | unpairedString
  /-- A string that is defective before its closing quote. -/
  | brokenString (defect : Defect)
  /-- The word for null, cut short or misspelled. -/
  | brokenNull (defect : Defect)
  /-- Any other word or numeral that is defective, or a character that begins no token. -/
  | broken (defect : Defect)
deriving DecidableEq

/-! ## Strings -/

/-- What has been read of a string: its characters, last first, whether all surrogates so far have
a partner, and a leading surrogate that still waits for one. -/
structure Spelling where
  reversed : List Char
  paired : Bool
  waiting : Option Nat

namespace Spelling

def start : Spelling := ⟨[], true, none⟩

def push (s : Spelling) (c : Char) : Spelling :=
  ⟨c :: s.reversed, s.paired && s.waiting.isNone, none⟩

/-- Takes a code unit of sixteen bits from an escape. -/
def pushUnit (s : Spelling) (unit : Nat) : Spelling :=
  if 0xD800 ≤ unit ∧ unit < 0xDC00 then ⟨s.reversed, s.paired && s.waiting.isNone, some unit⟩
  else if 0xDC00 ≤ unit ∧ unit < 0xE000 then
    match s.waiting with
    | some lead =>
      ⟨Char.ofNat (0x10000 + (lead - 0xD800) * 0x400 + (unit - 0xDC00)) :: s.reversed, s.paired,
        none⟩
    | none => ⟨s.reversed, false, none⟩
  else s.push (Char.ofNat unit)

/-- The token of the finished string. -/
def token (s : Spelling) : Token :=
  if s.paired && s.waiting.isNone then .string (String.ofList s.reversed.reverse)
  else .unpairedString

/-- The token of a string that cannot be read on. A surrogate without partner comes first. -/
def brokenToken (s : Spelling) (fault : Fault) : Token :=
  .brokenString ⟨if s.paired then fault else .malformed, fault⟩

end Spelling

def hexValue? (c : Char) : Option Nat :=
  if '0' ≤ c ∧ c ≤ '9' then some (c.toNat - '0'.toNat)
  else if 'a' ≤ c ∧ c ≤ 'f' then some (c.toNat - 'a'.toNat + 10)
  else if 'A' ≤ c ∧ c ≤ 'F' then some (c.toNat - 'A'.toNat + 10)
  else none

/-- The code unit that four digits in base sixteen spell. -/
def hexUnit? (a b c d : Char) : Option Nat := do
  return (((← hexValue? a) * 16 + (← hexValue? b)) * 16 + (← hexValue? c)) * 16 + (← hexValue? d)

/-- The character that a one-letter escape stands for. -/
def escape? (c : Char) : Option Char :=
  match c with
  | '"' => some '"'
  | '\\' => some '\\'
  | '/' => some '/'
  | 'b' => some '\x08'
  | 'f' => some '\x0c'
  | 'n' => some '\n'
  | 'r' => some '\r'
  | 't' => some '\t'
  | _ => none

/-- How many bytes a text takes. -/
def byteCount (cs : List Char) : Nat :=
  cs.foldr (fun c count => c.utf8Size + count) 0

/-- Reads a string from behind its opening quote, and returns what follows the closing one. -/
def scanString (s : Spelling) : List Char → Token × List Char
  | [] => (s.brokenToken .truncated, [])
  | '"' :: rest => (s.token, rest)
  | ['\\'] => (s.brokenToken .truncated, [])
  | '\\' :: 'u' :: a :: b :: c :: d :: rest =>
    match hexUnit? a b c d with
    | some unit => scanString (s.pushUnit unit) rest
    | none => (s.brokenToken .malformed, [])
  | '\\' :: 'u' :: rest =>
    (s.brokenToken (if byteCount rest < 4 then .truncated else .malformed), [])
  | '\\' :: c :: rest =>
    match escape? c with
    | some char => scanString (s.push char) rest
    | none => (s.brokenToken .malformed, [])
  | c :: rest => if c.toNat < 32 then (s.brokenToken .malformed, []) else scanString (s.push c) rest

/-! ## Numerals -/

/-- A digit must come, but does not. -/
def missingDigit (rest : List Char) : Token × List Char :=
  (.broken (if rest.isEmpty then .unfinishedNumeral else .malformed), [])

def numeralToken (n : Numeral) : Token :=
  match n.number? with
  | some number => .number number
  | none => .hugeNumber

/-- The value of decimal digits. -/
def digitsValue (digits : List Char) : Nat :=
  digits.foldl (fun n c => n * 10 + digitValue c) 0

/-- Reads the exponent, if there is one. -/
def scanExponent (n : Numeral) (rest : List Char) : Token × List Char :=
  let scan (negative : Bool) (rest : List Char) : Token × List Char :=
    let digits := rest.takeWhile Char.isDigit
    if digits.isEmpty then missingDigit rest
    else
      let size : Int := digitsValue digits
      (numeralToken { n with exponent := some (if negative then -size else size) },
        rest.dropWhile Char.isDigit)
  let signed (rest : List Char) : Token × List Char :=
    match rest with
    | '+' :: rest => scan false rest
    | '-' :: rest => scan true rest
    | rest => scan false rest
  match rest with
  | 'e' :: rest => signed rest
  | 'E' :: rest => signed rest
  | rest => (numeralToken n, rest)

/-- Reads the fraction, if there is one, and goes on with the exponent. -/
def scanFraction (negative : Bool) (whole : List Char) (rest : List Char) : Token × List Char :=
  match rest with
  | '.' :: rest =>
    let digits := rest.takeWhile Char.isDigit
    if digits.isEmpty then missingDigit rest
    else scanExponent ⟨negative, whole, digits, none⟩ (rest.dropWhile Char.isDigit)
  | rest => scanExponent ⟨negative, whole, [], none⟩ rest

/-- Reads a numeral from behind its sign. A zero in front of another digit is not allowed. -/
def scanNumeral (negative : Bool) (rest : List Char) : Token × List Char :=
  let whole := rest.takeWhile Char.isDigit
  match whole with
  | [] => missingDigit rest
  | '0' :: _ :: _ => (.broken .malformed, [])
  | whole => scanFraction negative whole (rest.dropWhile Char.isDigit)

/-! ## Words -/

/-- Reads the rest of a word, letter by letter. -/
def scanWord (token : Token) (broken : Defect → Token) :
    List Char → List Char → Token × List Char
  | [], rest => (token, rest)
  | _ :: _, [] => (broken .truncated, [])
  | expected :: word, c :: rest =>
    if c = expected then scanWord token broken word rest else (broken .malformed, [])

/-! ## Tokens -/

/-- The characters that may stand between tokens. -/
def isBlank (c : Char) : Bool :=
  c = ' ' || c = '\n' || c = '\t' || c = '\r'

/-- Reads the token that begins with the given character, which is not blank. -/
def scanToken (c : Char) (rest : List Char) : Token × List Char :=
  match c with
  | '[' => (.openArray, rest)
  | ']' => (.closeArray, rest)
  | '\x7b' => (.openObject, rest)
  | '\x7d' => (.closeObject, rest)
  | ',' => (.comma, rest)
  | ':' => (.colon, rest)
  | '"' => scanString .start rest
  | 'n' => scanWord .null .brokenNull ['u', 'l', 'l'] rest
  | 't' => scanWord (.bool true) .broken ['r', 'u', 'e'] rest
  | 'f' => scanWord (.bool false) .broken ['a', 'l', 's', 'e'] rest
  | '-' => scanNumeral true rest
  | c => if c.isDigit then scanNumeral false (c :: rest) else (.broken .malformed, [])

theorem scanString_length (s : Spelling) (cs : List Char) :
    (scanString s cs).2.length ≤ cs.length := by
  fun_induction scanString s cs <;> simp_all <;> omega

theorem scanWord_length (token : Token) (broken : Defect → Token) (word cs : List Char) :
    (scanWord token broken word cs).2.length ≤ cs.length := by
  fun_induction scanWord token broken word cs <;> simp_all; omega

theorem dropWhile_length (p : Char → Bool) (cs : List Char) :
    (cs.dropWhile p).length ≤ cs.length :=
  (List.dropWhile_sublist p).length_le

theorem scanExponent_length (n : Numeral) (cs : List Char) :
    (scanExponent n cs).2.length ≤ cs.length := by
  have h := dropWhile_length Char.isDigit
  unfold scanExponent missingDigit
  grind

theorem scanFraction_length (negative : Bool) (whole cs : List Char) :
    (scanFraction negative whole cs).2.length ≤ cs.length := by
  have h := dropWhile_length Char.isDigit
  have he := scanExponent_length
  unfold scanFraction missingDigit
  grind

/-- A numeral that does not break off takes at least one character. -/
theorem scanNumeral_length (negative : Bool) (c : Char) (cs : List Char) (hc : c.isDigit) :
    (scanNumeral negative (c :: cs)).2.length ≤ cs.length := by
  have h := dropWhile_length Char.isDigit cs
  have hf := scanFraction_length negative
  unfold scanNumeral
  simp only [List.takeWhile_cons, hc, List.dropWhile_cons, if_true]
  split
  · simp_all
  · simp
  · exact Nat.le_trans (hf _ _) h

theorem scanNumeral_length_signed (negative : Bool) (cs : List Char) :
    (scanNumeral negative cs).2.length ≤ cs.length := by
  have h := dropWhile_length Char.isDigit cs
  have hf := scanFraction_length negative
  unfold scanNumeral missingDigit
  grind

theorem scanToken_length (c : Char) (cs : List Char) :
    (scanToken c cs).2.length ≤ cs.length := by
  unfold scanToken
  split <;> try simp
  · exact scanString_length ..
  · exact scanWord_length ..
  · exact scanWord_length ..
  · exact scanWord_length ..
  · exact scanNumeral_length_signed ..
  · split
    · exact scanNumeral_length _ _ _ ‹_›
    · simp

/-- The tokens of a text. -/
def tokens : List Char → List Token
  | [] => []
  | c :: cs => if isBlank c then tokens cs else (scanToken c cs).1 :: tokens (scanToken c cs).2
termination_by cs => cs.length
decreasing_by
  · simp
  · exact Nat.lt_succ_of_le (scanToken_length c cs)

end CatalogUi.Json
