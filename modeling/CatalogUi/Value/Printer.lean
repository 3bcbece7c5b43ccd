import CatalogUi.Value

/-!
The text of values, on one line without blanks or over several lines with two blanks for each level.
Both forms keep the order of fields, and an empty array or object has the same text in both.
-/

namespace CatalogUi.Value

/-- One character inside the quotes: quote, backslash and controls are escaped, all else is raw. -/
def escapedChar (c : Char) : List Char :=
  match c with
  | '"' => ['\\', '"']
  | '\\' => ['\\', '\\']
  | '\x08' => ['\\', 'b']
  | '\t' => ['\\', 't']
  | '\n' => ['\\', 'n']
  | '\x0c' => ['\\', 'f']
  | '\r' => ['\\', 'r']
  | c =>
    if c.toNat < 32 then
      ['\\', 'u', '0', '0', Nat.digitChar (c.toNat / 16), Nat.digitChar (c.toNat % 16)]
    else [c]

def stringText (s : String) : List Char :=
  '"' :: s.toList.flatMap escapedChar ++ ['"']

mutual

/-- The text on one line. -/
def compactText : Value → List Char
  | .null => ['n', 'u', 'l', 'l']
  | .bool true => ['t', 'r', 'u', 'e']
  | .bool false => ['f', 'a', 'l', 's', 'e']
  | .number n => n.text
  | .string s => stringText s
  | .array items => '[' :: compactItems items ++ [']']
  | .object fields => '\x7b' :: compactFields fields ++ ['\x7d']

def compactItems : List Value → List Char
  | [] => []
  | [v] => compactText v
  | v :: rest => compactText v ++ ',' :: compactItems rest

def compactFields : List (String × Value) → List Char
  | [] => []
  | [(name, v)] => stringText name ++ ':' :: compactText v
  | (name, v) :: rest => stringText name ++ ':' :: compactText v ++ ',' :: compactFields rest

end

/-- The break in front of a line at the given level. -/
def lineBreak (level : Nat) : List Char :=
  '\n' :: List.replicate (2 * level) ' '

mutual

/-- The text over several lines, for a value that stands at the given level. -/
def prettyText (level : Nat) : Value → List Char
  | .array [] => ['[', ']']
  | .array items => '[' :: prettyItems (level + 1) items ++ lineBreak level ++ [']']
  | .object [] => ['\x7b', '\x7d']
  | .object fields =>
    '\x7b' :: prettyFields (level + 1) fields ++ lineBreak level ++ ['\x7d']
  | .null => compactText .null
  | .bool b => compactText (.bool b)
  | .number n => compactText (.number n)
  | .string s => compactText (.string s)

def prettyItems (level : Nat) : List Value → List Char
  | [] => []
  | [v] => lineBreak level ++ prettyText level v
  | v :: rest => lineBreak level ++ prettyText level v ++ ',' :: prettyItems level rest

def prettyFields (level : Nat) : List (String × Value) → List Char
  | [] => []
  | [(name, v)] => lineBreak level ++ stringText name ++ ':' :: ' ' :: prettyText level v
  | (name, v) :: rest =>
    lineBreak level ++ stringText name ++ ':' :: ' ' :: prettyText level v ++
      ',' :: prettyFields level rest

end

/-- The value as a text on one line. -/
def compact (v : Value) : String := String.ofList v.compactText

/-- The value as a text over several lines. -/
def pretty (v : Value) : String := String.ofList (v.prettyText 0)

end CatalogUi.Value
