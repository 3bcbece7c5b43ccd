import CatalogUi.Text.Quoted

/-!
Binding paths: addresses of values inside a data store. A path is a list of nonempty names, and its
text puts a slash in front of each name, with `~` and `/` inside a name escaped as `~0` and `~1`. A
name that is the usual decimal of a number below `2 ^ 64` also addresses a place in a sequence.
-/

namespace CatalogUi

/-- Why a text is no path, or a value cannot be written at a path. -/
inductive BindingError where
  | notAbsolute (path : String)
  | emptySegment (path : String) (position : Nat)
  | invalidEscape (path : String) (segment : String)
  | keyOnSequence (path : String) (segment : String)
  | indexOutOfRange (path : String) (index : Nat) (length : Nat)
deriving DecidableEq

namespace BindingError

open Text

def message : BindingError → String
  | .notAbsolute path => "binding path must start with '/': " ++ quoted path
  | .emptySegment path position =>
    "binding path " ++ quoted path ++ " has an empty segment at position " ++ toString position
  | .invalidEscape path segment =>
    "binding path " ++ quoted path ++ " has an invalid escape in segment " ++ quoted segment
  | .keyOnSequence path segment =>
    "cannot address sequence at " ++ quoted path ++ " with non-numeric segment " ++ quoted segment
  | .indexOutOfRange path index length =>
    "index " ++ toString index ++ " in " ++ quoted path ++
      " is too far past the end of a sequence of length " ++ toString length

end BindingError

/-- One step of a path: a name that is not empty. -/
structure Segment where
  name : String
  name_ne : name ≠ ""
deriving DecidableEq

namespace Segment

/-- The value of decimal digits. -/
def decimalValue (digits : List Char) : Nat :=
  digits.foldl (fun n c => n * 10 + (c.toNat - '0'.toNat)) 0

/-- Whether characters are the usual decimal of a number: digits, with a leading zero only in zero
itself. -/
def isCanonical (digits : List Char) : Bool :=
  match digits with
  | [] => false
  | ['0'] => true
  | first :: rest => first ≠ '0' && first.isDigit && rest.all Char.isDigit

/-- The place in a sequence that the segment addresses, if it addresses one. -/
def index? (s : Segment) : Option Nat :=
  let digits := s.name.toList
  if isCanonical digits && decimalValue digits < Nat.pow 2 64 then some (decimalValue digits)
  else none

/-- Writes a name with its tildes and slashes escaped. -/
def escape : List Char → List Char
  | [] => []
  | '~' :: rest => '~' :: '0' :: escape rest
  | '/' :: rest => '~' :: '1' :: escape rest
  | c :: rest => c :: escape rest

/-- Reads an escaped name. Every tilde must be part of an escape. -/
def unescape? : List Char → Option (List Char)
  | [] => some []
  | '~' :: '0' :: rest => (unescape? rest).map ('~' :: ·)
  | '~' :: '1' :: rest => (unescape? rest).map ('/' :: ·)
  | '~' :: _ => none
  | c :: rest => (unescape? rest).map (c :: ·)

end Segment

/-- An address in the data store, from the root down. -/
structure Path where
  segments : List Segment
deriving DecidableEq

namespace Path

def root : Path := ⟨[]⟩

def depth (p : Path) : Nat := p.segments.length

def isRoot (p : Path) : Bool := p.segments.isEmpty

/-- The text of a path. The root is a slash alone. -/
def text (p : Path) : String :=
  match p.segments with
  | [] => "/"
  | segments => String.ofList (segments.flatMap fun s => '/' :: Segment.escape s.name.toList)

/-- Splits at every slash. There is one part more than there are slashes. -/
def parts : List Char → List (List Char)
  | [] => [[]]
  | c :: rest =>
    if c = '/' then [] :: parts rest
    else
      match parts rest with
      | [] => [[c]]
      | part :: more => (c :: part) :: more

/-- Reads the parts from a position on; the first defective part decides. -/
def readParts (path : String) (position : Nat) : List (List Char) →
    Except BindingError (List Segment)
  | [] => .ok []
  | part :: rest =>
    if part.isEmpty then .error (.emptySegment path position)
    else
      match Segment.unescape? part with
      | none => .error (.invalidEscape path (String.ofList part))
      | some name =>
        if h : String.ofList name = "" then .error (.emptySegment path position)
        else
          match readParts path (position + 1) rest with
          | .error e => .error e
          | .ok segments => .ok (⟨String.ofList name, h⟩ :: segments)

/-- Reads the text of a path. -/
def parse (path : String) : Except BindingError Path :=
  match path.toList with
  | '/' :: [] => .ok root
  | '/' :: rest =>
    match readParts path 0 (parts rest) with
    | .error e => .error e
    | .ok segments => .ok ⟨segments⟩
  | _ => .error (.notAbsolute path)

/-- Whether one path is a proper beginning of the other. -/
def isAncestorOf (p q : Path) : Bool :=
  p.depth < q.depth && p.segments.isPrefixOf q.segments

end Path

end CatalogUi
