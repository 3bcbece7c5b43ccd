import CatalogUi.Path
import CatalogUi.Value

/-!
Reading and writing inside a value. On the way down a path, a segment is a field name for an object
and, if it is a number, a place in a sequence. Writing makes the containers that are missing, and
puts nulls in front of a place past the end of a sequence. It goes down the path twice: a first walk
refuses what cannot be written before the second one changes anything.
-/

namespace CatalogUi

namespace Value

/-- How far past the end of a sequence a value may be written. -/
def maxPadding : Nat := 1024

/-- The value at the end of a route, if the route leads anywhere. -/
def get? : Value → List Segment → Option Value
  | v, [] => some v
  | .object fields, s :: rest =>
    match Entries.get? fields s.name with
    | some v => get? v rest
    | none => none
  | .array items, s :: rest =>
    match s.index? with
    | some i =>
      match items[i]? with
      | some v => get? v rest
      | none => none
    | none => none
  | _, _ :: _ => none

/-- Writes at a place of a sequence, which may lie past its end. -/
def setItem (items : List Value) (index : Nat) (v : Value) : List Value :=
  if index < items.length then items.set index v
  else items ++ List.replicate (index - items.length) .null ++ [v]

/-- A place too far past the end of a sequence is refused. -/
def checkIndex (path : Path) (index length : Nat) : Except BindingError Unit :=
  if length + maxPadding < index then .error (.indexOutOfRange path.text index length) else .ok ()

/-- Walks a route the way a write will go, and refuses the write before anything is changed. What is
missing on the way, or a scalar, will give way to a new container. -/
def checkWritable (path : Path) : Option Value → List Segment → Except BindingError Unit
  | _, [] => .ok ()
  | some (.array items), s :: rest =>
    match s.index? with
    | none => .error (.keyOnSequence path.text s.name)
    | some i => do
      checkIndex path i items.length
      checkWritable path items[i]? rest
  | some (.object fields), s :: rest => checkWritable path (Entries.get? fields s.name) rest
  | _, s :: rest =>
    match s.index? with
    | none => checkWritable path none rest
    | some i => do
      checkIndex path i 0
      checkWritable path none rest

/-- The empty container that a segment needs: a sequence for a number, an object for a name. -/
def emptyFor (s : Segment) : Value :=
  if s.index?.isSome then .array [] else .object []

/-- The container that a segment is looked up in. A scalar gives way to an empty one. -/
def asContainer (v : Value) (s : Segment) : Value :=
  match v with
  | .object _ | .array _ => v
  | _ => emptyFor s

/-- Goes down a route and puts a value at its end. A container that is missing on the way is made, and
a slot that is new in it holds null at first. -/
def place : Value → List Segment → Value → Value
  | _, [], new => new
  | v, s :: rest, new =>
    match v.asContainer s with
    | .object fields =>
      .object (Entries.set fields s.name (place ((Entries.get? fields s.name).getD .null) rest new))
    | .array items =>
      match s.index? with
      | some i => .array (setItem items i (place (items[i]?.getD .null) rest new))
      -- The check refuses a name in front of a sequence.
      | none => place (.array items) rest new
    | other => place other rest new

/-- The value at a path. -/
def read? (v : Value) (p : Path) : Option Value := v.get? p.segments

/-- The whole value after writing at a path. The walk that writes comes after the walk that checks. -/
def write (v : Value) (p : Path) (new : Value) : Except BindingError Value :=
  (checkWritable p (some v) p.segments).map fun _ => v.place p.segments new

end Value

end CatalogUi
