import CatalogUi.Json.Token

/-!
A JSON text as a tree, as far as the text goes. A defect stands in the tree at its place, so that a
reader that goes through the tree in the order of the text meets its own complaints and the defects
of the text in the order in which they stand, and stops at whichever comes first.
-/

namespace CatalogUi.Json

/-- How the list of items or members ends: with its bracket, or defectively, either after a comma
or without one. -/
inductive Ending where
  | closed
  | cut (defect : Defect)
  | afterComma (defect : Defect)
deriving DecidableEq

inductive Draft where
  | null
  | bool (b : Bool)
  | number (n : Number)
  | hugeNumber
  | string (s : String)
  | unpairedString
  /-- The word for null, cut short or misspelled. -/
  | brokenNull (defect : Defect)
  /-- Any other word or numeral that is defective, or a character that begins no value. -/
  | brokenScalar (defect : Defect)
  /-- A string that is defective, or no value where one must come. -/
  | broken (defect : Defect)
  | array (items : List Draft) (ending : Ending)
  /-- A member without a name has a string with an unpaired surrogate in its place. -/
  | object (members : List (Option String × Draft)) (ending : Ending)

/-- A text: its first value, and whether anything follows it. -/
structure Document where
  body : Draft
  trailing : Bool

namespace Draft

/-! ## From tokens -/

/-- A container that is still open: its content so far, last first. -/
inductive Frame where
  | items (done : List Draft)
  | members (done : List (Option String × Draft)) (name : Option String)

/-- What has to come next. -/
inductive Place where
  | value
  | firstItem
  | item
  | firstName
  | name
  | colon
  | after (finished : Draft)

/-- Either there is more to read, or the tree is settled. -/
inductive Progress where
  | more (place : Place) (stack : List Frame)
  | settled (document : Document)

/-- Closes every open container around a draft in which the text breaks off. -/
def enclose (d : Draft) : List Frame → Draft
  | [] => d
  | .items done :: stack => enclose (.array (done.reverse ++ [d]) (.cut .malformed)) stack
  | .members done name :: stack =>
    enclose (.object (done.reverse ++ [(name, d)]) (.cut .malformed)) stack

def breakOff (d : Draft) (stack : List Frame) : Progress :=
  .settled ⟨enclose d stack, false⟩

/-- The innermost container, ended. -/
def endTop (ending : Ending) : List Frame → Draft × List Frame
  | [] => (.broken .malformed, [])
  | .items done :: stack => (.array done.reverse ending, stack)
  | .members done _ :: stack => (.object done.reverse ending, stack)

def breakTop (ending : Ending) (stack : List Frame) : Progress :=
  breakOff (endTop ending stack).1 (endTop ending stack).2

def closeTop (stack : List Frame) : Progress :=
  .more (.after (endTop .closed stack).1) (endTop .closed stack).2

/-- The value that a token begins. -/
def beginValue (t : Token) (stack : List Frame) : Progress :=
  match t with
  | .null => .more (.after .null) stack
  | .bool b => .more (.after (.bool b)) stack
  | .number n => .more (.after (.number n)) stack
  | .hugeNumber => .more (.after .hugeNumber) stack
  | .string s => .more (.after (.string s)) stack
  | .unpairedString => .more (.after .unpairedString) stack
  | .openArray => .more .firstItem (.items [] :: stack)
  | .openObject => .more .firstName (.members [] none :: stack)
  | .brokenNull defect => breakOff (.brokenNull defect) stack
  | .broken defect => breakOff (.brokenScalar defect) stack
  | .brokenString defect => breakOff (.broken defect) stack
  | .comma | .colon | .closeArray | .closeObject => breakOff (.brokenScalar .malformed) stack

/-- Adds the finished value to the innermost container. -/
def push (d : Draft) : List Frame → List Frame
  | [] => []
  | .items done :: stack => .items (d :: done) :: stack
  | .members done name :: stack => .members ((name, d) :: done) none :: stack

/-- Sets the name that the next value belongs to. -/
def named (name : Option String) : List Frame → List Frame
  | .members done _ :: stack => .members done name :: stack
  | stack => stack

/-- Takes one token. -/
def step (place : Place) (stack : List Frame) (t : Token) : Progress :=
  match place with
  | .value => beginValue t stack
  | .firstItem => if t = .closeArray then closeTop stack else beginValue t stack
  | .item =>
    if t = .closeArray then breakTop (.afterComma .malformed) stack else beginValue t stack
  | .firstName =>
    match t with
    | .closeObject => closeTop stack
    | .string s => .more .colon (named (some s) stack)
    | .unpairedString => .more .colon (named none stack)
    | .brokenString defect => breakTop (.cut defect) stack
    | _ => breakTop (.cut .malformed) stack
  | .name =>
    match t with
    | .string s => .more .colon (named (some s) stack)
    | .unpairedString => .more .colon (named none stack)
    | .brokenString defect => breakTop (.afterComma defect) stack
    | _ => breakTop (.afterComma .malformed) stack
  | .colon => if t = .colon then .more .value stack else breakOff (.broken .malformed) stack
  | .after d =>
    match stack with
    | [] => .settled ⟨d, true⟩
    | .items _ :: _ =>
      match t with
      | .comma => .more .item (push d stack)
      | .closeArray => closeTop (push d stack)
      | _ => breakTop (.cut .malformed) (push d stack)
    | .members _ _ :: _ =>
      match t with
      | .comma => .more .name (push d stack)
      | .closeObject => closeTop (push d stack)
      | _ => breakTop (.cut .malformed) (push d stack)

/-- The tree when there are no more tokens. -/
def atEnd (place : Place) (stack : List Frame) : Document :=
  let cutOff (p : Progress) : Document :=
    match p with
    | .more _ _ => ⟨.broken .truncated, false⟩
    | .settled document => document
  match place with
  | .value | .colon => cutOff (breakOff (.broken .truncated) stack)
  | .firstItem | .firstName => cutOff (breakTop (.cut .truncated) stack)
  | .item | .name => cutOff (breakTop (.afterComma .truncated) stack)
  | .after d =>
    match stack with
    | [] => ⟨d, false⟩
    | stack => cutOff (breakTop (.cut .truncated) (push d stack))

/-- Takes tokens until the tree is settled. -/
def run (place : Place) (stack : List Frame) : List Token → Document
  | [] => atEnd place stack
  | t :: rest =>
    match step place stack t with
    | .settled document => document
    | .more place stack => run place stack rest

end Draft

/-- The tree of a text. -/
def Document.ofText (text : String) : Document :=
  Draft.run .value [] (tokens text.toList)

end CatalogUi.Json
