import CatalogUi.Command

/-!
The program: commands on the files of a disk.
-/

namespace CatalogUi.Disk

/-- The reason why the system refuses a file operation. Its number may come negated. -/
def refusal (error : IO.Error) : FileError :=
  let numbered (code : UInt32) (text : String) : FileError :=
    .ofCode text (if code.toNat < Nat.pow 2 31 then code.toNat else Nat.pow 2 32 - code.toNat)
  match error with
  | .alreadyExists _ code text | .invalidArgument _ code text | .permissionDenied _ code text
  | .resourceExhausted _ code text | .inappropriateType _ code text | .noSuchThing _ code text
  | .interrupted _ code text | .noFileOrDirectory _ code text | .otherError code text
  | .resourceBusy code text | .resourceVanished code text | .unsupportedOperation code text
  | .hardwareFault code text | .unsatisfiedConstraints code text | .illegalOperation code text
  | .protocolError code text | .timeExpired code text => numbered code text
  | .unexpectedEof | .userError _ => .notText

def attempt {α : Type} (action : IO α) : IO (Except FileError α) := do
  match ← action.toBaseIO with
  | .ok a => return .ok a
  | .error e => return .error (refusal e)

/-- A path leads to a folder if one can stay in it. -/
def isFolder (path : String) : IO Bool := do
  let inside := path ++ "/."
  return (← attempt (IO.FS.realPath inside)).toOption.isSome

def fileSystem : FileSystem IO where
  read path := attempt (IO.FS.readFile path)
  isFolder path := isFolder path
  makeFolder path := attempt (IO.FS.createDir path)
  write path text := attempt (IO.FS.writeFile path text)

end CatalogUi.Disk

open CatalogUi in
def main (args : List String) : IO UInt32 := do
  let outcome ← Command.runArgs Disk.fileSystem args
  for line in outcome.output do
    IO.println line
  for line in outcome.complaints do
    IO.eprintln line
  return outcome.exitCode
