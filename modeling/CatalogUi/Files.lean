/-!
Text files in folders. Whoever works with files does so through four operations, which can be those
of a disk, or those of files that are held in memory; folders inside folders are made from these. A
path is a list of names with slashes between them, and is followed name by name.
-/

namespace CatalogUi

/-- Why a file operation is refused. -/
inductive FileError where
  | notFound
  | alreadyThere
  | notAFolder
  | isAFolder
  /-- A name, or the whole path, is too long. -/
  | nameTooLong
  /-- The bytes of the file are no text. -/
  | notText
  /-- Any other reason of the system, under its number. -/
  | other (text : String) (code : Nat)
deriving DecidableEq

namespace FileError

def numbered (text : String) (code : Nat) : String :=
  text ++ " (os error " ++ toString code ++ ")"

def message : FileError → String
  | .notFound => numbered "No such file or directory" 2
  | .alreadyThere => numbered "File exists" 17
  | .notAFolder => numbered "Not a directory" 20
  | .isAFolder => numbered "Is a directory" 21
  | .nameTooLong => numbered "File name too long" 36
  | .notText => "stream did not contain valid UTF-8"
  | .other text code => numbered text code

/-- The reason that the system gives under a number. -/
def ofCode (text : String) (code : Nat) : FileError :=
  match code with
  | 2 => .notFound
  | 17 => .alreadyThere
  | 20 => .notAFolder
  | 21 => .isAFolder
  | 36 => .nameTooLong
  | code => .other text code

end FileError

/-! ## Paths -/

/-- The names in a path. The first one is empty when the path starts at the top. -/
def namesOf (path : String) : List String := path.splitOn "/"

/-- A name that leads to where one is already. -/
def staysPut (name : String) : Bool := name = "" || name = "."

/-- What stands up to each name of a path that leads somewhere, the longest first. The names are
given last first. -/
def beginnings : List String → List (List String)
  | [] => []
  | name :: rest =>
    if staysPut name then beginnings rest else (name :: rest).reverse :: beginnings rest

/-- The paths to the folders around a path, the innermost first. -/
def enclosingPaths (path : String) : List String :=
  (beginnings (namesOf path).reverse).tail.map fun names => "/".intercalate names

/-! ## Operations -/

/-- The operations on files, each at a path. -/
structure FileSystem (m : Type → Type) where
  read : String → m (Except FileError String)
  isFolder : String → m Bool
  /-- Makes a folder. The folder around it must be there. -/
  makeFolder : String → m (Except FileError Unit)
  /-- Writes a whole file, in place of an earlier one. -/
  write : String → String → m (Except FileError Unit)

namespace FileSystem

variable {m : Type → Type} [Monad m] (files : FileSystem m)

/-- Makes a folder, unless it is there. -/
def ensureFolder (path : String) : m (Except FileError Unit) := do
  match ← files.makeFolder path with
  | .ok () => return .ok ()
  | .error e => if ← files.isFolder path then return .ok () else return .error e

/-- Makes a folder, given the folders around it. These are made only if something is not found. -/
def ensureFolders : List String → m (Except FileError Unit)
  | [] => return .ok ()
  | path :: around => do
    match ← files.ensureFolder path with
    | .error .notFound =>
      match ← ensureFolders around with
      | .ok () => files.ensureFolder path
      | .error e => return .error e
    | ensured => return ensured

/-- Makes a folder and those around it, as far as they are not there. -/
def makeFolders (path : String) : m (Except FileError Unit) :=
  if path = "" then return .ok () else files.ensureFolders (path :: enclosingPaths path)

end FileSystem

/-! ## Files in memory -/

inductive FileItem where
  | file (text : String)
  | folder
deriving DecidableEq

/-- Files and folders, each at the names that lead to it from the top. -/
structure Files where
  /-- Where a path begins that does not begin at the top. -/
  workingFolder : List String
  items : List (List String × FileItem)

namespace Files

/-- A working folder, inside two other folders, and nothing in it. -/
def empty : Files where
  workingFolder := ["home", "user", "work"]
  items := [(["home"], .folder), (["home", "user"], .folder), (["home", "user", "work"], .folder)]

/-- The number of bytes that a name may have. -/
def maxNameSize : Nat := 255

/-- The number of bytes that a path may have. -/
def maxPathSize : Nat := 4095

/-- What is at a place. The top is a folder. -/
def at? (f : Files) (place : List String) : Option FileItem :=
  if place = [] then some .folder else (f.items.find? (·.1 = place)).map (·.2)

def put (f : Files) (place : List String) (item : FileItem) : Files :=
  { f with items := f.items.filter (·.1 ≠ place) ++ [(place, item)] }

/-- Takes one step from a folder. Above the top is the top. -/
def stepTo (place : List String) (name : String) : List String :=
  if staysPut name then place
  else if name = ".." then place.dropLast
  else place ++ [name]

/-- The place to which names lead from another place. Every place on the way must be a folder. -/
def follow (f : Files) (place : List String) : List String → Except FileError (List String)
  | [] => .ok place
  | name :: rest =>
    match f.at? place with
    | none => .error .notFound
    | some (.file _) => .error .notAFolder
    | some .folder =>
      if maxNameSize < name.utf8ByteSize then .error .nameTooLong
      else follow f (stepTo place name) rest

/-- The place to which the names of a path lead. There may be nothing at that place. -/
def locate (f : Files) (names : List String) : Except FileError (List String) :=
  if maxPathSize < ("/".intercalate names).utf8ByteSize then .error .nameTooLong
  else f.follow (if names.head? = some "" then [] else f.workingFolder) names

def read (f : Files) (path : String) : Except FileError String :=
  match f.locate (namesOf path) with
  | .error e => .error e
  | .ok place =>
    match f.at? place with
    | none => .error .notFound
    | some .folder => .error .isAFolder
    | some (.file text) => .ok text

def isFolder (f : Files) (path : String) : Bool :=
  match f.locate (namesOf path) with
  | .error _ => false
  | .ok place => f.at? place = some .folder

/-- Makes a folder. Slashes at the end of the path do not count. -/
def makeFolder (f : Files) (path : String) : Except FileError Files :=
  match f.locate ((namesOf path).reverse.dropWhile (· = "")).reverse with
  | .error e => .error e
  | .ok place =>
    match f.at? place with
    | none => .ok (f.put place .folder)
    | some _ => .error .alreadyThere

def write (f : Files) (path : String) (text : String) : Except FileError Files :=
  match f.locate (namesOf path) with
  | .error e => .error e
  | .ok place =>
    match f.at? place with
    | some .folder => .error .isAFolder
    | _ => .ok (f.put place (.file text))

/-- Keeps the files that an operation gives, or those from before when it is refused. -/
def update (operation : Files → Except FileError Files) : StateM Files (Except FileError Unit) :=
  fun f =>
    match operation f with
    | .ok f => (.ok (), f)
    | .error e => (.error e, f)

/-- The operations on files in memory. -/
def fileSystem : FileSystem (StateM Files) where
  read path := fun f => (f.read path, f)
  isFolder path := fun f => (f.isFolder path, f)
  makeFolder path := update fun f => f.makeFolder path
  write path text := update fun f => f.write path text

end Files

end CatalogUi
