import CatalogUi.Demo
import CatalogUi.Files
import CatalogUi.Prompt
import CatalogUi.Tree.Format
import CatalogUi.Validation

/-!
The two commands: writing the documents that a generator of trees is given, and checking a tree.
They take their catalogs, configurations and trees from files, and work with any file system.
-/

namespace CatalogUi

/-- A command with the paths that it is given. Without a catalog or a configuration, the catalog of
the demonstration and the usual limits are taken. -/
inductive Command where
  | prompt (catalog : Option String) (outDir : String) (config : Option String)
  | validate (tree : String) (catalog : Option String) (config : Option String)
deriving DecidableEq

/-- Why a command fails. -/
inductive CommandError where
  | document (error : Json.ReadError)
  | catalog (error : CatalogError)
  | config (error : ConfigError)
  | file (error : FileError)

def CommandError.message : CommandError → String
  | .document error => "JSON error: " ++ error.message
  | .catalog error => "Catalog error: " ++ error.message
  | .config error => "Configuration error: " ++ error.message
  | .file error => "IO error: " ++ error.message

/-- What a command has to say, line by line, and its exit code. -/
structure Outcome where
  output : List String
  complaints : List String
  exitCode : UInt32
deriving DecidableEq

namespace Command

/-! ## Arguments -/

/-- The option with one of the names that an argument is, and its value if the argument holds it
too. -/
def option? (names : List String) (arg : String) : Option (String × Option String) :=
  names.findSome? fun name =>
    let flag := "--" ++ name
    let assignment := flag ++ "="
    if arg = flag then some (name, none)
    else if assignment.toList.isPrefixOf arg.toList then
      some (name, some (String.ofList (arg.toList.drop assignment.length)))
    else none

/-- An argument that cannot be the value of an option in front of it. -/
def isFlag (arg : String) : Bool :=
  arg.toList.head? = some '-' && arg ≠ "-"

/-- Adds an option. Each can be given once, and no value is empty. -/
def withOption (name value : String) (given : List (String × String)) :
    Option (List (String × String)) :=
  if value = "" || Entries.has given name then none else some (Entries.set given name value)

/-- Reads options with their values. Two dashes alone can end them. -/
def options? (names : List String) (given : List (String × String)) (args : List String) :
    Option (List (String × String)) :=
  match args with
  | [] => some given
  | ["--"] => some given
  | arg :: rest =>
    match option? names arg, rest with
    | some (name, some value), rest =>
      (withOption name value given).bind fun given => options? names given rest
    | some (name, none), value :: rest =>
      if isFlag value then none
      else (withOption name value given).bind fun given => options? names given rest
    | _, _ => none
termination_by args.length

/-- Reads a command from its arguments. -/
def ofArgs? : List String → Option Command
  | "prompt" :: args => do
    let given ← options? ["catalog", "out-dir", "config"] [] args
    return .prompt (Entries.get? given "catalog")
      ((Entries.get? given "out-dir").getD "generated") (Entries.get? given "config")
  | "validate" :: args => do
    let given ← options? ["tree", "catalog", "config"] [] args
    return .validate (← Entries.get? given "tree") (Entries.get? given "catalog")
      (Entries.get? given "config")
  | _ => none

def usage : List String := [
  "usage: prompt [--catalog FILE] [--out-dir FOLDER] [--config FILE]",
  "       validate --tree FILE [--catalog FILE] [--config FILE]"]

/-! ## Files -/

def promptFile : String := "catalog-prompt.txt"

def catalogFile : String := "catalog.json"

/-- The path of a file in a folder. -/
def pathIn (folder file : String) : String :=
  if folder.toList.getLast? = some '/' then folder ++ file else folder ++ "/" ++ file

section

variable {m : Type → Type} [Monad m] (files : FileSystem m)

/-- Does a file operation, whose refusal makes the command fail. -/
def attempt {α : Type} (operation : m (Except FileError α)) : ExceptT CommandError m α := do
  match ← operation with
  | .ok a => return a
  | .error e => throw (.file e)

def loadCatalog : Option String → ExceptT CommandError m Catalog
  | some path => do
    match Catalog.ofText (← attempt (files.read path)) with
    | .ok c => return c
    | .error (.unreadable e) => throw (.document e)
    | .error (.rejected e) => throw (.catalog e)
  | none =>
    match Demo.catalog with
    | .ok c => return c
    | .error e => throw (.catalog e)

def loadConfig : Option String → ExceptT CommandError m Config
  | some path => do
    match Config.ofText (← attempt (files.read path)) with
    | .ok config => return config
    | .error e => throw (.config e)
  | none => return Config.default

def loadTree (path : String) : ExceptT CommandError m Tree := do
  match Tree.ofText (← attempt (files.read path)) with
  | .ok tree => return tree
  | .error e => throw (.document e)

/-! ## Running -/

/-- Writes the two documents, and says where. -/
def runPrompt (catalog : Option String) (outDir : String) (config : Option String) :
    ExceptT CommandError m Outcome := do
  let catalog ← loadCatalog files catalog
  let config ← loadConfig files config
  let grounding := catalog.ground config
  let promptPath := pathIn outDir promptFile
  let catalogPath := pathIn outDir catalogFile
  attempt (files.makeFolders outDir)
  attempt (files.write promptPath grounding.text)
  attempt (files.write catalogPath grounding.catalogDocument)
  return ⟨[promptPath, catalogPath], [], 0⟩

/-- What there is to say about a tree. -/
def judge (tree : Tree) (catalog : Catalog) (config : Config) : Outcome :=
  match tree.validate catalog config with
  | .ok valid =>
    let count := toString valid.nodes.length
    ⟨["valid: " ++ count ++ " elements, root '" ++ valid.root ++ "'"], [], 0⟩
  | .error report => ⟨report.findings.map (·.message) ++ [report.message], [], 1⟩

/-- Checks a tree. -/
def runValidate (tree : String) (catalog config : Option String) :
    ExceptT CommandError m Outcome := do
  let catalog ← loadCatalog files catalog
  let config ← loadConfig files config
  let tree ← loadTree files tree
  return judge tree catalog config

def run : Command → ExceptT CommandError m Outcome
  | .prompt catalog outDir config => runPrompt files catalog outDir config
  | .validate tree catalog config => runValidate files tree catalog config

/-- Runs the command that the arguments say. -/
def runArgs (args : List String) : m Outcome :=
  match ofArgs? args with
  | none => return ⟨[], usage, 2⟩
  | some command => do
    match ← (run files command).run with
    | .ok outcome => return outcome
    | .error e => return ⟨[], ["error: " ++ e.message], 1⟩

end

end Command

end CatalogUi
