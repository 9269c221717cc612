import DesignTokens.Analysis

/-! # Finding and reading the configuration of a project -/
namespace DesignTokens

/-- What stands under a path of a folder; the directories above it are there as well. -/
inductive Content
  | file (bytes : ByteArray)
  | directory

/-- A directory with everything below it. Paths lead from the directory downwards, and of two
entries for one path the later counts. -/
structure Folder where
  /-- The path of the directory itself. -/
  location : String
  entries : List (List String × Content)

/-- The path of `name` inside the directory `base`. An absolute name stays as it is. -/
def joinPath (base name : String) : String :=
  if name.startsWith "/" || base.isEmpty then name
  else if base.endsWith "/" then base ++ name
  else base ++ "/" ++ name

namespace Folder

/-- The parts of a path between its slashes. -/
def pathParts (path : String) : List String :=
  (path.toList.splitOn '/').map String.ofList

/-- The directories that a path leads through from a directory, and where it ends. -/
def route (here : List String) : (parts : List String) → List (List String) × List String
  | [] => ([], here)
  | part :: parts =>
    let next :=
      if part = "" || part = "." then here
      else if part = ".." then here.dropLast
      else here ++ [part]
    let (passed, stop) := route next parts
    (here :: passed, stop)

/-- A folder that is filled with some contents under their names, along with all the directories
that the names lead through. -/
def ofContents (location : String) (contents : List (String × Content)) : Folder where
  location := location
  entries := contents.flatMap fun (name, content) =>
    let (passed, stop) := route [] (pathParts name)
    passed.map (fun path => (path, .directory)) ++ [(stop, content)]

def file? (folder : Folder) (path : List String) : Option ByteArray :=
  match (folder.entries.reverse.find? (·.1 = path)).map Prod.snd with
  | some (.file bytes) => some bytes
  | _ => none

def isDirectory (folder : Folder) (path : List String) : Bool :=
  path.isEmpty || folder.entries.any fun (p, content) =>
    match content with
    | .directory => path.isPrefixOf p
    | .file _ => path.isPrefixOf p && path ≠ p

/-- Walks along the parts of a path from one directory of the folder. Only a directory is walked
out of, and nothing is known above the folder itself. -/
def walk (folder : Folder) (here : List String) : List String → Option (List String)
  | [] => some here
  | part :: parts =>
    if !folder.isDirectory here then none
    else if part = "" || part = "." then folder.walk here parts
    else if part = ".." then
      if here.isEmpty then none else folder.walk here.dropLast parts
    else folder.walk (here ++ [part]) parts

/-- The bytes of the file at a path. -/
def read? (folder : Folder) (path : String) : Option ByteArray :=
  let location := folder.location.toList
  if location.isPrefixOf path.toList then
    match path.toList.drop location.length with
    | '/' :: rest => (folder.walk [] (pathParts (String.ofList rest))).bind folder.file?
    | _ => none
  else none

/-- The first of the names looked for under which there is a file. -/
def findConfig (folder : Folder) (root : String) (options : Options) : Except ConfigError String :=
  match (options.configFiles.map (joinPath root)).find? fun path => (folder.read? path).isSome with
  | some path => .ok path
  | none => .error (.notFound root options.configFiles)

/-- The text of a file. -/
def readText (folder : Folder) (path : String) : Except ConfigError String :=
  match (folder.read? path).bind String.fromUTF8? with
  | some text => .ok text
  | none => .error (.unreadable path)

/-- The tokens that the configuration of a project declares. -/
def extract (folder : Folder) (root : String) (options : Options) :
    Except ConfigError Declared := do
  let path ← folder.findConfig root options
  let source ← folder.readText path
  (Declared.extract source options).mapError (.faulty path)

/-- The analysis of the configuration of a project. -/
def analyze (folder : Folder) (root : String) (options : Options) :
    Except ConfigError Analysis := do
  let path ← folder.findConfig root options
  let source ← folder.readText path
  let analysis ← Analysis.ofSource source path options
  return { analysis with configPath := some path }

end Folder
end DesignTokens
