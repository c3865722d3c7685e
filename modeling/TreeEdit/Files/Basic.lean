import TreeEdit.Files.Path

/-!
# Files

The files that a run can reach are a value: what stands at every place below the root, and which
place is the working directory. Reading, writing and asking are functions on it, and they fail as
the operating system does. Names are followed one by one, so that a missing directory is told from a
file in its place.

The working directory and the directories above it are always there; whatever else is above it or
beside it stands among the other nodes. Everything may be read and written, and nothing stands for
something else.
-/

namespace TreeEdit

/-- A file with its bytes, or a directory. -/
inductive FileNode where
  | file (bytes : ByteArray)
  | directory

/-- What stands at each place, a place being the names from the root to it. -/
structure Files where
  /-- the place that relative paths start from -/
  workingDirectory : List String
  nodes : List (List String × FileNode)

namespace Files

/-- An empty working directory, and no files elsewhere. -/
def empty : Files := ⟨["work"], []⟩

/-- What stands at a place. -/
def at? (fs : Files) (place : List String) : Option FileNode :=
  if place.isPrefixOf fs.workingDirectory then some .directory else fs.nodes.lookup place

/-- Something else at a place. -/
def put (fs : Files) (place : List String) (node : FileNode) : Files :=
  { fs with nodes := (place, node) :: fs.nodes.filter (·.1 ≠ place) }

/-- The place that a path starts from. -/
def origin (fs : Files) (path : String) : List String :=
  if Path.isAbsolute path then [] else fs.workingDirectory

/-- The places of the directories on the way to a place. -/
def ancestors : List String → List (List String)
  | [] | [_] => []
  | n :: rest => [n] :: (ancestors rest).map (n :: ·)

/-- A file put in place, together with the directories on the way to it. -/
def create (fs : Files) (path : String) (bytes : ByteArray) : Files :=
  let place := fs.origin path ++ Path.parts path
  let fs := (ancestors place).foldl (fun fs d => fs.put d .directory) fs
  fs.put place (.file bytes)

/--
The place that names lead to from a place whose directories all exist. There is nothing above the
root, so two points lead from it to itself.
-/
def follow (fs : Files) (place : List String) : List String → Except FileFault (List String)
  | [] => .ok place
  | name :: rest =>
    match fs.at? place with
    | none => .error .notFound
    | some (.file _) => .error .notDirectory
    | some .directory =>
      if name = "." then follow fs place rest
      else if name = ".." then follow fs place.dropLast rest
      else if 255 < name.utf8ByteSize then .error .tooLong
      else follow fs (place ++ [name]) rest

/-- The place that a path names. -/
def resolve (fs : Files) (path : String) : Except FileFault (List String) :=
  if path.toList.contains '\x00' then .error .invalidPath
  else if path = "" then .error .notFound
  else if 4096 ≤ path.utf8ByteSize then .error .tooLong
  else fs.follow (fs.origin path) ((Path.names path).filter (· ≠ ""))

/-- Whether a path asks for a directory by how it ends. -/
def endsInSlash (path : String) : Bool := path.toList.getLast? = some '/'

/-- Whether something stands where a path leads. -/
def exists_ (fs : Files) (path : String) : Bool :=
  match fs.resolve path with
  | .ok place =>
    match fs.at? place with
    | some .directory => true
    | some (.file _) => !endsInSlash path
    | none => false
  | .error _ => false

/-- The text of a file. -/
def readText (fs : Files) (path : String) : Except FileFault String := do
  match fs.at? (← fs.resolve path) with
  | none => throw .notFound
  | some .directory => throw .isDirectory
  | some (.file bytes) =>
    if endsInSlash path then throw .notDirectory
    match String.fromUTF8? bytes with
    | some text => return text
    | none => throw .notText

/--
The files after a text has been written to one of them, which need not exist yet. The directory that
it is in has been seen on the way.
-/
def writeText (fs : Files) (path text : String) : Except FileFault Files := do
  let place ← fs.resolve path
  match fs.at? place with
  | some .directory => throw .isDirectory
  | _ =>
    if endsInSlash path then throw .isDirectory
    return fs.put place (.file text.toUTF8)

/-- The text of a file, if there is one and it is text. -/
def text? (fs : Files) (path : String) : Option String :=
  match fs.readText path with
  | .ok text => some text
  | .error _ => none

end Files

end TreeEdit
