import TreeEdit.CommandLine.Session

/-!
# The program

The outer layer: it collects the environment, the files below the working directory and those that
the arguments name, hands them to `Invocation.run`, and then carries out what the world after it
shows. Changed files are written, and what was printed and told goes to the standard output and the
standard error.
-/

namespace TreeEdit.CommandLine

/-- What is printed when help is asked for or the arguments are wrong. -/
def usage : String :=
  Text.joinWith "\n" [
    "Usage: yamlbatch [OPTIONS] <COMMAND>",
    "",
    "Commands:",
    "  read     Print every subtree matching a path pattern",
    "  list     Print the location of every match",
    "  table    Project matched mappings onto a list of columns",
    "  delete   Remove every match",
    "  insert   Insert content at every match, creating missing structure",
    "  replace  Replace every match with new content",
    "  batch    Run a batch script",
    "",
    "Options:",
    "  --delimiter <DELIM>       Separator between path pattern segments",
    "  --list-delimiter <DELIM>  Separator between the steps of a list label",
    "  --yaml-library <LIBRARY>  serde_yaml or yaml-rust2",
    "  --log-level <LEVEL>       off, error, warn, info, debug or trace",
    "  -p, --yamlpath <PATTERN>  Path pattern to match",
    "  -i, --input <FILE>        Input document, - for standard input",
    "  -o, --output <FILE>       Output file, - for standard output",
    "  --json                    Write the result as JSON",
    ""]

/-- The variables in a block of `name=value` texts, each ending with a zero byte. -/
def environmentOf (block : String) : Dictionary String :=
  (Text.splitOn "\x00" block).filterMap fun entry =>
    (Text.cutAt? '=' entry.toList).map fun (name, value) =>
      (String.ofList name, String.ofList value)

/-- The environment of the program. -/
def environment : IO (Dictionary String) := do
  try
    let block ← IO.FS.readBinFile "/proc/self/environ"
    return (String.fromUTF8? block).elim [] environmentOf
  catch _ => return []

/-- A place as an absolute path. -/
def absolutePath (place : List String) : String := "/" ++ Text.joinWith "/" place

/-- The files with what a directory entry stands for. What cannot be read is left out. -/
partial def addEntry (place : List String) (files : Files) (entry : IO.FS.DirEntry) :
    IO Files := do
  let place := place ++ [entry.fileName]
  try
    if ← entry.path.isDir then
      (← entry.path.readDir).foldlM (addEntry place) (files.put place .directory)
    else return files.put place (.file (← IO.FS.readBinFile entry.path))
  catch _ => return files

/-- The files with what stands at a place, if it can be read. -/
def addPlace (files : Files) (place : List String) : IO Files := do
  try
    let path := (← IO.currentDir) / absolutePath place
    if ← path.isDir then return files.put place .directory
    else return files.put place (.file (← IO.FS.readBinFile path))
  catch _ => return files

/-- The files with what a path leads to, and the directories on the way. -/
def addPath (files : Files) (path : String) : IO Files := do
  let place := (Path.parts path).foldl
    (fun place name => if name = ".." then place.dropLast else place ++ [name]) (files.origin path)
  (Files.ancestors place ++ [place]).foldlM addPlace files

/-- The files that a job names. -/
def Job.paths : Job → List String
  | .edit e =>
    let content := match e.argument.map Reference.ofText with
      | some (.file path _) => [path]
      | _ => []
    [e.input, e.output] ++ content
  | .batch b => [b.script] ++ b.input.toList ++ b.output.toList
  | .completions _ => []

/-- The files below the working directory and those that a job names. -/
def reachableFiles (job : Job) : IO Files := do
  let here ← IO.currentDir
  let place := Path.parts here.toString
  let files ← (← here.readDir).foldlM (addEntry place) ⟨place, []⟩
  job.paths.foldlM addPath files

/-- Writes the files that are not what they were. -/
def writeChanged (old new : Files) : IO Unit := do
  for (place, node) in new.nodes do
    match node, old.at? place with
    | .file bytes, some (.file before) =>
      if bytes.data ≠ before.data then IO.FS.writeBinFile (absolutePath place) bytes
    | .file bytes, _ => IO.FS.writeBinFile (absolutePath place) bytes
    | .directory, _ => return

/-- All that is left in a stream. -/
partial def readAll (stream : IO.FS.Stream) (before : ByteArray) : IO ByteArray := do
  let bytes ← stream.read 65536
  if bytes.isEmpty then return before else readAll stream (before ++ bytes)

/-- A failure as it is printed. -/
def Failure.report (f : Failure) : String :=
  match f.messages with
  | [] => "Error"
  | [message] => "Error: " ++ message
  | message :: causes =>
    "Error: " ++ message ++ "\n\nCaused by:\n    " ++ Text.joinWith "\n    " causes

/-- Does what arguments ask for; the result is the code with which the program ends. -/
def perform (i : Invocation) : IO UInt32 := do
  let environment ← environment
  let files ← reachableFiles i.job
  let standardInput ←
    if i.job.readsStandardInput then readAll (← IO.getStdin) .empty else pure .empty
  let (failure, world) := i.run environment files ⟨standardInput⟩
  IO.sleep (UInt32.ofNat (world.paused / 1000000))
  for r in world.log do
    IO.eprintln ("[" ++ r.level.name ++ "] " ++ r.text)
  IO.print world.printed
  writeChanged files world.files
  match failure with
  | none => return 0
  | some f =>
    IO.eprintln f.report
    return 1

/-- The program, with the code with which it ends. -/
def program (arguments : List String) : IO UInt32 := do
  match Invocation.ofArguments (← environment) arguments with
  | .ok i => perform i
  | .error .help =>
    IO.println usage
    return 0
  | .error .usage =>
    IO.eprintln usage
    return 2

end TreeEdit.CommandLine

/-- The program. -/
def main (arguments : List String) : IO UInt32 := TreeEdit.CommandLine.program arguments
