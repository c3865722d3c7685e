import TreeEdit.CommandLine.Arguments
import TreeEdit.Script.Run

/-!
# What the command line does

A job reads a document, changes it and writes it. Content and columns are looked at first, then the
pattern, then the input; nothing is written before all of it has succeeded. A script may write files
and print along its way, and what it did stays done when a later line fails.
-/

namespace TreeEdit.CommandLine

/-- Why a job fails, the outermost reason first. -/
inductive Failure where
  | during (doing : String) (source : Failure)
  | error (cause : Error)
  | file (fault : FileFault)
  | noColumns
  | noCompletions
  deriving DecidableEq

/-- The reasons in words. -/
def Failure.messages : Failure → List String
  | .during doing source => doing :: source.messages
  | .error cause => [cause.message]
  | .file fault => [fault.message]
  | .noColumns => ["No columns given"]
  | .noCompletions => ["Shell completions are not available"]

/-- What stands in the standard input, which need not be text. -/
structure StandardInput where
  bytes : ByteArray

instance : Coe String StandardInput := ⟨fun text => ⟨text.toUTF8⟩⟩

/-- The standard input as text, if it is that. -/
def StandardInput.text? (input : StandardInput) : Option String := String.fromUTF8? input.bytes

/-- Steps of a job. -/
abbrev Session := ExceptT Failure (StateM World)

namespace Session

/-- A step of a run whose failure stands for itself. -/
def ofRun (step : Run α) : Session α := ExceptT.adapt .error step

/-- A step of a run, with what is said if it fails. -/
def during (doing : String) (step : Run α) : Session α :=
  ExceptT.adapt (fun e => .during doing (.error e)) step

/-- The document that a job starts with, a dash being the standard input. -/
def readInput (standardInput : StandardInput) (path : String) : Session Tree := do
  if path = "-" then
    match standardInput.text? with
    | some text => ofRun do Run.ofExcept (Format.yaml.parse (← Run.context).dialect text)
    | none => throw (.during "Failed to read standard input" (.file .notText))
  else during ("Failed to read '" ++ path ++ "'") (Run.readDocument path)

/-- Puts a text in a file. -/
def writeFile (path text : String) : Session Unit := fun w =>
  match w.files.writeText path text with
  | .ok files => (.ok (), { w with files })
  | .error fault => (.error (.during ("Failed to write '" ++ path ++ "'") (.file fault)), w)

/-- The format of a result. -/
def outputFormat (json : Bool) (path : String) : Format :=
  if json then .json else if path = "-" then .yaml else Path.format path

/-- Writes the document that a job ends with, a dash being the standard output. -/
def writeOutput (json : Bool) (path : String) (t : Tree) : Session Unit := do
  let text ← ofRun (Run.render (outputFormat json path) t)
  if path = "-" then ofRun (Run.print text) else writeFile path text

/-- The verb of an edit, with its content loaded. -/
def verbOf (e : Edit) : Session Verb := do
  let argument := e.argument.getD ""
  match e.verb with
  | .read => return .read
  | .list => return .list
  | .delete => return .delete
  | .insert => return .insert (← ofRun (Run.load argument))
  | .replace => return .replace (← ofRun (Run.load argument))
  | .table =>
    let columns := Table.columnsOf argument
    if columns.isEmpty then throw .noColumns else return .table columns

/-- Applies a verb to one document. -/
def edit (standardInput : StandardInput) (e : Edit) : Session Unit := do
  let verb ← verbOf e
  let p ← ofRun do Run.ofExcept (Script.patternOf e.pattern (← Run.context).delimiter)
  let input ← readInput standardInput e.input
  writeOutput e.json e.output (← ofRun (Script.applyVerb verb p input))

/-- Runs a script. Its relative paths start at its own directory. -/
def batch (standardInput : StandardInput) (b : Batch) : Session Unit := do
  let script ← during ("Failed to load script '" ++ b.script ++ "'") (Script.load b.script)
  ofRun (Run.changeContext ({ · with baseDir := (Path.parent? b.script).getD "" }))
  let input ←
    match b.input with
    | some path => readInput standardInput path
    | none => pure .null
  let result ← ofRun (Script.run Script.maxDepth script input)
  ofRun (Run.tell (.info ("Script '" ++ b.script ++ "' finished")))
  match b.output with
  | some path => writeOutput b.json path result
  | none => return

/-- Does a job. -/
def ofJob (standardInput : StandardInput) : Job → Session Unit
  | .edit e => edit standardInput e
  | .batch b => batch standardInput b
  | .completions _ => throw .noCompletions

end Session

/-- Whether a job starts with the standard input. -/
def Job.readsStandardInput : Job → Bool
  | .edit e => e.input = "-"
  | .batch b => b.input = some "-"
  | .completions _ => false

/-- The world in which a job starts. -/
def Settings.world (s : Settings) (environment : Dictionary String) (files : Files) : World where
  context :=
    { delimiter := s.delimiter
      listDelimiter := s.listDelimiter
      dialect := s.dialect
      environment }
  files := files
  level := s.level

/-- Does what arguments ask for: its failure, if it fails, and the world after it. -/
def Invocation.run (i : Invocation) (environment : Dictionary String) (files : Files)
    (standardInput : StandardInput) : Option Failure × World :=
  match (Session.ofJob standardInput i.job).run (i.settings.world environment files) with
  | (.ok (), w) => (none, w)
  | (.error failure, w) => (some failure, w)

end TreeEdit.CommandLine
