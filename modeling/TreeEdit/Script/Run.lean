import TreeEdit.Edit.Verb
import TreeEdit.Script.Basic
import TreeEdit.World

/-!
# Running scripts

A script is run line by line. Every command takes the document that the one before it gave, and its
result is the document for the next one. Macros are replaced right before a command is built, so
that they see the variables of the turn that is running; the words of a line are told apart before
that, so that what a macro stands for stays one word.

`runLines` takes what a single command does as a parameter. A command may run another script, whose
commands may do so again: `Script.runNested` bounds how deep this goes.
-/

namespace TreeEdit.Script

/-! ## From a line to its command -/

/-- A part of a command's grammar that is checked on a line. -/
def onLine (number : Nat) : Except Grammar α → Except Error α
  | .ok a => .ok a
  | .error cause => .error (.grammar number cause)

/-- Whether macros are replaced in the line as a whole and not word by word. -/
def expandsWhole (line : Line) : Bool := line.keyword = "print" || Line.hasMacro line.keyword

/-- The words of a line, their macros replaced. -/
def wordsOf (scope : Scope) (line : Line) : Except Error (List String) := do
  match Words.split? line.text with
  | none => .error (.grammar line.number .unbalanced)
  | some words => words.mapM (Macro.expand scope)

/-- What is told of a line before its command is built. -/
def lineRecord (line : Line) (expanded : String) : Record :=
  .debug ("[" ++ String.ofList (Text.digitsOf line.number) ++ "] " ++ expanded)

/-- The command of a line. -/
def commandOf (line : Line) : Run Command := do
  let scope := (← Run.context).scope
  if expandsWhole line then
    let text ← Run.ofExcept (Macro.expand scope line.text)
    Run.tell (lineRecord line text)
    Run.ofExcept (onLine line.number (Command.parse text))
  else
    let words ← Run.ofExcept (wordsOf scope line)
    Run.tell (lineRecord line (Text.joinWith " " words))
    Run.ofExcept (onLine line.number (Command.ofWords words))

/-! ## Loops and lines -/

/-- What a loop runs over: items with their positions, or values with their keys. -/
def loopItems (t : Tree) : Except Error (List (String × Tree)) :=
  match t.untag with
  | .sequence items =>
    .ok (items.zipIdx.map fun (x, i) => (String.ofList (Text.digitsOf i), x))
  | .mapping entries => entries.mapM fun (k, v) => do return (← k.plainText, v)
  | other => .error (.mismatch (.loop other.kind))

/-- One turn for every item, from a position on. -/
def turns (body : Tree → Run Tree) : (index : Nat) → List (String × Tree) → Run (List Tree)
  | _, [] => return []
  | index, (key, item) :: rest => do
    let value ← Run.ofExcept item.plainText
    Run.changeContext (·.enterIteration index key value)
    let result ← body item
    return result :: (← turns body (index + 1) rest)

/-- The context with the loop variables of an older one. -/
def restoreLoop (old new : Context) : Context := { new with loopScope := old.loopScope }

/-- A loop over a document. The results of its turns are the items of its own. -/
def loop (body : Tree → Run Tree) (input : Tree) : Run Tree := do
  let items ← Run.ofExcept (loopItems input)
  let results ← Run.lending ({ · with loopScope := [] }) restoreLoop (turns body 0 items)
  return .sequence results

/-- A step of a line: its failure tells the line. -/
def atLine (line : Line) (step : Run α) : Run α := fun w =>
  match step w with
  | (.ok a, w) => (.ok a, w)
  | (.error e, w) => (.error (.atLine line.number line.text e), w)

/-- Runs lines one after the other, `execute` doing what a command does. -/
def runLines (execute : Command → Tree → Run Tree) (lines : List Line) (input : Tree) : Run Tree :=
  match lines with
  | [] => return input
  | line :: rest => do
    match ← atLine line (commandOf line) with
    | .foreach =>
      let close ← atLine line (Run.ofExcept (matchingEnd (line :: rest) 0))
      let result ← atLine line (loop (runLines execute (rest.take (close - 1))) input)
      runLines execute (rest.drop close) result
    | .end_ => atLine line (throw (.grammar line.number .unopenedEnd))
    | command =>
      let result ← atLine line (execute command input)
      runLines execute rest result
termination_by lines.length
decreasing_by all_goals simp only [List.length_cons, List.length_take, List.length_drop]; omega

/-! ## Commands -/

/-- The verb that a `yaml` command names, with its argument loaded. -/
def verbOf (c : YamlCommand) : Run Verb := do
  let argument := c.argument.getD ""
  match c.verb with
  | .read => return .read
  | .list => return .list
  | .delete => return .delete
  | .insert => return .insert (← Run.load argument)
  | .replace => return .replace (← Run.load argument)
  | .table =>
    let columns := Table.columnsOf argument
    if columns.isEmpty then throw (.grammar 0 .noColumns) else return .table columns

/-- Applies a verb to a document. -/
def applyVerb (v : Verb) (p : Pattern) (input : Tree) : Run Tree := do
  let listDelimiter := (← Run.context).listDelimiter
  Run.tellAll (v.log p input)
  Run.ofExcept (v.apply p listDelimiter input)

/-- A pattern, or the failure to read one. -/
def patternOf (text delimiter : String) : Except Error Pattern :=
  match Pattern.compile text delimiter with
  | .ok p => .ok p
  | .error invalid => .error (.pattern invalid)

/-- Does what a `yaml` command says. -/
def runYaml (c : YamlCommand) (input : Tree) : Run Tree := do
  let delimiter := c.delimiter.getD (← Run.context).delimiter
  let p ← Run.ofExcept (patternOf c.pattern delimiter)
  let v ← verbOf c
  applyVerb v p input

/-- The script in a file. -/
def load (path : String) : Run Script := do
  Run.ofExcept (parse (← Run.readText path))

/-- The context with the base directory of an older one. -/
def restoreBase (old new : Context) : Context := { new with baseDir := old.baseDir }

/-- Runs the script in a file. Its relative paths start at its own directory. -/
def runFile (runScript : List Line → Tree → Run Tree) (reference : String) (input : Tree) :
    Run Tree := do
  let path := (Text.dropPrefix? ['@'] reference.toList).elim reference String.ofList
  let path := (← Run.context).resolvePath path
  let script ← load path
  Run.tell (.info ("Running sub-script '" ++ path ++ "'"))
  Run.lending ({ · with baseDir := (Path.parent? path).getD "" }) restoreBase
    (runScript script.lines input)

/-- Prints a text on a line of its own, or the document if the text is a dash. -/
def printText (text : String) (input : Tree) : Run Unit := do
  if text = "-" then Run.print (← Run.render .yaml input) else Run.print (text ++ "\n")

/--
Does what a command says. `base` is the level of records to which `verbose off` returns, and
`runScript` runs the lines of another script.
-/
def execute (base : Level) (runScript : List Line → Tree → Run Tree) (command : Command)
    (input : Tree) : Run Tree := do
  match command with
  | .makeNewRoot none => return .mapping []
  | .makeNewRoot (some reference) | .useAsInput reference => Run.load reference
  | .batch reference => runFile runScript reference input
  | .property space reference =>
    Run.loadProperties space (← Run.load reference)
    return input
  | .save reference =>
    Run.save reference input
    return input
  | .setProperty key value =>
    Run.changeContext (·.setGlobal key value)
    return input
  | .print text =>
    printText text input
    return input
  | .useYamlLibrary dialect =>
    Run.tell (.debug ("Switching YAML library to " ++ dialect.name))
    Run.changeContext ({ · with dialect })
    return input
  | .verbose on =>
    Run.setLevel (if on then Level.debug.max base else base)
    return input
  | .sleep pause =>
    Run.tell (.debug ("Sleeping for " ++ pause.text))
    Run.pause (pause.seconds * 1000000000 + pause.nanoseconds)
    return input
  | .expandTree => Run.ofExcept (Macro.expandTree (← Run.context).scope input)
  | .yaml c => runYaml c input
  | .foreach | .end_ => throw (.grammar 0 .bareLoop)

/-- Runs lines whose commands may run other scripts, up to so many inside each other. -/
def runNested (base : Level) : (depth : Nat) → List Line → Tree → Run Tree
  | 0, _, _ => throw .tooDeep
  | depth + 1, lines, input => runLines (execute base (runNested base depth)) lines input

/-- What is told of a script before it is run. -/
def scriptRecord (script : Script) : Record :=
  .info ("Running batch script (" ++ String.ofList (Text.digitsOf script.lines.length)
    ++ " commands)")

/--
Runs a script. `base` is the level of records when the run was set up, and is the level again
afterwards.
-/
def runFrom (base : Level) (depth : Nat) (script : Script) (input : Tree) : Run Tree := fun w =>
  let step : Run Tree := do
    Run.tell (scriptRecord script)
    runNested base depth script.lines input
  let (outcome, w') := step w
  (outcome, { w' with level := base })

/-- Runs a script. Afterwards the level of records is what it was before. -/
def run (depth : Nat) (script : Script) (input : Tree) : Run Tree := fun w =>
  runFrom w.level depth script input w

/-- How deeply scripts may run each other. -/
def maxDepth : Nat := 1000

end TreeEdit.Script
