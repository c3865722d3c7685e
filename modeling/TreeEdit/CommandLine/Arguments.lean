import TreeEdit.Context.Dictionary
import TreeEdit.Log
import TreeEdit.Script.Command

/-!
# Arguments of the command line

The arguments name a task. Options that every task knows may stand before the task or after it; the
options of the task and its operand stand after it.

Arguments are taken one by one, from the left. An option whose value is an argument of its own is
checked only when the next option or operand comes, or at the end (`Taken.settle`), and what stands
before the task is settled after what stands behind it. This decides whether a request for help is
seen before a mistake.

`Invocation.ofArguments` is the whole way from arguments to what is to be done.
-/

namespace TreeEdit.CommandLine

/-- Why arguments name nothing to be done. -/
inductive Stop where
  /-- help or the version was asked for -/
  | help
  | usage
  deriving DecidableEq

/-- The code with which a program ends that has nothing to do. -/
def Stop.exitCode : Stop → Nat
  | .help => 0
  | .usage => 2

/-- The tasks of the command line. -/
inductive Task where
  | edit (verb : VerbName)
  | batch
  | completions
  deriving DecidableEq

/-- The task that a word names. -/
def Task.ofWord? : String → Option Task
  | "batch" => some .batch
  | "completions" => some .completions
  | word => (VerbName.ofText? word).map .edit

/-! ## Options -/

/-- What arguments give values to. -/
inductive Key where
  | delimiter
  | listDelimiter
  | library
  | logLevel
  | pattern
  | input
  | output
  | json
  | operand
  deriving DecidableEq

/-- What an option does: it takes a value, sets a mark, or asks for help. -/
inductive Switch where
  | value (key : Key)
  | mark (key : Key)
  | help

/-- The options that are known at a place, and the operands that are allowed there. -/
structure Grammar where
  long : String → Option Switch
  short : Char → Option Switch
  hasOperand : Bool
  allows : String → Bool

namespace Grammar

/-- The options that every task knows. -/
def shared : String → Option Switch
  | "delimiter" => some (.value .delimiter)
  | "list-delimiter" => some (.value .listDelimiter)
  | "yaml-library" => some (.value .library)
  | "log-level" => some (.value .logLevel)
  | "help" => some .help
  | _ => none

/-- What may stand before the task. -/
def outer : Grammar where
  long name := if name = "version" then some .help else shared name
  short c := if c = 'h' || c = 'V' then some .help else none
  hasOperand := false
  allows _ := false

/-- The long options for a document that is read and written. -/
def document : String → Option Switch
  | "input" => some (.value .input)
  | "output" => some (.value .output)
  | "json" => some (.mark .json)
  | name => shared name

/-- The short options for a document that is read and written. -/
def documentShort : Char → Option Switch
  | 'i' => some (.value .input)
  | 'o' => some (.value .output)
  | 'h' => some .help
  | _ => none

/-- The shells for which completions are known. -/
def shells : List String := ["bash", "elvish", "fish", "powershell", "zsh"]

/-- What may stand after a task. -/
def ofTask : Task → Grammar
  | .edit verb =>
    { long := fun name => if name = "yamlpath" then some (.value .pattern) else document name
      short := fun c => if c = 'p' then some (.value .pattern) else documentShort c
      hasOperand := verb.takesArgument
      allows := fun _ => true }
  | .batch =>
    { long := document, short := documentShort, hasOperand := true, allows := (· ≠ "") }
  | .completions =>
    { long := shared
      short := fun c => if c = 'h' then some .help else none
      hasOperand := true
      allows := (· ∈ shells) }

/-- Whether a key may have a value. -/
def accepts (g : Grammar) (key : Key) (text : String) : Bool :=
  match key with
  | .library => (Dialect.ofText text).toBool
  | .logLevel => (Level.ofText? text).isSome
  | .operand => g.allows text
  | _ => true

end Grammar

/-! ## Taking arguments -/

/-- What has been taken from the arguments of a place. -/
structure Taken where
  values : List (Key × String) := []
  /-- the option or operand taken last, with its value if that is there already -/
  pending : Option (Key × Option String) := none

namespace Taken

/-- Whether the next argument is the value of the option before it. -/
def awaitsValue (t : Taken) : Bool :=
  match t.pending with
  | some (_, none) => true
  | _ => false

/-- Checks what was taken last: it has a value that is accepted, and is there for the first time. -/
def settle (g : Grammar) (t : Taken) : Except Stop Taken :=
  match t.pending with
  | none => .ok t
  | some (_, none) => .error .usage
  | some (key, some text) =>
    if (t.values.lookup key).isNone && g.accepts key text then
      .ok { values := (key, text) :: t.values, pending := none }
    else .error .usage

/-- Takes a value that is checked later. -/
def put (g : Grammar) (key : Key) (text : Option String) (t : Taken) : Except Stop Taken := do
  return { ← t.settle g with pending := some (key, text) }

/-- Takes an option, with the value that is written into the same argument. -/
def option (g : Grammar) (switch : Option Switch) (attached : Option String) (t : Taken) :
    Except Stop Taken :=
  match switch, attached with
  | some (.value key), none => t.put g key none
  | some (.value key), some text => do (← t.put g key (some text)).settle g
  | some (.mark key), none => do (← t.put g key (some "")).settle g
  | some .help, none => do
    let _ ← t.settle g
    throw .help
  | _, _ => .error .usage

/-- The value in an argument behind the letter of its option. -/
def attachedTo : List Char → Option String
  | [] => none
  | '=' :: text | text => some (String.ofList text)

/-- Takes short options written together. What follows one that takes a value is its value. -/
def letters (g : Grammar) (t : Taken) : List Char → Except Stop Taken
  | [] => .ok t
  | c :: rest =>
    match g.short c with
    | some (.value key) => t.option g (some (.value key)) (attachedTo rest)
    | switch => do letters g (← t.option g switch none) rest

/-- Takes an operand. -/
def operand (g : Grammar) (text : String) (t : Taken) : Except Stop Taken :=
  if g.hasOperand then t.put g .operand (some text) else .error .usage

/-- Takes an argument that is no option: the value of the one before it, or an operand. -/
def plain (g : Grammar) (text : String) (t : Taken) : Except Stop Taken :=
  match t.pending with
  | some (key, none) => .ok { t with pending := some (key, some text) }
  | _ => t.operand g text

end Taken

/-- What an argument is by its spelling. -/
inductive Argument where
  /-- two dashes, after which there are operands only -/
  | dashes
  | long (name : String) (attached : Option String)
  | short (letters : List Char)
  | plain (text : String)

/-- The spelling of an argument. A single dash is no option. -/
def Argument.ofText (text : String) : Argument :=
  match text.toList with
  | ['-', '-'] => .dashes
  | '-' :: '-' :: name =>
    match Text.cutAt? '=' name with
    | some (name, attached) => .long (String.ofList name) (some (String.ofList attached))
    | none => .long (String.ofList name) none
  | '-' :: c :: rest => .short (c :: rest)
  | _ => .plain text

/-- Takes operands. -/
def takeOperands (g : Grammar) (t : Taken) : List String → Except Stop Taken
  | [] => .ok t
  | text :: rest => do takeOperands g (← t.operand g text) rest

/-- Takes what stands behind the task. -/
def takeInner (g : Grammar) (t : Taken) : List String → Except Stop Taken
  | [] => t.settle g
  | argument :: rest =>
    match Argument.ofText argument with
    | .dashes =>
      if t.awaitsValue then .error .usage else do (← takeOperands g t rest).settle g
    | .long name attached => do takeInner g (← t.option g (g.long name) attached) rest
    | .short letters => do takeInner g (← t.letters g letters) rest
    | .plain text => do takeInner g (← t.plain g text) rest

/-- A request for help about a task, or about help itself. -/
def helpAbout : List String → Stop
  | [] => .help
  | [word] => if word = "help" || (Task.ofWord? word).isSome then .help else .usage
  | _ => .usage

/-- Takes what stands before the task, not yet settled, then the task; the rest stands behind it. -/
def takeOuter (t : Taken) : List String → Except Stop (Taken × Task × List String)
  | [] => .error .usage
  | argument :: rest =>
    match Argument.ofText argument with
    | .dashes => .error .usage
    | .long name attached => do
      takeOuter (← t.option .outer (Grammar.outer.long name) attached) rest
    | .short letters => do takeOuter (← t.letters .outer letters) rest
    | .plain text =>
      if t.awaitsValue then do takeOuter (← t.plain .outer text) rest
      else if text = "help" then .error (helpAbout rest)
      else
        match Task.ofWord? text with
        | some task => .ok (t, task, rest)
        | none => .error .usage

/-! ## What is to be done -/

/-- What every task knows. -/
structure Settings where
  delimiter : String
  listDelimiter : String
  dialect : Dialect
  level : Level
  deriving DecidableEq

/-- A verb applied to one document. -/
structure Edit where
  verb : VerbName
  pattern : String
  /-- content or columns -/
  argument : Option String
  input : String
  output : String
  json : Bool
  deriving DecidableEq

/-- A script that is run. -/
structure Batch where
  script : String
  input : Option String
  output : Option String
  json : Bool
  deriving DecidableEq

/-- What is to be done. -/
inductive Job where
  | edit (edit : Edit)
  | batch (batch : Batch)
  | completions (shell : String)
  deriving DecidableEq

/-- What is to be done, and how. -/
structure Invocation where
  settings : Settings
  job : Job
  deriving DecidableEq

/-- The variable that gives a key its value where no option does. -/
def Key.inEnvironment? (environment : Dictionary String) : Key → Option String
  | .delimiter => environment.get? "YAMLBATCH_DELIMITER"
  | .logLevel => environment.get? "YAMLBATCH_LOG"
  | _ => none

/-- Variables count at each place where the option is missing, and must be accepted there. -/
def checkVariables (environment : Dictionary String) (g : Grammar) (t : Taken) : Except Stop Unit :=
  let sound (key : Key) : Bool :=
    (t.values.lookup key).isSome || (key.inEnvironment? environment).all (g.accepts key)
  if sound .delimiter && sound .logLevel then .ok () else .error .usage

/-- What must not be missing. -/
def required : Option α → Except Stop α
  | some a => .ok a
  | none => .error .usage

/-- The settings: an option behind the task wins, then one before it, then the environment. -/
def Settings.of (environment : Dictionary String) (outer inner : Taken) : Except Stop Settings := do
  let value? (key : Key) : Option String :=
    (inner.values.lookup key).or ((outer.values.lookup key).or (key.inEnvironment? environment))
  return {
    delimiter := (value? .delimiter).getD "."
    listDelimiter := (value? .listDelimiter).getD ","
    dialect := ← required (Dialect.ofText ((value? .library).getD "serde_yaml")).toOption
    level := ← required (Level.ofText? ((value? .logLevel).getD "warn")) }

/-- What a task does with what has been taken for it. -/
def Job.of (task : Task) (inner : Taken) : Except Stop Job := do
  let value? (key : Key) : Option String := inner.values.lookup key
  let json := (value? .json).isSome
  match task with
  | .edit verb =>
    let pattern ← required (value? .pattern)
    if verb.takesArgument && (value? .operand).isNone then throw .usage
    return .edit {
      verb, pattern, json
      argument := value? .operand
      input := (value? .input).getD "-"
      output := (value? .output).getD "-" }
  | .batch =>
    let script ← required (value? .operand)
    return .batch { script, json, input := value? .input, output := value? .output }
  | .completions => return .completions (← required (value? .operand))

/-- What arguments ask for. -/
def Invocation.ofArguments (environment : Dictionary String) (arguments : List String) :
    Except Stop Invocation := do
  let (outer, task, rest) ← takeOuter {} arguments
  let inner ← takeInner (.ofTask task) {} rest
  let job ← Job.of task inner
  checkVariables environment (.ofTask task) inner
  let outer ← outer.settle .outer
  checkVariables environment .outer outer
  return { settings := ← Settings.of environment outer inner, job }

end TreeEdit.CommandLine
