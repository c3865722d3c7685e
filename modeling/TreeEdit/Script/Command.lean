import TreeEdit.Error
import TreeEdit.Number.Reader
import TreeEdit.Script.Words
import TreeEdit.Yaml.Dialect

/-!
# Commands

A command is a keyword with its arguments, built from the words of a line after macros have been
expanded. `print` alone takes its line whole, quotes and spacing included.

The `yaml` command names a verb and takes its pattern and delimiter as options, in either spelling
and in any order, the last of each winning; what else stands there are its positional words.
-/

namespace TreeEdit

/-- The verbs of the `yaml` command. -/
inductive VerbName where
  | read
  | list
  | delete
  | insert
  | replace
  | table
  deriving DecidableEq

namespace VerbName

/-- The word for a verb. -/
def text : VerbName → String
  | .read => "read"
  | .list => "list"
  | .delete => "delete"
  | .insert => "insert"
  | .replace => "replace"
  | .table => "table"

/-- The verb that a word names. -/
def ofText? : String → Option VerbName
  | "read" => some .read
  | "list" => some .list
  | "delete" => some .delete
  | "insert" => some .insert
  | "replace" => some .replace
  | "table" => some .table
  | _ => none

/-- Whether a verb has an argument: content, or a list of columns. -/
def takesArgument : VerbName → Bool
  | .read | .list | .delete => false
  | .insert | .replace | .table => true

end VerbName

/-- A `yaml` command. -/
structure YamlCommand where
  verb : VerbName
  pattern : String
  delimiter : Option String
  argument : Option String
  deriving DecidableEq

/-- A length of time. -/
structure Pause where
  seconds : Nat
  nanoseconds : Nat
  deriving DecidableEq

/-- A command of a script. -/
inductive Command where
  | makeNewRoot (reference : Option String)
  | batch (reference : String)
  | property (space reference : String)
  | foreach
  | end_
  | save (reference : String)
  | useAsInput (reference : String)
  | setProperty (key value : String)
  | print (text : String)
  | useYamlLibrary (dialect : Dialect)
  | verbose (on : Bool)
  | sleep (pause : Pause)
  | expandTree
  | yaml (command : YamlCommand)
  deriving DecidableEq

namespace Pause

/-- The length of a number of seconds, to the nearest nanosecond, a tie going to the even one. -/
def ofSeconds? : Double → Option Pause
  | .finite negative m =>
    if negative && m ≠ .zero then none
    else
      let n := Magnitude.roundRatio (m.units * 1000000000) (Nat.pow 2 1074)
      some ⟨n / 1000000000, n % 1000000000⟩
  | _ => none

/-- Digits after the point, `width` of them, without trailing zeros. -/
def fraction (width n : Nat) : List Char :=
  if n = 0 then []
  else '.' :: ((Text.padded width n).reverse.dropWhile (· = '0')).reverse

/-- A length of time in its largest unit below or equal to a second. -/
def text (p : Pause) : String :=
  let n := p.nanoseconds
  let (whole, rest, unit) :=
    if 0 < p.seconds then (p.seconds, fraction 9 n, "s")
    else if 1000000 ≤ n then (n / 1000000, fraction 6 (n % 1000000), "ms")
    else if 1000 ≤ n then (n / 1000, fraction 3 (n % 1000), "µs")
    else (n, [], "ns")
  String.ofList (Text.digitsOf whole ++ rest) ++ unit

end Pause

namespace Command

/-- Every keyword. -/
def keywords : List String :=
  ["makeNewRoot", "batch", "property", "foreach", "end", "saveTo", "saveAs", "useAsInput",
    "setProperty", "print", "useYamlLibrary", "verbose", "sleep", "expandTree", "yaml"]

/-- The one argument of a command. -/
def single (keyword what : String) : List String → Except Grammar String
  | [arg] => .ok arg
  | _ => .error (.expectsOne keyword what)

/-- A key and a value around the first equals sign of the joined arguments, the key not blank. -/
def assignment (keyword what : String) (args : List String) :
    Except Grammar (String × String) :=
  match Text.cutAt? '=' (Text.joinWith " " args).toList with
  | some (key, value) =>
    let key := Text.trim (String.ofList key)
    if key = "" then .error (.expects keyword what)
    else .ok (key, Text.trim (String.ofList value))
  | none => .error (.expects keyword what)

/-- A `yaml` command whose words are being sorted. -/
structure Sorted where
  pattern : Option String := none
  delimiter : Option String := none
  positional : List String := []

/-- The value of an option written as one word. -/
def inlineOption? (option word : String) : Option String :=
  (Text.dropPrefix? (option ++ "=").toList word.toList).map String.ofList

/-- Options and positional words told apart. -/
def sortWords (s : Sorted) : List String → Except Grammar Sorted
  | [] => .ok s
  | word :: rest =>
    match inlineOption? "--yamlpath" word, inlineOption? "--delimiter" word with
    | some value, _ => sortWords { s with pattern := some value } rest
    | none, some value => sortWords { s with delimiter := some value } rest
    | none, none =>
      if word = "--yamlpath" then
        match rest with
        | [] => .error (.noOptionValue word)
        | value :: rest => sortWords { s with pattern := some value } rest
      else if word = "--delimiter" then
        match rest with
        | [] => .error (.noOptionValue word)
        | value :: rest => sortWords { s with delimiter := some value } rest
      else sortWords { s with positional := s.positional ++ [word] } rest

/-- The `yaml` command of its words. -/
def yamlOfWords : List String → Except Grammar YamlCommand
  | [] => .error .noVerb
  | word :: rest => do
    let s ← sortWords {} rest
    match s.pattern with
    | none => .error (.noPattern word)
    | some pattern =>
      match VerbName.ofText? word with
      | none => .error (.unknownVerb word)
      | some verb =>
        match verb.takesArgument, s.positional with
        | false, [] => .ok ⟨verb, pattern, s.delimiter, none⟩
        | false, _ => .error (.noArgumentAllowed word)
        | true, [arg] => .ok ⟨verb, pattern, s.delimiter, some arg⟩
        | true, _ => .error (.oneArgument word)

/-- The length of time that a word writes in seconds. -/
def pauseOfText (word : String) : Except Grammar Pause :=
  match (Double.parse? word.toList).bind Pause.ofSeconds? with
  | some p => .ok p
  | none => .error (.notSeconds word)

/-- The command of a keyword and its arguments. -/
def ofKeyword (keyword : String) (args : List String) : Except Grammar Command :=
  match keyword with
  | "makeNewRoot" =>
    if args.isEmpty then .ok (.makeNewRoot none)
    else do return .makeNewRoot (some (← single keyword "reference" args))
  | "batch" => do return .batch (← single keyword "script reference" args)
  | "property" => do
    let (space, reference) ← assignment keyword "<namespace>=<file>" args
    return .property space reference
  | "foreach" => .ok .foreach
  | "end" => .ok .end_
  | "saveTo" | "saveAs" => do return .save (← single keyword "reference" args)
  | "useAsInput" => do return .useAsInput (← single keyword "reference" args)
  | "setProperty" => do
    let (key, value) ← assignment keyword "<key>=<value>" args
    return .setProperty key value
  | "print" => .error (.unknownCommand keyword)
  | "useYamlLibrary" => do
    match Dialect.ofText (← single keyword "library name" args) with
    | .ok dialect => return .useYamlLibrary dialect
    | .error name => .error (.unknownLibrary name)
  | "verbose" => do
    match Text.toLowerAscii (← single keyword "of on|off" args) with
    | "on" | "true" => return .verbose true
    | "off" | "false" => return .verbose false
    | other => .error (.notOnOrOff other)
  | "sleep" => do return .sleep (← pauseOfText (← single keyword "number of seconds" args))
  | "expandTree" => .ok .expandTree
  | "yaml" => do return .yaml (← yamlOfWords args)
  | other => .error (.unknownCommand other)

/-- The command of the words of a line. -/
def ofWords (words : List String) : Except Grammar Command :=
  match words with
  | [] => .error .emptyCommand
  | keyword :: args => ofKeyword keyword args

/-- The text of a `print` line. The keyword stands alone or before a blank. -/
def printed? (text : String) : Option String :=
  match Text.dropPrefix? "print".toList (Text.trimLeft text.toList) with
  | some [] => some ""
  | some (c :: rest) =>
    if Text.isBlank c then some (String.ofList (Text.trimChars (c :: rest))) else none
  | none => none

/-- The command of a line whose macros have been expanded. -/
def parse (text : String) : Except Grammar Command :=
  match printed? text with
  | some printed => .ok (.print printed)
  | none =>
    match Words.split? text with
    | some words => ofWords words
    | none => .error .unbalanced

end Command

end TreeEdit
