import TreeEdit.Pattern.Basic

/-!
# What can go wrong

Every failure is a value that names its cause with the data the cause is about. The words of all of
them are in the `message` functions here and nowhere else.

A failure on a line of a script is wrapped in that line (`Error.atLine`), once for every line that
was being run; `Error.rootCause` takes the wrapping off.
-/

namespace TreeEdit

/-- The formats that documents are read and written in. -/
inductive Format where
  | yaml
  | json
  | properties
  | toml
  deriving DecidableEq

/-- The name of a format in messages. -/
def Format.name : Format → String
  | .yaml => "YAML"
  | .json => "JSON"
  | .properties => "Properties"
  | .toml => "TOML"

/-- A match is of a kind that an operation cannot work with. -/
inductive Mismatch where
  | row (location : String) (position : Nat) (kind : Tree.Kind)
  | source (location : String) (kind : Tree.Kind)
  | missingColumn (name location : String)
  | column (name location : String) (kind : Tree.Kind)
  | loop (kind : Tree.Kind)
  deriving DecidableEq

def Mismatch.message : Mismatch → String
  | .row location position kind =>
    "table row '" ++ location ++ (Step.index position).text ++ "' is a " ++ kind.name
      ++ ", not a Mapping"
  | .source location kind =>
    "table source '" ++ location ++ "' is a " ++ kind.name
      ++ ", not a Mapping or Sequence of Mappings"
  | .missingColumn name location =>
    "column '" ++ name ++ "' is missing at '" ++ location ++ "'"
  | .column name location kind =>
    "column '" ++ name ++ "' at '" ++ location ++ "' is a " ++ kind.name ++ ", not a scalar"
  | .loop kind => "cannot loop over a " ++ kind.name

/-- An insertion would lose data, or put it where it cannot stand. -/
inductive Conflict where
  | refused (content existing : Tree.Kind)
  | targetGone
  | noChildren (kind : Tree.Kind)
  | placeGone
  | cannotCreate (segment : String) (inside : Tree.Kind)
  | openSegment (segment : String)
  deriving DecidableEq

def Conflict.message : Conflict → String
  | .refused content existing =>
    "cannot insert a " ++ content.name ++ " into an existing " ++ existing.name
  | .targetGone => "target disappeared before it could be updated"
  | .noChildren kind => "cannot update a child of a " ++ kind.name
  | .placeGone => "location disappeared before it could be extended"
  | .cannotCreate segment inside =>
    "cannot create '" ++ segment ++ "' inside a " ++ inside.name
  | .openSegment segment => "cannot create structure for wildcard segment '" ++ segment ++ "'"

/-- A script does not follow the grammar of commands. -/
inductive Grammar where
  | unknownCommand (keyword : String)
  | unopenedEnd
  | unclosedForeach
  | emptyCommand
  | expectsOne (keyword what : String)
  | expects (keyword what : String)
  | unknownLibrary (name : String)
  | notOnOrOff (word : String)
  | notSeconds (word : String)
  | noVerb
  | noOptionValue (option : String)
  | noPattern (verb : String)
  | noArgumentAllowed (verb : String)
  | oneArgument (verb : String)
  | unknownVerb (verb : String)
  | unbalanced
  | noColumns
  | bareLoop
  deriving DecidableEq

/-- The complaint about a name that is no YAML dialect's. -/
def Grammar.unknownLibraryText (name : String) : String :=
  "unknown YAML library '" ++ name ++ "' (expected serde_yaml or yaml-rust2)"

def Grammar.message : Grammar → String
  | .unknownCommand keyword => "unknown command '" ++ keyword ++ "'"
  | .unopenedEnd => "'end' without a matching 'foreach'"
  | .unclosedForeach => "'foreach' without a matching 'end'"
  | .emptyCommand => "empty command"
  | .expectsOne keyword what => "'" ++ keyword ++ "' expects exactly one " ++ what
  | .expects keyword what => "'" ++ keyword ++ "' expects " ++ what
  | .unknownLibrary name => unknownLibraryText name
  | .notOnOrOff word => "'verbose' expects on or off, not '" ++ word ++ "'"
  | .notSeconds word => "invalid sleep duration '" ++ word ++ "'"
  | .noVerb => "'yaml' expects a verb"
  | .noOptionValue option => "'" ++ option ++ "' expects a value"
  | .noPattern verb => "'yaml " ++ verb ++ "' needs --yamlpath"
  | .noArgumentAllowed verb => "'yaml " ++ verb ++ "' takes no argument"
  | .oneArgument verb => "'yaml " ++ verb ++ "' expects exactly one argument"
  | .unknownVerb verb => "unknown yaml verb '" ++ verb ++ "'"
  | .unbalanced => "unbalanced quotes or trailing backslash"
  | .noColumns => "'yaml table' needs at least one column"
  | .bareLoop => "loop commands cannot be executed on their own"

/-- A file cannot be read or written. -/
inductive FileFault where
  | notFound
  | notDirectory
  | isDirectory
  | notText
  | invalidPath
  | tooLong
  deriving DecidableEq

def FileFault.message : FileFault → String
  | .notFound => "No such file or directory (os error 2)"
  | .notDirectory => "Not a directory (os error 20)"
  | .isDirectory => "Is a directory (os error 21)"
  | .notText => "stream did not contain valid UTF-8"
  | .invalidPath => "file name contained an unexpected NUL byte"
  | .tooLong => "File name too long (os error 36)"

/-- What a reference points to is missing or cannot be used. -/
inductive Unavailable where
  | file (fault : FileFault)
  | notStored
  | notReference
  | notProperties
  deriving DecidableEq

def Unavailable.message : Unavailable → String
  | .file fault => fault.message
  | .notStored => "no value stored under this name"
  | .notReference => "expected an @file or !name reference"
  | .notProperties => "property file must contain key/value pairs"

/-- A document cannot be read from a format or written in it. -/
inductive Conversion where
  | manyDocuments (count : Nat)
  | notMapping (kind : Tree.Kind)
  | notScalar
  | malformed
  | unwritable
  deriving DecidableEq

def Conversion.message : Conversion → String
  | .manyDocuments count =>
    "expected one document, found " ++ String.ofList (Text.digitsOf count)
  | .notMapping kind => "expected a Mapping, found " ++ kind.name
  | .notScalar => "only scalar keys and values can be written"
  | .malformed => "malformed text"
  | .unwritable => "value not representable"

/-- A failure. -/
inductive Error where
  | pattern (invalid : Pattern.Invalid)
  | mismatch (cause : Mismatch)
  | conflict (location : String) (cause : Conflict)
  | grammar (line : Nat) (cause : Grammar)
  | resource (reference : String) (cause : Unavailable)
  | unresolved (token : String)
  | conversion (format : Format) (cause : Conversion)
  | nestedSequences (pattern : String)
  /-- text that is no YAML document, or a document that has no YAML text -/
  | yaml
  /-- text that is no JSON document, or a document that has no JSON text -/
  | json
  | atLine (line : Nat) (command : String) (source : Error)
  /-- scripts call each other more deeply than is allowed -/
  | tooDeep
  deriving DecidableEq

namespace Error

/-- The words of a failure. -/
def message : Error → String
  | .pattern ⟨text, fault⟩ => "Invalid path pattern '" ++ text ++ "': " ++ fault.message
  | .mismatch cause => "Match error: " ++ cause.message
  | .conflict location cause =>
    "Structural conflict at '" ++ location ++ "': " ++ cause.message
  | .grammar line cause =>
    "Batch script error (line " ++ String.ofList (Text.digitsOf line) ++ "): " ++ cause.message
  | .resource reference cause => "Resource error for '" ++ reference ++ "': " ++ cause.message
  | .unresolved token => "Unresolved macro '" ++ token ++ "'"
  | .conversion format cause => format.name ++ " conversion error: " ++ cause.message
  | .nestedSequences text =>
    "Unsupported: nested sequences under '**' in pattern '" ++ text ++ "'"
  | .yaml => "YAML error: malformed document"
  | .json => "JSON error: malformed document"
  | .atLine line command source =>
    "Batch command failed at line " ++ String.ofList (Text.digitsOf line) ++ " ('" ++ command
      ++ "'): " ++ source.message
  | .tooDeep => "Batch scripts are nested too deeply"

/-- The failure without the lines that it passed through. -/
def rootCause : Error → Error
  | .atLine _ _ source => source.rootCause
  | e => e

/-- The root cause of a failure is not wrapped in a line. -/
theorem rootCause_rootCause : ∀ e : Error, e.rootCause.rootCause = e.rootCause
  | .atLine _ _ source => rootCause_rootCause source
  | .pattern _ | .mismatch _ | .conflict _ _ | .grammar _ _ | .resource _ _ | .unresolved _
  | .conversion _ _ | .nestedSequences _ | .yaml | .json | .tooDeep => rfl

end Error

end TreeEdit
