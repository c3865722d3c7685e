import TreeEdit.Context.Dictionary
import TreeEdit.Files.Path
import TreeEdit.Json.Writer
import TreeEdit.Macro
import TreeEdit.Yaml.Dialect

/-!
# What commands share

A context holds the settings of a run and everything that macros can name: the variables of the
innermost loop, global properties, sets of properties under a namespace, and the environment. It
also keeps the documents stored under a name.

`Context.scope` is the order in which a macro finds its value. The namespace `BATCH` stands for the
loop, then the global properties, then the environment; `ENV` for the environment alone.
-/

namespace TreeEdit

/-- The settings and values that commands share. -/
structure Context where
  /-- what separates the segments of a pattern -/
  delimiter : String := "."
  /-- what separates the steps of a label -/
  listDelimiter : String := ","
  dialect : Dialect := .tagged
  /-- the directory from which relative paths start -/
  baseDir : String := ""
  /-- the variables of the innermost loop -/
  loopScope : Dictionary String := []
  globals : Dictionary String := []
  /-- sets of properties by namespace -/
  namespaces : Dictionary (Dictionary String) := []
  /-- documents by name -/
  store : Dictionary Tree := []
  environment : Dictionary String := []

/-- The text of a scalar, or a collection as JSON on one line. -/
def Tree.plainText (t : Tree) : Except Error String :=
  match t.text? with
  | some text => .ok text
  | none => Json.compact t

namespace Context

/-! ## Values of macros -/

/-- The variables of one turn of a loop. -/
def iteration (index : Nat) (key value : String) : Dictionary String :=
  [("index", String.ofList (Text.digitsOf index)),
    ("index+1", String.ofList (Text.digitsOf (index + 1))), ("key", key), ("value", value)]

/-- The context in one turn of a loop. -/
def enterIteration (index : Nat) (key value : String) (c : Context) : Context :=
  { c with loopScope := iteration index key value }

/-- The context with a global property. -/
def setGlobal (key value : String) (c : Context) : Context :=
  { c with globals := c.globals.set key value }

/-- The value of a key in a namespace. -/
def scope (c : Context) : Scope := fun space key =>
  match space with
  | "BATCH" => (c.loopScope.get? key).or ((c.globals.get? key).or (c.environment.get? key))
  | "ENV" => c.environment.get? key
  | space => (c.namespaces.get? space).bind (·.get? key)

/-! ## Sets of properties -/

/-- The name of an entry inside of another. -/
def dotted (outer name : String) : String := if outer = "" then name else outer ++ "." ++ name

mutual

/--
The leaves below a name, each under its dotted name. An entry whose key has no text is left out,
with all that is below it.
-/
def flatten (name : String) (found : Dictionary String) : Tree → Except Error (Dictionary String)
  | .mapping entries => flattenEntries name found entries
  | t => do return found.set name (← t.plainText)

def flattenEntries (name : String) (found : Dictionary String) :
    List (Tree × Tree) → Except Error (Dictionary String)
  | [] => .ok found
  | (k, v) :: es =>
    match k.text? with
    | none => flattenEntries name found es
    | some key => do flattenEntries name (← flatten (dotted name key) found v) es

end

/-- The properties of a document, which must be a mapping. -/
def propertiesOf (space : String) : Tree → Except Error (Dictionary String)
  | .mapping entries => flattenEntries "" [] entries
  | _ => .error (.resource space .notProperties)

/-- The context with a set of properties. -/
def setProperties (space : String) (properties : Dictionary String) (c : Context) : Context :=
  { c with namespaces := c.namespaces.set space properties }

/-! ## Stored documents and paths -/

/-- The document stored under a name. -/
def stored? (name : String) (c : Context) : Option Tree := c.store.get? name

/-- The context with a document stored under a name. -/
def storeAs (name : String) (t : Tree) (c : Context) : Context :=
  { c with store := c.store.set name t }

/-- A path as files are named by it: relative ones start at the base directory. -/
def resolvePath (path : String) (c : Context) : String := Path.join c.baseDir path

/-- A stored document is found under its name, and the others are as before. -/
theorem stored?_storeAs (c : Context) (name other : String) (t : Tree) :
    (c.storeAs name t).stored? other = if other = name then some t else c.stored? other :=
  Dictionary.get?_set name other t c.store

end Context

end TreeEdit
