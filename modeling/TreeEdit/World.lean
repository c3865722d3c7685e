import TreeEdit.Context.Basic
import TreeEdit.Context.Reference
import TreeEdit.Files.Basic
import TreeEdit.Format.Basic

/-!
# What a run changes

A run changes a `World`: the context, the files, what has been printed and what has been told. Steps
of a run are of type `Run`; one that fails leaves the world as far as it had got.

This module holds the steps that everything else is made of. `load` and `save` follow references,
and `lending` changes the context for the length of a step and gives back what it had lent, whether
the step succeeds or not.
-/

namespace TreeEdit

/-- Everything that a run can change. -/
structure World where
  context : Context := {}
  files : Files := .empty
  printed : String := ""
  /-- for how many nanoseconds the run has paused -/
  paused : Nat := 0
  /-- the records that are kept at present -/
  level : Level := .off
  log : List Record := []

/-- Steps that may change the world, and may fail. -/
abbrev Run := ExceptT Error (StateM World)

namespace Run

/-- The outcome of something that does not touch the world. -/
def ofExcept (outcome : Except Error α) : Run α := fun w => (outcome, w)

/-- The context at present. -/
def context : Run Context := fun w => (.ok w.context, w)

/-- Changes the context. -/
def changeContext (change : Context → Context) : Run Unit := fun w =>
  (.ok (), { w with context := change w.context })

/-- Changes the level of the records that are kept. -/
def setLevel (level : Level) : Run Unit := fun w => (.ok (), { w with level })

/-- Tells a record, which is kept if it is visible. -/
def tell (r : Record) : Run Unit := fun w =>
  (.ok (), if r.visible w.level then { w with log := w.log ++ [r] } else w)

/-- Tells several records. -/
def tellAll : List Record → Run Unit
  | [] => pure ()
  | r :: rs => do tell r; tellAll rs

/-- Prints a text. -/
def print (text : String) : Run Unit := fun w =>
  (.ok (), { w with printed := w.printed ++ text })

/-- Pauses for a number of nanoseconds. -/
def pause (nanoseconds : Nat) : Run Unit := fun w =>
  (.ok (), { w with paused := w.paused + nanoseconds })

/-- A step in a changed context; after it `restore` gives back what the old context had lent. -/
def lending (change : Context → Context) (restore : (old new : Context) → Context)
    (step : Run α) : Run α := fun w =>
  let (outcome, w') := step { w with context := change w.context }
  (outcome, { w' with context := restore w.context w'.context })

/-! ## Files -/

/-- The text of a file. -/
def readText (path : String) : Run String := fun w =>
  match w.files.readText path with
  | .ok text => (.ok text, w)
  | .error fault => (.error (.resource path (.file fault)), w)

/-- Puts a text in a file. -/
def writeText (path text : String) : Run Unit := fun w =>
  match w.files.writeText path text with
  | .ok files => (.ok (), { w with files })
  | .error fault => (.error (.resource path (.file fault)), w)

/-- The document in a file, in the format that the path asks for. -/
def readDocument (path : String) : Run Tree := do
  let text ← readText path
  ofExcept ((Path.format path).parse (← context).dialect text)

/-- The text of a document in a format. -/
def render (format : Format) (t : Tree) : Run String := do
  let dialect := (← context).dialect
  tellAll (format.renderLog dialect t)
  ofExcept (format.render dialect t)

/-- Puts a document in a file, in the format that the path asks for. -/
def writeDocument (path : String) (t : Tree) : Run Unit := do
  writeText path (← render (Path.format path) t)

/-! ## References -/

/-- Whether something stands where a path leads. -/
def exists_ (path : String) : Run Bool := fun w => (.ok (w.files.exists_ path), w)

/-- The document that a reference points to. -/
def load (reference : String) : Run Tree := do
  let c ← context
  match Reference.ofText reference with
  | .file path isOptional =>
    let path := c.resolvePath path
    if isOptional && !(← exists_ path) then
      tell (.debug ("Optional file '" ++ path ++ "' not found"))
      return .null
    else readDocument path
  | .stored name isOptional =>
    match c.stored? name with
    | some t => return t
    | none =>
      if isOptional then return .null else throw (.resource ("!" ++ name) .notStored)
  | .inline text => return parseInline c.dialect text

/-- Puts a document where a reference points to. -/
def save (reference : String) (t : Tree) : Run Unit := do
  match Reference.ofText reference with
  | .file path _ =>
    let path := (← context).resolvePath path
    tell (.debug ("Saving document to '" ++ path ++ "'"))
    writeDocument path t
  | .stored name _ => changeContext (·.storeAs name t)
  | .inline text => throw (.resource text .notReference)

/-- Makes the properties of a document known under a namespace. -/
def loadProperties (space : String) (t : Tree) : Run Unit := do
  let properties ← ofExcept (Context.propertiesOf space t)
  tell (.debug ("Loaded " ++ String.ofList (Text.digitsOf properties.length)
    ++ " properties into namespace '" ++ space ++ "'"))
  changeContext (·.setProperties space properties)

end Run

end TreeEdit
