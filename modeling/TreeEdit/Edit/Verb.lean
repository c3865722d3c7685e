import TreeEdit.Edit.Plan
import TreeEdit.Edit.Table

/-!
# What is done with the matches of a pattern

A verb is run over every match of a pattern in a document. `read`, `list` and `table` give a new
sequence; `delete`, `insert` and `replace` give the changed document. All of them accept every
match and enter every node.

The pattern for the whole document has no walk: reading gives the document, listing the pattern
itself, and deleting leaves null.
-/

namespace TreeEdit

/-- What to do with the matches of a pattern. -/
inductive Verb where
  | read
  | list
  | delete
  | insert (content : Tree)
  | replace (content : Tree)
  | table (columns : List String)

namespace Verb

/-- The word for a verb. -/
def name : Verb → String
  | .read => "read"
  | .list => "list"
  | .delete => "delete"
  | .insert _ => "insert"
  | .replace _ => "replace"
  | .table _ => "table"

/-- The walk of a document where every event is answered yes. -/
def fullWalk (p : Pattern) (document : Tree) : Walk := p.walk (fun _ => true) document

/-- The failure of a walk that had to stop. -/
def checkWalk (p : Pattern) (w : Walk) : Except Error Walk :=
  if w.accepted.isSome then .ok w else .error (.nestedSequences p.raw)

/-- The nodes that the pattern matches, with their locations. -/
def targets (p : Pattern) (document : Tree) : List (Location × Tree) :=
  if p.isRoot then [([], document)] else (fullWalk p document).foundNodes

/-- The document without the nodes at some locations, and how many of them were there. -/
def removeAll : List Location → Tree → Tree × Nat
  | [], t => (t, 0)
  | l :: ls, t =>
    match t.remove? l with
    | some (_, t) => let (t, n) := removeAll ls t; (t, n + 1)
    | none => removeAll ls t

/-- The locations to delete, the last one first, so that positions stay right. -/
def deletions (w : Walk) : List Location := (w.foundNodes.map Prod.fst).reverse

/-- The label of a match: its parent's steps, or the pattern itself for the whole document. -/
def listLabel (p : Pattern) (delimiter : String) (l : Location) : String :=
  if p.isRoot then Pattern.root else Location.label delimiter l.dropLast

/-- The place of a match in the messages of a table. -/
def tableLabel (p : Pattern) (l : Location) : String :=
  if p.isRoot then Pattern.root else Location.label p.delimiter l

/-- A failed step of a plan. -/
def ofLocated : Except Conflict.Located Tree → Except Error Tree
  | .ok t => .ok t
  | .error ⟨location, cause⟩ => .error (.conflict location cause)

/--
The result of a verb. A table fails at the first match that makes no row, also when the walk would
have had to stop after it.
-/
def apply (v : Verb) (p : Pattern) (listDelimiter : String) (document : Tree) :
    Except Error Tree :=
  let w := fullWalk p document
  let found := targets p document
  match v with
  | .read => do
    let _ ← checkWalk p w
    return .sequence (found.map Prod.snd)
  | .list => do
    let _ ← checkWalk p w
    return .sequence (found.map fun (l, _) => .string (listLabel p listDelimiter l))
  | .delete => do
    let _ ← checkWalk p w
    if p.isRoot then return .null else return (removeAll (deletions w) document).1
  | .insert content => do
    let _ ← checkWalk p w
    if p.isRoot then
      match document.merge content with
      | .ok t => return t
      | .error cause => .error (.conflict Pattern.root cause)
    else ofLocated ((Plan.ofWalk p w).insert content document)
  | .replace content => do
    let _ ← checkWalk p w
    if p.isRoot then return content
    else ofLocated ((Plan.ofWalk p w).replace content document)
  | .table columns =>
    match Table.allRows columns (found.map fun (l, t) => (tableLabel p l, t)) with
    | .error cause => .error (.mismatch cause)
    | .ok rows => do
      let _ ← checkWalk p w
      return .sequence rows

/-- What a verb tells once its walk is over. -/
def outcomeLog (v : Verb) (p : Pattern) (w : Walk) (document : Tree) : List Record :=
  if p.isRoot then []
  else match v with
    | .read | .list | .table _ => []
    | .delete =>
      let (_, n) := removeAll (deletions w) document
      [.debug ("Deleted " ++ String.ofList (Text.digitsOf n) ++ " node(s) matching '"
        ++ p.raw ++ "'")]
    | .insert content => (Plan.ofWalk p w).insertLog content document
    | .replace content => (Plan.ofWalk p w).replaceLog content document

/-- Whether the walk is seen to its end: a table stops it at a match that makes no row. -/
def walksOn (v : Verb) (p : Pattern) (document : Tree) : Bool :=
  match v with
  | .table columns =>
    (Table.allRows columns
      ((targets p document).map fun (l, t) => (tableLabel p l, t))).isOk
  | _ => true

/-- What a verb tells. -/
def log (v : Verb) (p : Pattern) (document : Tree) : List Record :=
  let w := fullWalk p document
  .debug ("yaml " ++ v.name ++ " --yamlpath '" ++ p.raw ++ "'")
    :: match w.accepted with
      | none => []
      | some accepted =>
        if v.walksOn p document || p.isRoot then
          (if accepted then []
            else [.debug ("No end-to-end match for pattern '" ++ p.raw ++ "'")])
          ++ v.outcomeLog p w document
        else []

end Verb

end TreeEdit
