import TreeEdit.Error

/-!
# Building TOML tables

A document is built from key paths in the order of its lines, and the rules about what may be
defined twice need to know how a table came about. A table is *implicit* when only a path went
through it, and *dotted* when that path was the key of a value. A header may define a table that is
implicit and not dotted; a dotted key may go through implicit tables; nothing else may be opened
again.

When it is done, a table becomes a mapping sorted by its keys.
-/

namespace TreeEdit.Toml

/-- What a key of an unfinished document stands for. -/
inductive Node where
  /-- a finished value -/
  | value (t : Tree)
  | table (implicit dotted : Bool) (entries : List (String × Node))
  /-- tables under a header in double brackets, the last one first -/
  | tables (elements : List (List (String × Node)))

/-- The entries of an unfinished table. -/
abbrev Table := List (String × Node)

namespace Table

/-- What a key stands for. -/
def get? (key : String) : Table → Option Node
  | [] => none
  | (k, v) :: es => if k = key then some v else get? key es

/-- The table with a key standing for something else. -/
def put (key : String) (v : Node) : Table → Table
  | [] => [(key, v)]
  | (k, w) :: es => if k = key then (k, v) :: es else (k, w) :: put key v es

/--
The table changed at a path below it. Missing tables on the way are made, as implicit ones; a path
through an array of tables goes into the last of them.
-/
def alter? (dotted : Bool) (f : (isDotted : Bool) → Table → Option Table) (isDotted : Bool) :
    List String → Table → Option Table
  | [], t => f isDotted t
  | key :: path, t =>
    match t.get? key with
    | none => (alter? dotted f dotted path []).map fun sub => t.put key (.table true dotted sub)
    | some (.value _) => none
    | some (.tables []) => none
    | some (.tables (last :: before)) =>
      (alter? dotted f false path last).map fun sub => t.put key (.tables (sub :: before))
    | some (.table implicit d sub) =>
      if dotted && !implicit then none
      else (alter? dotted f d path sub).map fun sub => t.put key (.table implicit d sub)

/-- A value put under the last of some dotted keys, in a table made for keys like it. -/
def define? (path : List String) (v : Node) (t : Table) : Option Table :=
  match path.getLast? with
  | none => none
  | some key =>
    let plain := path.length = 1
    alter? true (fun isDotted sub =>
      if (isDotted && plain) || (!isDotted && !plain) then none
      else match sub.get? key with
        | some _ => none
        | none => some (sub.put key v)) false path.dropLast t

/-- A table opened by a header. -/
def openTable? (path : List String) (root : Table) : Option Table :=
  match path.getLast? with
  | none => none
  | some key =>
    alter? false (fun _ sub =>
      match sub.get? key with
      | none => some (sub.put key (.table false false []))
      | some (.table true false es) => some (sub.put key (.table false false es))
      | some _ => none) false path.dropLast root

/-- One more table opened by a header in double brackets. -/
def openElement? (path : List String) (root : Table) : Option Table :=
  match path.getLast? with
  | none => none
  | some key =>
    alter? false (fun _ sub =>
      match sub.get? key with
      | none => some (sub.put key (.tables [[]]))
      | some (.tables elements) => some (sub.put key (.tables ([] :: elements)))
      | some _ => none) false path.dropLast root

/-- The document changed in the table that a header opened. -/
def inTable? (path : List String) (f : Table → Option Table) (root : Table) : Option Table :=
  alter? false (fun _ sub => f sub) false path root

end Table

/-- Whether a text comes before another one, character by character. -/
def textLe : List Char → List Char → Bool
  | [], _ => true
  | _ :: _, [] => false
  | a :: as, b :: bs => if a < b then true else if b < a then false else textLe as bs

/-- An entry put in the order of keys. -/
def insertSorted (k : String) (v : Tree) : List (String × Tree) → List (String × Tree)
  | [] => [(k, v)]
  | (l, w) :: es =>
    if textLe k.toList l.toList then (k, v) :: (l, w) :: es else (l, w) :: insertSorted k v es

/-- A mapping of sorted entries. -/
def mappingOf (es : List (String × Tree)) : Tree :=
  .mapping (es.map fun (k, v) => (.string k, v))

mutual

/-- The finished document. -/
def Node.toTree : Node → Tree
  | .value t => t
  | .table _ _ entries => mappingOf (sortedEntries entries)
  | .tables elements => .sequence (elementTrees [] elements)

def sortedEntries : List (String × Node) → List (String × Tree)
  | [] => []
  | (k, v) :: es => insertSorted k v.toTree (sortedEntries es)

/-- The tables of an array in their order, those after them already done. -/
def elementTrees (after : List Tree) : List (List (String × Node)) → List Tree
  | [] => after
  | last :: before => elementTrees (mappingOf (sortedEntries last) :: after) before

end

end TreeEdit.Toml
