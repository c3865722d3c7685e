import TreeEdit.Error

/-!
# Tables

A table has a row for every mapping that a match holds, the match being a mapping or a sequence of
them, tags looked through. A row has the asked columns in the order asked for, each once; a column
that is missing or no scalar makes the whole table fail.
-/

namespace TreeEdit.Table

/-- The row of a mapping, continuing the columns in `row`. -/
def rowFrom (location : String) (es : Entries) (row : Entries) : List String →
    Except Mismatch Entries
  | [] => .ok row
  | column :: columns =>
    match Entries.find? (.string column) es with
    | none => .error (.missingColumn column location)
    | some value =>
      if value.isScalar then
        rowFrom location es (Entries.insert (.string column) value row) columns
      else .error (.column column location value.kind)

/-- The row of a mapping. -/
def row (columns : List String) (location : String) (es : Entries) : Except Mismatch Tree :=
  (rowFrom location es [] columns).map .mapping

/-- The rows of the items of a sequence, the first of them at position `i`. -/
def itemRows (columns : List String) (location : String) (i : Nat) : List Tree →
    Except Mismatch (List Tree)
  | [] => .ok []
  | item :: items =>
    match item.untag with
    | .mapping es => do
      let first ← row columns location es
      return first :: (← itemRows columns location (i + 1) items)
    | _ => .error (.row location i item.kind)

/-- The rows of one match. -/
def rows (columns : List String) (location : String) (t : Tree) : Except Mismatch (List Tree) :=
  match t.untag with
  | .mapping es => (row columns location es).map ([·])
  | .sequence items => itemRows columns location 0 items
  | core => .error (.source location core.kind)

/-- The rows of all matches. -/
def allRows (columns : List String) : List (String × Tree) → Except Mismatch (List Tree)
  | [] => .ok []
  | (location, t) :: rest => do
    let first ← rows columns location t
    return first ++ (← allRows columns rest)

/-- The columns of a list with commas; blanks around a name do not count and empty names are left
out. -/
def columnsOf (list : String) : List String :=
  ((Text.splitOn "," list).map Text.trim).filter (· ≠ "")

end TreeEdit.Table
