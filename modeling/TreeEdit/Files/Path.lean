import TreeEdit.Error

/-!
# File paths

A path is a text of names between slashes. Empty names and single points do not count, except for a
point at the very beginning. Nothing here looks at files: parents and extensions are questions of
spelling, and a parent is a piece of the path as it was written.
-/

namespace TreeEdit.Path

/-- Whether a path starts at the root of all files. -/
def isAbsolute (path : String) : Bool := path.toList.head? = some '/'

/-- The names of a path. -/
def names (path : String) : List String := Text.splitOn "/" path

/-- The names that count, in order: neither empty nor a point. -/
def parts (path : String) : List String := (names path).filter fun n => n ≠ "" && n ≠ "."

/--
A reversed path without what does not count at its end: slashes, and points after a slash. A slash
at the very beginning stays.
-/
def stripEnd : List Char → List Char
  | ['/'] => ['/']
  | '/' :: rest => stripEnd rest
  | '.' :: '/' :: rest => if rest.isEmpty then ['/'] else stripEnd rest
  | s => s

/-- The directory that holds what a path names; none for the root and for the empty path. -/
def parent? (path : String) : Option String :=
  match stripEnd path.toList.reverse with
  | [] | ['/'] => none
  | s => some (String.ofList (stripEnd (s.dropWhile (· ≠ '/'))).reverse)

/-- A path taken from a directory, unless it is absolute. -/
def join (directory path : String) : String :=
  if isAbsolute path then path
  else if directory = "" || directory.toList.getLast? = some '/' then directory ++ path
  else directory ++ "/" ++ path

/-- The last name of a path; there is none if the path ends at the root or in two points. -/
def fileName? (path : String) : Option String :=
  (parts path).getLast?.filter (· ≠ "..")

/-- What follows the last point of a file name, unless the name begins with that point. -/
def extension? (path : String) : Option String :=
  (fileName? path).bind fun name =>
    let reversed := name.toList.reverse
    match Text.cutAt? '.' reversed with
    | some (extension, before) =>
      if before.isEmpty then none else some (String.ofList extension.reverse)
    | none => none

/-- The format that the extension of a path asks for. Everything that is not known is YAML. -/
def format (path : String) : Format :=
  match (extension? path).map Text.toLowerAscii with
  | some "json" => .json
  | some "properties" | some "props" => .properties
  | some "toml" => .toml
  | _ => .yaml

end TreeEdit.Path
