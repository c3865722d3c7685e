import TreeEdit.Error
import TreeEdit.Json.Number

/-!
# Writing JSON

A document is written on one line (`Json.compact`) or indented by two blanks (`Json.pretty`). A
tagged node becomes an object with the tag's text as its only key. The keys of objects are texts, so
numbers and truth values are quoted there, and a key of any other kind makes the document
unwritable.
-/

namespace TreeEdit.Json

/-- Four hexadecimal digits. -/
def hex4 (n : Nat) : List Char :=
  let digits := Nat.toDigits 16 n
  List.replicate (4 - digits.length) '0' ++ digits

/-- How a character is written in a string. -/
def escapeChar (c : Char) : List Char :=
  if c = '"' then ['\\', '"']
  else if c = '\\' then ['\\', '\\']
  else if c = '\x08' then ['\\', 'b']
  else if c = '\x0c' then ['\\', 'f']
  else if c = '\n' then ['\\', 'n']
  else if c = '\r' then ['\\', 'r']
  else if c = '\t' then ['\\', 't']
  else if c.toNat < 0x20 then '\\' :: 'u' :: hex4 c.toNat
  else [c]

/-- A string with its quotes. -/
def quote (s : String) : List Char := '"' :: s.toList.flatMap escapeChar ++ ['"']

/-- The text of a key; there is none for null, collections, tagged nodes and infinities. -/
def keyText? : Tree → Option String
  | .string s => some s
  | .bool b => some (if b then "true" else "false")
  | .number (.whole n) => some n.text
  | .number (.double d) => if d.isFinite then some (layout.render d) else none
  | .null | .sequence _ | .mapping _ | .tagged _ _ => none

/-- A line break with an indentation of so many levels; on one line, nothing. -/
def newline : Option Nat → List Char
  | none => []
  | some depth => '\n' :: List.replicate (2 * depth) ' '

/-- What stands between a key and its value. -/
def colon : Option Nat → List Char
  | none => [':']
  | some _ => [':', ' ']

/-- Parts between brackets, each on a line of its own when the text is indented. -/
def enclose (opening closing : Char) (depth : Option Nat) (parts : List (List Char)) :
    List Char :=
  if parts.isEmpty then [opening, closing]
  else
    let inner := depth.map (· + 1)
    opening :: List.intercalate [','] (parts.map (newline inner ++ ·)) ++ newline depth
      ++ [closing]

mutual

/-- The text of a node that stands at a depth, or on one line when no depth is given. -/
def write (depth : Option Nat) : Tree → Option (List Char)
  | .null => some "null".toList
  | .bool b => some (if b then "true" else "false").toList
  | .number n => some (numberText n).toList
  | .string s => some (quote s)
  | .sequence items => (writeItems (depth.map (· + 1)) items).map (enclose '[' ']' depth)
  | .mapping entries =>
    (writeEntries (depth.map (· + 1)) entries).map (enclose '\x7b' '\x7d' depth)
  | .tagged tag value =>
    (write (depth.map (· + 1)) value).map fun text =>
      enclose '\x7b' '\x7d' depth [quote tag.text ++ colon depth ++ text]

def writeItems (depth : Option Nat) : List Tree → Option (List (List Char))
  | [] => some []
  | x :: xs => do
    let text ← write depth x
    return text :: (← writeItems depth xs)

def writeEntries (depth : Option Nat) : List (Tree × Tree) → Option (List (List Char))
  | [] => some []
  | (k, v) :: es => do
    let key ← keyText? k
    let text ← write depth v
    return (quote key ++ colon depth ++ text) :: (← writeEntries depth es)

end

/-- A text that could not be written is a failure. -/
def ofText? : Option (List Char) → Except Error String
  | some text => .ok (String.ofList text)
  | none => .error .json

/-- The document on one line. -/
def compact (t : Tree) : Except Error String := ofText? (write none t)

/-- The document indented. -/
def pretty (t : Tree) : Except Error String := ofText? (write (some 0) t)

end TreeEdit.Json
