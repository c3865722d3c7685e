import TreeEdit.Yaml.Plain.Scalar

/-!
# Writing the plain dialect

Texts stand in double quotes where anything in them might be read otherwise. Collections inside of
a mapping are indented by two columns on lines of their own; inside of a sequence they begin on the
line of the dash. A key that is a collection stands after a question mark.
-/

namespace TreeEdit.Yaml.Plain

/-! ## Texts -/

/-- Whether a text beginning with a character stands in quotes. -/
def isQuotedStart (c : Char) : Bool := " &*?|-<>=!%@.".toList.contains c

/-- Whether a text with a character stands in quotes. -/
def isQuotedChar (c : Char) : Bool :=
  let n := c.toNat
  ":\x7b\x7d[],#\x60\"'\\".toList.contains c || n ≤ 6 || n = 9 || n = 0x0A || n = 0x0D
    || (0x0E ≤ n && n ≤ 0x1F && n ≠ 0x1B)

/-- Words that stand in quotes. -/
def quotedWords : List String :=
  ["y", "Y", "yes", "Yes", "YES", "n", "N", "no", "No", "NO", "true", "True", "TRUE",
    "false", "False", "FALSE", "on", "On", "ON", "off", "Off", "OFF", "null", "Null", "NULL", "~"]

/-- Whether a text stands in quotes. -/
def needsQuotes (s : List Char) : Bool :=
  s.isEmpty || s.head?.any isQuotedStart || s.getLast? == some ' ' || s.any isQuotedChar
    || quotedWords.contains (String.ofList s) || (Text.dropPrefix? ['0', 'x'] s).isSome
    || (Scalar.integer? 10 s).isSome || (Double.parse? s).isSome

/-- A character in double quotes. -/
def quotedChar (c : Char) : List Char :=
  match c with
  | '"' => ['\\', '"']
  | '\\' => ['\\', '\\']
  | '\x08' => ['\\', 'b']
  | '\t' => ['\\', 't']
  | '\n' => ['\\', 'n']
  | '\x0c' => ['\\', 'f']
  | '\r' => ['\\', 'r']
  | c =>
    if c.toNat < 0x20 || c.toNat = 0x7F then
      let digits := Nat.toDigits 16 c.toNat
      '\\' :: 'u' :: List.replicate (4 - digits.length) '0' ++ digits
    else [c]

/-- A text, in quotes if it needs them. -/
def textOf (s : List Char) : List Char :=
  if needsQuotes s then '"' :: s.flatMap quotedChar ++ ['"'] else s

/-- A scalar. -/
def scalarText : Scalar → List Char
  | .null => ['~']
  | .bool b => (if b then "true" else "false").toList
  | .integer n => (if n < 0 then ['-'] else []) ++ Text.digitsOf n.natAbs
  | .real text => text.toList
  | .string text => textOf text.toList

/-! ## Documents -/

/-- A new line inside of so many collections. -/
def newLine (depth : Nat) : List Char := '\n' :: List.replicate (2 * depth) ' '

/-- Whether a node is a collection. -/
def isCollection : Value → Bool
  | .sequence _ | .mapping _ => true
  | .unknown | .scalar _ => false

/-- Whether a node needs lines of its own. -/
def hasLines : Value → Bool
  | .sequence (_ :: _) | .mapping (_ :: _) => true
  | _ => false

/-- A key and its value, whose texts are given, inside of so many collections. -/
def entryText (depth : Nat) (k v : Value) (key value : List Char) : List Char :=
  if isCollection k then '?' :: ' ' :: key ++ newLine depth ++ ':' :: ' ' :: value
  else key ++ ':' :: (if hasLines v then newLine (depth + 1) else [' ']) ++ value

mutual

/-- A node inside of so many collections; a collection begins on this line. -/
def nodeText (depth : Nat) : Value → List Char
  | .unknown => ['~']
  | .scalar s => scalarText s
  | .sequence items =>
    if items.isEmpty then ['[', ']'] else (newLine depth).intercalate (itemTexts depth items)
  | .mapping entries =>
    if entries.isEmpty then ['\x7b', '\x7d']
    else (newLine depth).intercalate (entryTexts depth entries)

/-- The items of a sequence, each after its dash. -/
def itemTexts (depth : Nat) : List Value → List (List Char)
  | [] => []
  | x :: xs => ('-' :: ' ' :: nodeText (depth + 1) x) :: itemTexts depth xs

/-- The entries of a mapping. -/
def entryTexts (depth : Nat) : List (Value × Value) → List (List Char)
  | [] => []
  | (k, v) :: es =>
    entryText depth k v (nodeText (depth + 1) k) (nodeText (depth + 1) v) :: entryTexts depth es

end

/-- The text of a document. -/
def render (t : Tree) : String := String.ofList (nodeText 0 (Value.ofTree t))

end TreeEdit.Yaml.Plain
