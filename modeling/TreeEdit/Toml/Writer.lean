import TreeEdit.Error

/-!
# Writing TOML

A document is a table, printed as its own values first and then its tables, each under a header
with the whole path of keys. A table that only holds other tables has no header; an array that
holds tables alone is printed as one table after another. A table inside any other array stands
there in braces.

A string is written in the first of these forms that needs no escape: in double quotes, in single
quotes, over several lines in double quotes, over several lines in single quotes. If all of them
need one it is escaped in double quotes.

There is no null, no key but a text, and no whole number above `2 ^ 63`: a document with one of
these cannot be written.
-/

namespace TreeEdit.Toml

/-! ## Scalars -/

/-- Numbers are written without an exponent. -/
def layout : Layout where
  least := -400
  most := 400
  plus := false
  point := true
  nan := "nan"
  infinity := "inf"
  negativeInfinity := "-inf"

/-- The longest run of a character. -/
def longestRun (c : Char) (best run : Nat) : List Char → Nat
  | [] => max best run
  | d :: rest => if d = c then longestRun c best (run + 1) rest
    else longestRun c (max best run) 0 rest

/-- Whether a character can only be written by its number, or by a letter for it. -/
def isControl (c : Char) : Bool := (c.toNat < 0x20 && c ≠ '\t' && c ≠ '\n') || c.toNat = 0x7F

/-- An upper case hexadecimal number of four digits. -/
def hex4 (n : Nat) : List Char :=
  let digits := (Nat.toDigits 16 n).map Char.toUpper
  List.replicate (4 - digits.length) '0' ++ digits

/-- The escape of a character, if it has one. -/
def escapeOf? (c : Char) : Option (List Char) :=
  match c with
  | '\x08' => some ['\\', 'b']
  | '\t' => some ['\\', 't']
  | '\n' => some ['\\', 'n']
  | '\x0c' => some ['\\', 'f']
  | '\r' => some ['\\', 'r']
  | '"' => some ['\\', '"']
  | '\\' => some ['\\', '\\']
  | c => if c.toNat < 0x20 || c.toNat = 0x7F then some ('\\' :: 'u' :: hex4 c.toNat) else none

/-- Escaped text; over several lines, line feeds stay and only a third quote in a row is escaped. -/
def escaped (multiline : Bool) (quotes : Nat) : List Char → List Char
  | [] => []
  | c :: rest =>
    if multiline && c = '\n' then '\n' :: escaped multiline 0 rest
    else if multiline && c = '"' && quotes < 2 then '"' :: escaped multiline (quotes + 1) rest
    else (escapeOf? c).getD [c] ++ escaped multiline 0 rest

/-- A string, quoted in the first form that needs no escape. -/
def quote (s : List Char) : List Char :=
  let control := s.any isControl
  let backslash := s.contains '\\'
  let newline := s.contains '\n'
  let doubles := longestRun '"' 0 0 s
  let singles := longestRun '\'' 0 0 s
  let triple (q : Char) : List Char := [q, q, q]
  let start : List Char := if newline then ['\n'] else []
  if !control && !backslash && doubles = 0 && !newline then '"' :: s ++ ['"']
  else if !control && singles = 0 && !newline then '\'' :: s ++ ['\'']
  else if !control && !backslash && doubles ≤ 2 then triple '"' ++ start ++ s ++ triple '"'
  else if !control && singles ≤ 2 then triple '\'' ++ start ++ s ++ triple '\''
  else if newline then triple '"' ++ start ++ escaped true 0 s ++ triple '"'
  else '"' :: escaped false 0 s ++ ['"']

/-- Whether a character may stand in a key without quotes. -/
def isBare (c : Char) : Bool := Text.isLetter c || Text.isDigit c || c = '_' || c = '-'

/-- A key, quoted if it has to be. -/
def keyText (s : String) : List Char :=
  let cs := s.toList
  if !cs.isEmpty && cs.all isBare then cs
  else if !(cs.any isControl || cs.contains '\n' || cs.contains '\\' || cs.contains '"') then
    '"' :: cs ++ ['"']
  else if !(cs.any isControl || cs.contains '\n' || cs.contains '\'') then
    '\'' :: cs ++ ['\'']
  else '"' :: escaped false 0 cs ++ ['"']

/-! ## Values -/

/-- What a document is for this format: a key is a text, and tagged nodes are tables of one. -/
inductive Item where
  | scalar (text : List Char)
  | array (items : List Item)
  | table (entries : List (String × Item))

/-- The text of a number, which must fit a signed word. -/
def numberText? : Number → Option (List Char)
  | .whole n => if n.toInt < Whole.signedBound then some n.text.toList else none
  | .double d => some (layout.render d).toList

mutual

/-- The items of a document, if it can be written. -/
def itemOf? : Tree → Option Item
  | .null => none
  | .bool b => some (.scalar (if b then "true" else "false").toList)
  | .number n => (numberText? n).map .scalar
  | .string s => some (.scalar (quote s.toList))
  | .sequence items => (itemsOf? items).map .array
  | .mapping entries => (entriesOf? entries).map .table
  | .tagged tag value => (itemOf? value).map fun v => .table [(tag.text, v)]

def itemsOf? : List Tree → Option (List Item)
  | [] => some []
  | x :: xs => do
    let x ← itemOf? x
    return x :: (← itemsOf? xs)

def entriesOf? : List (Tree × Tree) → Option (List (String × Item))
  | [] => some []
  | (.string k, v) :: es => do
    let v ← itemOf? v
    return (k, v) :: (← entriesOf? es)
  | _ :: _ => none

end

mutual

/-- An item on one line. -/
def inline : Item → List Char
  | .scalar text => text
  | .array items => '[' :: List.intercalate [',', ' '] (inlineItems items) ++ [']']
  | .table [] => ['\x7b', '\x7d']
  | .table (e :: es) =>
    ['\x7b', ' '] ++ List.intercalate [',', ' '] (inlineEntries (e :: es)) ++ [' ', '\x7d']

def inlineItems : List Item → List (List Char)
  | [] => []
  | x :: xs => inline x :: inlineItems xs

def inlineEntries : List (String × Item) → List (List Char)
  | [] => []
  | (k, v) :: es => (keyText k ++ [' ', '=', ' '] ++ inline v) :: inlineEntries es

end

/-! ## Tables -/

/-- Whether an item is a table. -/
def Item.isTable : Item → Bool
  | .table _ => true
  | _ => false

/-- Whether an item is printed as a value of its table, not under a header. -/
def Item.isValue : Item → Bool
  | .scalar _ => true
  | .array items => items.isEmpty || !items.all Item.isTable
  | .table _ => false

/-- How a table is announced. -/
inductive Header where
  | root
  | single (path : List Char)
  | element (path : List Char)

/-- The lines of the values of a table. -/
def valueLines : List (String × Item) → List (List Char)
  | [] => []
  | (k, v) :: es =>
    if v.isValue then (keyText k ++ [' ', '=', ' '] ++ inline v ++ ['\n']) :: valueLines es
    else valueLines es

/-- A table without those below it: its header, if it needs one, and its values. -/
def block (header : Header) (entries : List (String × Item)) : List Char × List Char :=
  let values := (valueLines entries).flatten
  match header with
  | .root => ([], values)
  | .single path =>
    if values.isEmpty && !entries.isEmpty then ([], [])
    else ('[' :: path ++ [']', '\n'], values)
  | .element path => ('[' :: '[' :: path ++ [']', ']', '\n'], values)

/-- The path of a key below a header. -/
def Header.below (key : String) : Header → List Char
  | .root => keyText key
  | .single path | .element path => path ++ '.' :: keyText key

mutual

/-- A table and those below it, as blocks in order. -/
def tableBlocks (header : Header) : Item → List (List Char × List Char)
  | .table entries => block header entries :: entryBlocks header entries
  | .scalar _ | .array _ => []

def entryBlocks (header : Header) : List (String × Item) → List (List Char × List Char)
  | [] => []
  | (k, v) :: es =>
    (match v with
      | .table sub => tableBlocks (.single (header.below k)) (.table sub)
      | .array items =>
        if (Item.array items).isValue then [] else elementBlocks (.element (header.below k)) items
      | .scalar _ => [])
    ++ entryBlocks header es

def elementBlocks (header : Header) : List Item → List (List Char × List Char)
  | [] => []
  | x :: xs => tableBlocks header x ++ elementBlocks header xs

end

/-- The blocks one after the other, an empty line before each header but a first one. -/
def joinBlocks (first : Bool) : List (List Char × List Char) → List Char
  | [] => []
  | (header, values) :: rest =>
    if header.isEmpty && values.isEmpty then joinBlocks first rest
    else if header.isEmpty || first then header ++ values ++ joinBlocks false rest
    else '\n' :: header ++ values ++ joinBlocks false rest

/-- The text of a document. -/
def render (t : Tree) : Except Error String :=
  match itemOf? t with
  | some (.table entries) =>
    .ok (String.ofList (joinBlocks true (tableBlocks .root (.table entries))))
  | _ => .error (.conversion .toml .unwritable)

end TreeEdit.Toml
