import TreeEdit.Yaml.Ink
import TreeEdit.Yaml.Tagged.Scalar

/-!
# Writing the tagged dialect

A text is written plainly where it can be, in single quotes where it would be read as something
else, as a block where it has several lines, and in double quotes where a character of it has to be
escaped. Lines are never broken for their length. A key stands on one line with its value if it has
one line and at most 128 bytes, and after a question mark otherwise. The dashes of a sequence stand
under the key of the mapping around it.

Two kinds of document have no text: a tag under a tag, and a mapping of one entry without a tag
whose key has a tag or is a mapping of one entry.
-/

namespace TreeEdit.Yaml.Tagged

/-! ## Forms of a text -/

/-- Whether a character may be written without an escape. -/
def isPrintable (c : Char) : Bool :=
  let n := c.toNat
  n = 0x0A || (0x20 ≤ n && n ≤ 0x7E) || (0xA0 ≤ n && n < 0xFFFE && n ≠ 0xFEFF) || 0x10000 ≤ n

/-- Whether a character ends a line. -/
def isBreak (c : Char) : Bool := Dialect.tagged.isBreak c

/-- Whether nothing that belongs to a word stands next to a mark. -/
def isGap (c? : Option Char) : Bool := c?.all fun c => isBlank c || isBreak c || c = '\x00'

/--
Whether a mark of the dialect stands where it would be read as one; `before` is the character before
the text, none at its start.
-/
def hasMarks (before : Option Char) : List Char → Bool
  | [] => false
  | c :: rest =>
    let gapAfter := isGap rest.head?
    let here :=
      match before with
      | none =>
        "#,[]\x7b\x7d&*!|>'\"%@\x60".toList.contains c
          || ((c = '?' || c = ':' || c = '-') && gapAfter)
      | some b => (c = ':' && gapAfter) || (c = '#' && isGap (some b))
    here || hasMarks (some c) rest

/-- Whether two neighbours of a text satisfy a test. -/
def hasNeighbours (test : Char → Char → Bool) (s : List Char) : Bool :=
  (s.zip s.tail).any fun (a, b) => test a b

/-- Whether a text begins like the start or end of a document. -/
def startsLikeMarker : List Char → Bool
  | '-' :: '-' :: '-' :: _ | '.' :: '.' :: '.' :: _ => true
  | _ => false

/-- Whether a text has several lines. -/
def isMultiline (s : List Char) : Bool := s.any isBreak

/-- Whether a text cannot be written in a block, so that line ends have to be escaped. -/
def needsEscapes (s : List Char) : Bool :=
  s.any (fun c => !isPrintable c) || hasNeighbours (fun a b => a = ' ' && isBreak b) s

/-- The forms in which a text can be written. -/
inductive Form where
  | plain
  | single
  | double
  | block
  deriving DecidableEq

/-- Whether single quotes keep a text as it is. -/
def allowsSingle (s : List Char) : Bool :=
  !needsEscapes s && !hasNeighbours (fun a b => isBreak a && b = ' ') s

/-- Whether a text can be written without quotes. -/
def allowsPlain (s : List Char) : Bool :=
  let edge := fun c => c = ' ' || isBreak c
  !s.head?.any edge && !s.getLast?.any edge && allowsSingle s && !isMultiline s
    && !startsLikeMarker s && !hasMarks none s

/-- Whether a text can be written as a block. -/
def allowsBlock (s : List Char) : Bool :=
  !s.isEmpty && s.getLast? ≠ some ' ' && !needsEscapes s

/-- The form for a text of a document. -/
def formOf (s : List Char) : Form :=
  if s.contains '\n' then if allowsBlock s then .block else .double
  else if !looksOtherwise s && allowsPlain s then .plain
  else if allowsSingle s then .single
  else .double

/-! ## Writing a text -/

/-- Hexadecimal digits in upper case, padded to a width. -/
def hexDigits (width n : Nat) : List Char :=
  let digits := (Nat.toDigits 16 n).map Char.toUpper
  List.replicate (width - digits.length) '0' ++ digits

/-- The escape of a character. -/
def escapeOf (c : Char) : List Char :=
  '\\' ::
    match c.toNat with
    | 0x00 => ['0']
    | 0x07 => ['a']
    | 0x08 => ['b']
    | 0x09 => ['t']
    | 0x0A => ['n']
    | 0x0B => ['v']
    | 0x0C => ['f']
    | 0x0D => ['r']
    | 0x1B => ['e']
    | 0x22 => ['"']
    | 0x5C => ['\\']
    | 0x85 => ['N']
    | 0xA0 => ['_']
    | 0x2028 => ['L']
    | 0x2029 => ['P']
    | n =>
      if n < 0x100 then 'x' :: hexDigits 2 n
      else if n < 0x10000 then 'u' :: hexDigits 4 n
      else 'U' :: hexDigits 8 n

/-- A text in double quotes. -/
def writeDouble (s : List Char) (ink : Ink) : Ink :=
  let body := s.flatMap fun c =>
    if !isPrintable c || isBreak c || c = '"' || c = '\\' then escapeOf c else [c]
  (ink.separate.puts ('"' :: body ++ ['"'])).closed

/-- A text line by line; `broken` tells that a line has ended, so that indentation is due. -/
def writeLines (indent : Nat) (broken : Bool) : List Char → Ink → Ink
  | [], ink => ink
  | c :: rest, ink =>
    if isBreak c then writeLines indent true rest { ink.endLine c with indenting := true }
    else
      let ink := if broken then ink.indentTo indent else ink
      writeLines indent false rest { ink.put c with indenting := false }

/-- A text in single quotes. -/
def writeSingle (indent : Nat) (s : List Char) (ink : Ink) : Ink :=
  let body := s.flatMap fun c => if c = '\'' then ['\'', '\''] else [c]
  let ink := writeLines indent false body (ink.separate.put '\'').closed
  let ink := if s.getLast?.any isBreak then ink.indentTo indent else ink
  (ink.put '\'').closed

/-- The marks of a block: its indentation if a blank begins it, and what ends it. -/
def blockMarks (s : List Char) : List Char :=
  let indentation := if s.head?.any fun c => c = ' ' || isBreak c then ['2'] else []
  let ending :=
    match s.reverse with
    | [] => ['-']
    | c :: before =>
      if !isBreak c then ['-'] else if before.head?.all isBreak then ['+'] else []
  '|' :: indentation ++ ending

/-- A text as a block. -/
def writeBlock (indent : Nat) (s : List Char) (ink : Ink) : Ink :=
  let ink := (ink.separate.puts (blockMarks s)).endLine '\n'
  writeLines indent true s { ink with spaced := true, indenting := true }

/-- A text in a form. -/
def writeText (form : Form) (indent : Nat) (s : List Char) (ink : Ink) : Ink :=
  match form with
  | .plain => ((if s.isEmpty then ink else ink.separate).puts s).closed
  | .single => writeSingle indent s ink
  | .double => writeDouble s ink
  | .block => writeBlock indent s ink

/-! ## Tags -/

/-- A tag as the writer sees it: exactly one mark opens it. -/
def tagChars (t : Tag) : List Char :=
  match t.name.toList with
  | '!' :: rest => '!' :: rest
  | name => '!' :: name

/-- A tag in the text, with percent escapes. -/
def tagText (t : Tag) : List Char :=
  let escape (c : Char) : List Char :=
    if isWord c || ";/?:@&=+$,.~*'()[]".toList.contains c then [c]
    else (String.ofList [c]).toUTF8.toList.flatMap fun b => '%' :: hexDigits 2 b.toNat
  match tagChars t with
  | [_] => "!<%21>".toList
  | chars => '!' :: chars.tail.flatMap escape

/-- How much of a key its tag takes, in bytes. -/
def tagSize (tag : Option Tag) : Nat :=
  tag.elim 0 fun t => (String.ofList (tagChars t)).utf8ByteSize

/-- Writes a tag, if there is one. -/
def writeTag (tag : Option Tag) (ink : Ink) : Ink :=
  tag.elim ink fun t => (ink.separate.puts (tagText t)).closed

/-! ## Writing a document -/

/-- The columns of a node: that of the block around it, none for a whole document. -/
abbrev Indent := Option Nat

/-- The column of a block inside another. -/
def Indent.block : Indent → Nat
  | none => 0
  | some n => n + 2

/-- The column of the lines of a text. -/
def Indent.lines : Indent → Nat
  | none => 2
  | some n => n + 2

/-- The text of a scalar, and the form it is written in. -/
def scalarForm? : Tree → Option (List Char × Form)
  | .null => some ("null".toList, .plain)
  | .bool b => some ((if b then "true" else "false").toList, .plain)
  | .number n => some (n.text.toList, .plain)
  | .string s => some (s.toList, formOf s.toList)
  | _ => none

/-- Whether a key stands on one line with its value. -/
def isShortKey : (tag : Option Tag) → Tree → Bool
  | _, .tagged tag value => isShortKey (some tag) value
  | tag, .sequence [] | tag, .mapping [] => tagSize tag ≤ 128
  | tag, t =>
    (scalarForm? t).any fun (s, _) =>
      !isMultiline s && tagSize tag + (String.ofList s).utf8ByteSize ≤ 128

/-- Whether a key would be lost at the start of a mapping of one entry. -/
def isLostKey : Tree → Bool
  | .tagged _ _ => true
  | .mapping [_] => true
  | _ => false

mutual

/-- Whether a document has a text. -/
def isWritable (underTag : Bool) : Tree → Bool
  | .tagged _ value => !underTag && isWritable true value
  | .sequence items => areItemsWritable items
  | .mapping entries =>
    let lost := match entries with
      | [(k, _)] => !underTag && isLostKey k
      | _ => false
    !lost && areEntriesWritable entries
  | _ => true

def areItemsWritable : List Tree → Bool
  | [] => true
  | x :: xs => isWritable false x && areItemsWritable xs

def areEntriesWritable : List (Tree × Tree) → Bool
  | [] => true
  | (k, v) :: es => isWritable false k && isWritable false v && areEntriesWritable es

end

mutual

/-- Writes a node. `inMapping` tells that it is a key or value of a mapping. -/
def writeNode (tag : Option Tag) (indent : Indent) (inMapping : Bool) : Tree → Ink → Ink
  | .tagged tag value, ink => writeNode (some tag) indent inMapping value ink
  | .sequence [], ink => (((writeTag tag ink).separate.puts ['[', ']'])).closed
  | .sequence (x :: xs), ink =>
    let ink := writeTag tag ink
    let column :=
      if inMapping && !ink.indenting then indent.getD 0 else indent.block
    writeItems column (x :: xs) ink
  | .mapping [], ink => (((writeTag tag ink).separate.puts ['\x7b', '\x7d'])).closed
  | .mapping (e :: es), ink => writeEntries indent.block (e :: es) (writeTag tag ink)
  | .null, ink => writeText .plain indent.lines "null".toList (writeTag tag ink)
  | .bool b, ink =>
    writeText .plain indent.lines (if b then "true" else "false").toList (writeTag tag ink)
  | .number n, ink => writeText .plain indent.lines n.text.toList (writeTag tag ink)
  | .string s, ink => writeText (formOf s.toList) indent.lines s.toList (writeTag tag ink)

/-- Writes the items of a sequence, each after a dash at a column. -/
def writeItems (column : Nat) : List Tree → Ink → Ink
  | [], ink => ink
  | x :: xs, ink =>
    writeItems column xs (writeNode none (some column) false x ((ink.indentTo column).mark '-'))

/-- Writes the entries of a mapping at a column. -/
def writeEntries (column : Nat) : List (Tree × Tree) → Ink → Ink
  | [], ink => ink
  | (k, v) :: es, ink =>
    let ink := ink.indentTo column
    let ink :=
      if isShortKey none k then ((writeNode none (some column) true k ink).put ':').closed
      else
        let ink := writeNode none (some column) true k (ink.mark '?')
        (ink.indentTo column).mark ':'
    writeEntries column es (writeNode none (some column) true v ink)

end

/-- The text of a document, if it has one. -/
def render? (t : Tree) : Option String :=
  if isWritable false t then some ((writeNode none none false t .blank).indentTo 0).text else none

end TreeEdit.Yaml.Tagged
