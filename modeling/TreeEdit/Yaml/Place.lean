import TreeEdit.Yaml.Dialect

/-!
# Places in YAML text

Indentation carries meaning in YAML, so a reader has to know where on a line it stands. A `Place` is
the text that is left together with the index, line and column reached.

The dialects differ in what ends a line: the plain one knows line feeds and carriage returns, the
tagged one also the three line ends outside ASCII. A carriage return followed by a line feed is one
line end in both. Broken lines of a scalar are joined by `foldBreaks`, and `escape?` reads what
follows a backslash in double quotes.
-/

namespace TreeEdit

namespace Dialect

/-- Whether a character ends a line. -/
def isBreak (d : Dialect) (c : Char) : Bool :=
  c = '\n' || c = '\r'
    || (d = .tagged && (c = '\x85' || c = '\u2028' || c = '\u2029'))

end Dialect

namespace Yaml

/-- A place in a text: what is left of it, and where on which line. -/
structure Place where
  rest : List Char
  index : Nat
  line : Nat
  column : Nat
  /-- only blanks stand before the place on its line -/
  fresh : Bool

/-- Whether a character is a space or a tab. -/
def isBlank (c : Char) : Bool := c = ' ' || c = '\t'

/-- Whether a character opens, closes or separates flow collections. -/
def isFlow (c : Char) : Bool :=
  c = ',' || c = '[' || c = ']' || c = '\x7b' || c = '\x7d'

/-- Whether a character may stand in the names of directives, handles and anchors. -/
def isWord (c : Char) : Bool := Text.isLetter c || Text.isDigit c || c = '_' || c = '-'

namespace Place

/-- The start of a text. -/
def start (s : List Char) : Place := ⟨s, 0, 0, 0, true⟩

/-- The character that is a number of characters ahead. -/
def peek? (p : Place) (ahead : Nat) : Option Char := p.rest[ahead]?

/-- Whether a character is ahead. -/
def sees (p : Place) (c : Char) (ahead : Nat) : Bool := p.peek? ahead == some c

/-- Whether the text is at its end. -/
def atEnd (p : Place) : Bool := p.rest.isEmpty

/-- The place after one character of a line. -/
def skip (p : Place) : Place :=
  match p.rest with
  | [] => p
  | c :: rest => ⟨rest, p.index + 1, p.line, p.column + 1, p.fresh && isBlank c⟩

/-- The place after some characters of a line. -/
def skipMany : (count : Nat) → Place → Place
  | 0, p => p
  | n + 1, p => skipMany n p.skip

/-- The characters of the line as long as they satisfy a test, and the place after them. -/
def span (test : Char → Bool) (p : Place) : List Char × Place :=
  let run := p.rest.takeWhile test
  (run, p.skipMany run.length)

/-- The place after the characters that satisfy a test. -/
def skipWhile (test : Char → Bool) (p : Place) : Place := (p.span test).2

/-- The place after spaces and tabs. -/
def skipBlanks (p : Place) : Place := p.skipWhile isBlank

/-- The start of the next line, after a line end of some characters. -/
def nextLine (count : Nat) (p : Place) : Place :=
  ⟨p.rest.drop count, p.index + count, p.line + 1, 0, true⟩

/--
The line end at a place, and the place after it. Every line end counts as a line feed but the two
separators of Unicode, which stay themselves.
-/
def readBreak? (d : Dialect) (p : Place) : Option (Char × Place) :=
  match p.rest with
  | '\r' :: '\n' :: _ => some ('\n', p.nextLine 2)
  | c :: _ =>
    if d.isBreak c then
      some (if c = '\u2028' || c = '\u2029' then c else '\n', p.nextLine 1)
    else none
  | [] => none

/-- The place after a line end, if there is one. -/
def skipBreak (d : Dialect) (p : Place) : Place := ((p.readBreak? d).map Prod.snd).getD p

/-- Whether a line end is ahead. -/
def breakAt (d : Dialect) (p : Place) (ahead : Nat) : Bool := (p.peek? ahead).any d.isBreak

/-- Whether a line end or the end of the text is ahead. -/
def lineEndAt (d : Dialect) (p : Place) (ahead : Nat) : Bool := (p.peek? ahead).all d.isBreak

/-- Whether a blank, a line end or the end of the text is ahead. -/
def gapAt (d : Dialect) (p : Place) (ahead : Nat) : Bool :=
  (p.peek? ahead).all fun c => isBlank c || d.isBreak c

/-- The place at the end of the line. -/
def skipLine (d : Dialect) (p : Place) : Place := p.skipWhile fun c => !d.isBreak c

/-- The place after a comment, if there is one. -/
def skipComment (d : Dialect) (p : Place) : Place := if p.sees '#' 0 then p.skipLine d else p

/-- Whether a line starts with three times a character and nothing joined to them. -/
def isMarker (d : Dialect) (c : Char) (p : Place) : Bool :=
  p.column == 0 && p.sees c 0 && p.sees c 1 && p.sees c 2 && p.gapAt d 3

/-- Whether a line starts or ends a document. -/
def isDocumentMarker (d : Dialect) (p : Place) : Bool := p.isMarker d '-' || p.isMarker d '.'

end Place

/-! ## Text of scalars -/

/--
What stands for the line ends between two parts of a scalar. `first` is the first line end, missing
where it was escaped, and `more` are those after it: a single line feed becomes a space, and of
several the first is dropped.
-/
def foldBreaks (first : Option Char) (more : List Char) : List Char :=
  match first with
  | none => more
  | some '\n' => if more.isEmpty then [' '] else more
  | some c => c :: more

/-- The character that a number of hexadecimal digits names. -/
def hexChar? (width : Nat) (s : List Char) : Option Char :=
  let digits := s.take width
  if digits.length = width then
    (Text.natOfDigits? 16 digits).bind fun n =>
      if n < 0xD800 || (0xE000 ≤ n && n < 0x110000) then some (Char.ofNat n) else none
  else none

/-- The character of an escape after its backslash, and how many characters the escape has there. -/
def escape? : List Char → Option (Char × Nat)
  | [] => none
  | c :: rest =>
    match c with
    | '0' => some ('\x00', 1)
    | 'a' => some ('\x07', 1)
    | 'b' => some ('\x08', 1)
    | 't' | '\t' => some ('\t', 1)
    | 'n' => some ('\n', 1)
    | 'v' => some ('\x0b', 1)
    | 'f' => some ('\x0c', 1)
    | 'r' => some ('\r', 1)
    | 'e' => some ('\x1b', 1)
    | ' ' => some (' ', 1)
    | '"' => some ('"', 1)
    | '/' => some ('/', 1)
    | '\\' => some ('\\', 1)
    | 'N' => some ('\x85', 1)
    | '_' => some ('\xa0', 1)
    | 'L' => some ('\u2028', 1)
    | 'P' => some ('\u2029', 1)
    | 'x' => (hexChar? 2 rest).map (·, 3)
    | 'u' => (hexChar? 4 rest).map (·, 5)
    | 'U' => (hexChar? 8 rest).map (·, 9)
    | _ => none

/-- The octet of a percent escape. -/
def percentOctet? : List Char → Option Nat
  | '%' :: a :: b :: _ => Text.natOfDigits? 16 [a, b]
  | _ => none

/-- How many octets a character has in UTF-8, by the first of them. -/
def octetCount? (first : Nat) : Option Nat :=
  if first < 0x80 then some 1
  else if first / 0x20 = 0b110 then some 2
  else if first / 0x10 = 0b1110 then some 3
  else if first / 0x08 = 0b11110 then some 4
  else none

/-- The octets of one character that is written in percent escapes. -/
def percentOctets? (s : List Char) : Option (List Nat) := do
  let first ← percentOctet? s
  let count ← octetCount? first
  let more ← (List.range (count - 1)).mapM fun i =>
    (percentOctet? (s.drop (3 * (i + 1)))).filter (· / 0x40 = 0b10)
  return first :: more

end Yaml

end TreeEdit
