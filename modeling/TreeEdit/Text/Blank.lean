/-!
# Blank characters, words and lines

Every rule that cuts text at white space uses the same set of characters, the Unicode property
`White_Space`. This module holds the set and the four cuts made with it or beside it:

* `trim` drops blanks from both ends;
* `words` is what stands between runs of blanks;
* `lines` cuts at line feeds, a carriage return before one belonging to the break;
* `splitOn` cuts at every occurrence of a delimiter, from the left and without overlap.

All of them work on lists of characters, so that they recurse on their input.
-/

namespace TreeEdit.Text

/-- The characters with the Unicode property `White_Space`. -/
def isBlank (c : Char) : Bool :=
  let n := c.toNat
  (9 ≤ n && n ≤ 13) || n == 0x20 || n == 0x85 || n == 0xA0 || n == 0x1680
    || (0x2000 ≤ n && n ≤ 0x200A) || n == 0x2028 || n == 0x2029 || n == 0x202F
    || n == 0x205F || n == 0x3000

/-- Characters without leading blanks. -/
def trimLeft (s : List Char) : List Char := s.dropWhile isBlank

/-- Characters without trailing blanks. -/
def trimRight (s : List Char) : List Char := (s.reverse.dropWhile isBlank).reverse

/-- Characters without blanks at either end. -/
def trimChars (s : List Char) : List Char := trimRight (trimLeft s)

/-- Text without blanks at either end. -/
def trim (s : String) : String := String.ofList (trimChars s.toList)

/-- The words of a text, `word` being the reverse of the one under way. -/
def wordsFrom (word : List Char) : List Char → List (List Char)
  | [] => if word.isEmpty then [] else [word.reverse]
  | c :: rest =>
    if isBlank c then
      if word.isEmpty then wordsFrom [] rest else word.reverse :: wordsFrom [] rest
    else wordsFrom (c :: word) rest

/-- The maximal runs of characters that are not blank, in order. -/
def words (s : String) : List String := (wordsFrom [] s.toList).map String.ofList

/-- The line whose reverse is `line`, without the carriage return before its line feed. -/
def closeLine : List Char → List Char
  | '\r' :: line => line.reverse
  | line => line.reverse

/-- The lines of a text, `line` being the reverse of the one under way. -/
def linesFrom (line : List Char) : List Char → List (List Char)
  | [] => if line.isEmpty then [] else [line.reverse]
  | '\n' :: rest => closeLine line :: linesFrom [] rest
  | c :: rest => linesFrom (c :: line) rest

/-- The lines of a text. A line feed ends a line, so none stands after the last one. -/
def lines (s : String) : List String := (linesFrom [] s.toList).map String.ofList

/-- What follows `start`, if the characters begin with it. -/
def dropPrefix? : (start s : List Char) → Option (List Char)
  | [], s => some s
  | _ :: _, [] => none
  | p :: start, c :: s => if p = c then dropPrefix? start s else none

/--
The pieces of a text between delimiters. `skip` counts characters that still belong to the
delimiter just found and `piece` is the reverse of the piece under way.
-/
def splitFrom (delimiter : List Char) : (skip : Nat) → (piece : List Char) →
    List Char → List (List Char)
  | _, piece, [] => [piece.reverse]
  | skip + 1, piece, _ :: rest => splitFrom delimiter skip piece rest
  | 0, piece, c :: rest =>
    if (dropPrefix? delimiter (c :: rest)).isSome then
      piece.reverse :: splitFrom delimiter (delimiter.length - 1) [] rest
    else splitFrom delimiter 0 (c :: piece) rest

/-- The pieces of a text between the occurrences of a delimiter, found from the left. -/
def splitOn (delimiter s : String) : List String :=
  (splitFrom delimiter.toList 0 [] s.toList).map String.ofList

/-- The text before the first `c` and the text after it. -/
def cutAt? (c : Char) : List Char → Option (List Char × List Char)
  | [] => none
  | d :: rest =>
    if d = c then some ([], rest) else (cutAt? c rest).map fun (a, b) => (d :: a, b)

/-- Whether `needle` occurs in the characters. -/
def contains (needle : List Char) : List Char → Bool
  | [] => needle.isEmpty
  | c :: rest => (dropPrefix? needle (c :: rest)).isSome || contains needle rest

/-- The lower case of an ASCII letter, every other character unchanged. -/
def lowerAscii (c : Char) : Char :=
  if 'A' ≤ c && c ≤ 'Z' then Char.ofNat (c.toNat + 32) else c

/-- Text with its ASCII letters in lower case. -/
def toLowerAscii (s : String) : String := String.ofList (s.toList.map lowerAscii)

/-- Whether a character is an ASCII digit. -/
def isDigit (c : Char) : Bool := '0' ≤ c && c ≤ '9'

/-- Whether a character is an ASCII letter. -/
def isLetter (c : Char) : Bool := ('a' ≤ c && c ≤ 'z') || ('A' ≤ c && c ≤ 'Z')

/-- The value of a digit in a base of at most sixteen, letters of either case. -/
def digitValue? (base : Nat) (c : Char) : Option Nat :=
  let value? :=
    if isDigit c then some (c.toNat - 48)
    else if 'a' ≤ c && c ≤ 'f' then some (c.toNat - 87)
    else if 'A' ≤ c && c ≤ 'F' then some (c.toNat - 55)
    else none
  value?.filter (· < base)

/-- The number whose digits continue `value`. -/
def natFrom? (base value : Nat) : List Char → Option Nat
  | [] => some value
  | c :: rest => (digitValue? base c).bind fun d => natFrom? base (value * base + d) rest

/-- The number that one or more digits of a base write. -/
def natOfDigits? (base : Nat) (s : List Char) : Option Nat :=
  if s.isEmpty then none else natFrom? base 0 s

/-- The decimal digits of a number. -/
def digitsOf (n : Nat) : List Char := Nat.toDigits 10 n

/-- A number in decimal, padded with zeros on the left to a width. -/
def padded (width n : Nat) : List Char :=
  let digits := digitsOf n
  List.replicate (width - digits.length) '0' ++ digits

/-- Texts one after the other with a delimiter between each two. -/
def joinWith (delimiter : String) (pieces : List String) : String := delimiter.intercalate pieces

end TreeEdit.Text
