import TreeEdit.Text.Blank

/-!
# Shell words

A line is cut into words as a POSIX shell cuts it, without any expansion. Spaces, tabs and line
feeds separate words; single quotes keep everything, double quotes everything but a backslash before
one of `$`, a back quote, `"`, a backslash or a line feed; a bare backslash keeps the next
character; `#` at the start of a word begins a comment. A quote that is never closed, or a
backslash at the end, makes the whole line unreadable.

The scanner is one recursion on the characters, with its place in the line as a `Place`.
-/

namespace TreeEdit.Words

/-- Where in a line the scanner is. -/
inductive Place where
  | between
  | comment
  | word
  | single
  | double
  /-- after a backslash in a word -/
  | escaped
  /-- after a backslash in double quotes -/
  | doubleEscaped
  deriving DecidableEq

/-- Whether a character separates words. -/
def isSeparator (c : Char) : Bool := c = ' ' || c = '\t' || c = '\n'

/-- Whether a backslash in double quotes takes away the meaning of a character. -/
def isQuotable (c : Char) : Bool := c = '$' || c = '\x60' || c = '"' || c = '\\'

/-- The place after a character that is read in a word outside quotes, and the word so far. -/
def inWord (word : List Char) (c : Char) : Place × List Char :=
  if c = '"' then (.double, word)
  else if c = '\'' then (.single, word)
  else if c = '\\' then (.escaped, word)
  else (.word, c :: word)

/-- The words of a line, `word` being the reverse of the one under way. -/
def scan : Place → (word : List Char) → List Char → Option (List (List Char))
  | .between, _, [] | .comment, _, [] => some []
  | .word, word, [] => some [word.reverse]
  | .single, _, [] | .double, _, [] | .escaped, _, [] | .doubleEscaped, _, [] => none
  | .between, _, c :: cs =>
    if isSeparator c then scan .between [] cs
    else if c = '#' then scan .comment [] cs
    else let (place, word) := inWord [] c; scan place word cs
  | .comment, _, c :: cs => scan (if c = '\n' then .between else .comment) [] cs
  | .word, word, c :: cs =>
    if isSeparator c then (scan .between [] cs).map (word.reverse :: ·)
    else let (place, word) := inWord word c; scan place word cs
  | .single, word, c :: cs =>
    if c = '\'' then scan .word word cs else scan .single (c :: word) cs
  | .double, word, c :: cs =>
    if c = '"' then scan .word word cs
    else if c = '\\' then scan .doubleEscaped word cs
    else scan .double (c :: word) cs
  | .escaped, word, c :: cs => scan .word (if c = '\n' then word else c :: word) cs
  | .doubleEscaped, word, c :: cs =>
    if isQuotable c then scan .double (c :: word) cs
    else if c = '\n' then scan .double word cs
    else scan .double (c :: '\\' :: word) cs

/-- The words of a line, or none if its quotes are unbalanced or a backslash ends it. -/
def split? (line : String) : Option (List String) :=
  (scan .between [] line.toList).map (·.map String.ofList)

end TreeEdit.Words
