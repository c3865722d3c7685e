import TreeEdit.Number.Reader
import TreeEdit.Toml.Table

/-!
# Reading TOML

A document is a list of lines, each a value under a key path, a header, a comment, or nothing.
Values are strings in four forms, numbers, truth values, times, arrays, and tables in braces. A
time becomes a mapping whose single key marks it as one, with the time in its standard form as
text.

The scanners give the rest of the input, or none where the text is not well formed. Arrays and
tables in braces may be nested less than eighty deep.
-/

namespace TreeEdit.Toml

/-! ## Blanks, comments and line ends -/

/-- The input without leading spaces and tabs. -/
def skipBlanks (s : List Char) : List Char := s.dropWhile fun c => c = ' ' || c = '\t'

/-- Whether a character may stand in comments and literal strings. -/
def isPrintable (c : Char) : Bool := c = '\t' || (0x20 ≤ c.toNat && c.toNat ≠ 0x7F)

/-- The rest of the input after a line feed, alone or after a carriage return. -/
def lineEnd? : List Char → Option (List Char)
  | '\n' :: rest => some rest
  | '\r' :: '\n' :: rest => some rest
  | _ => none

/-- The rest of the input after a comment, if there is one; its line end is left. -/
def skipComment : List Char → List Char
  | '#' :: rest => rest.dropWhile isPrintable
  | s => s

/-- Blanks, comments and line ends, as many as there are. -/
def skipLines : (fuel : Nat) → List Char → List Char
  | 0, s => s
  | fuel + 1, s =>
    let s := skipComment (skipBlanks s)
    match lineEnd? s with
    | some rest => skipLines fuel rest
    | none => s

/-! ## Strings -/

/-- The character that so many hexadecimal digits name. -/
def hexChar? (width : Nat) (s : List Char) : Option (Char × List Char) :=
  let digits := s.take width
  if digits.length = width then
    (Text.natOfDigits? 16 digits).bind fun n =>
      if n < 0xD800 || (0xE000 ≤ n && n < 0x110000) then some (Char.ofNat n, s.drop width)
      else none
  else none

/-- The character of an escape, after its backslash. -/
def escape? : List Char → Option (Char × List Char)
  | 'b' :: rest => some ('\x08', rest)
  | 't' :: rest => some ('\t', rest)
  | 'n' :: rest => some ('\n', rest)
  | 'f' :: rest => some ('\x0c', rest)
  | 'r' :: rest => some ('\r', rest)
  | '"' :: rest => some ('"', rest)
  | '\\' :: rest => some ('\\', rest)
  | 'u' :: rest => hexChar? 4 rest
  | 'U' :: rest => hexChar? 8 rest
  | _ => none

/-- The rest of a string in double quotes. -/
def basic? (taken : List Char) : (fuel : Nat) → List Char → Option (List Char × List Char)
  | 0, _ | _, [] => none
  | fuel + 1, c :: rest =>
    if c = '"' then some (taken.reverse, rest)
    else if c = '\\' then (escape? rest).bind fun (d, rest) => basic? (d :: taken) fuel rest
    else if isPrintable c then basic? (c :: taken) fuel rest
    else none

/-- The rest of a string in single quotes. -/
def literal? (taken : List Char) : List Char → Option (List Char × List Char)
  | [] => none
  | c :: rest =>
    if c = '\'' then some (taken.reverse, rest)
    else if isPrintable c then literal? (c :: taken) rest
    else none

/-- The input after blanks and line ends. -/
def skipSpace : List Char → List Char
  | ' ' :: rest | '\t' :: rest | '\n' :: rest | '\r' :: '\n' :: rest => skipSpace rest
  | s => s

/-- The rest of the input after a backslash that joins lines: blanks, a line end, and more. -/
def joinedLine? (s : List Char) : Option (List Char) := (lineEnd? (skipBlanks s)).map skipSpace

/-- Quotes at the end of a string over several lines: three close it, up to two before them belong
to it. -/
def closing? (q : Char) (s : List Char) : Option (List Char × List Char) :=
  let run := (s.takeWhile (· = q)).length
  if run < 3 then none
  else
    let extra := min (run - 3) 2
    some (List.replicate extra q, s.drop (extra + 3))

/-- The rest of a string over several lines, with or without escapes. -/
def multiline? (q : Char) (escapes : Bool) (taken : List Char) :
    (fuel : Nat) → List Char → Option (List Char × List Char)
  | 0, _ | _, [] => none
  | fuel + 1, c :: rest =>
    if c = q then
      match closing? q (c :: rest) with
      | some (extra, rest) => some (taken.reverse ++ extra, rest)
      | none => multiline? q escapes (q :: taken) fuel rest
    else if c = '\\' && escapes then
      match joinedLine? rest with
      | some rest => multiline? q escapes taken fuel rest
      | none => (escape? rest).bind fun (d, rest) => multiline? q escapes (d :: taken) fuel rest
    else
      match lineEnd? (c :: rest) with
      | some rest => multiline? q escapes ('\n' :: taken) fuel rest
      | none => if isPrintable c then multiline? q escapes (c :: taken) fuel rest else none

/-- The input without the line end right after the opening quotes. -/
def dropFirstLineEnd (s : List Char) : List Char := (lineEnd? s).getD s

/-- A string in any form, the input standing at its first quote. -/
def string? (s : List Char) : Option (String × List Char) :=
  let n := s.length + 1
  let text (r : Option (List Char × List Char)) : Option (String × List Char) :=
    r.map fun (cs, rest) => (String.ofList cs, rest)
  match s with
  | '"' :: '"' :: '"' :: rest => text (multiline? '"' true [] n (dropFirstLineEnd rest))
  | '\'' :: '\'' :: '\'' :: rest => text (multiline? '\'' false [] n (dropFirstLineEnd rest))
  | '"' :: rest => text (basic? [] n rest)
  | '\'' :: rest => text (literal? [] rest)
  | _ => none

/-! ## Keys -/

/-- Whether a character may stand in a key without quotes. -/
def isBareKey (c : Char) : Bool := Text.isLetter c || Text.isDigit c || c = '_' || c = '-'

/-- One key. -/
def key? (s : List Char) : Option (String × List Char) :=
  match s with
  | '"' :: rest => (basic? [] (rest.length + 1) rest).map fun (cs, rest) => (String.ofList cs, rest)
  | '\'' :: rest => (literal? [] rest).map fun (cs, rest) => (String.ofList cs, rest)
  | s =>
    let bare := s.takeWhile isBareKey
    if bare.isEmpty then none else some (String.ofList bare, s.dropWhile isBareKey)

/-- Keys with points between them, and blanks around the points. -/
def path? : (fuel : Nat) → List Char → Option (List String × List Char)
  | 0, _ => none
  | fuel + 1, s => do
    let (key, rest) ← key? (skipBlanks s)
    match skipBlanks rest with
    | '.' :: rest =>
      let (more, rest) ← path? fuel rest
      return (key :: more, rest)
    | rest => return ([key], rest)

/-- How deep values and paths may go. -/
def maxDepth : Nat := 80

/-- A key path of an allowed length. -/
def keyPath? (s : List Char) : Option (List String × List Char) :=
  (path? (s.length + 1) s).filter (·.1.length < maxDepth)

/-! ## Times -/

/-- So many decimal digits as a number. -/
def digits? (n : Nat) (s : List Char) : Option (Nat × List Char) :=
  let ds := s.take n
  if ds.length = n && ds.all Text.isDigit then (Text.natOfDigits? 10 ds).map (·, s.drop n)
  else none

/-- The rest of the input after a character. -/
def expect? (c : Char) : List Char → Option (List Char)
  | d :: rest => if d = c then some rest else none
  | [] => none

/-- The number of days of a month. -/
def daysOf (year month : Nat) : Nat :=
  if month = 2 then
    if (year % 4 = 0 && year % 100 ≠ 0) || year % 400 = 0 then 29 else 28
  else if month = 4 || month = 6 || month = 9 || month = 11 then 30
  else 31

/-- A date in its standard form. -/
def date? (s : List Char) : Option (List Char × List Char) := do
  let (y, s) ← digits? 4 s
  let s ← expect? '-' s
  let (m, s) ← digits? 2 s
  let s ← expect? '-' s
  let (d, s) ← digits? 2 s
  if 1 ≤ m && m ≤ 12 && 1 ≤ d && d ≤ daysOf y m then
    some (Text.padded 4 y ++ '-' :: Text.padded 2 m ++ '-' :: Text.padded 2 d, s)
  else none

/-- A fraction of a second, at most nine digits of it, without trailing zeros. -/
def fraction (s : List Char) : List Char × List Char :=
  match s with
  | '.' :: c :: rest =>
    if Text.isDigit c then
      let ds := (c :: rest).takeWhile Text.isDigit
      let kept := ((ds.take 9).reverse.dropWhile (· = '0')).reverse
      (if kept.isEmpty then [] else '.' :: kept, (c :: rest).dropWhile Text.isDigit)
    else ([], s)
  | s => ([], s)

/-- A time of day in its standard form. -/
def time? (s : List Char) : Option (List Char × List Char) := do
  let (h, s) ← digits? 2 s
  let s ← expect? ':' s
  let (m, s) ← digits? 2 s
  let s ← expect? ':' s
  let (sec, s) ← digits? 2 s
  if h < 24 && m < 60 && sec ≤ 60 then
    let (frac, s) := fraction s
    some (Text.padded 2 h ++ ':' :: Text.padded 2 m ++ ':' :: Text.padded 2 sec ++ frac, s)
  else none

/-- An offset from universal time, in its standard form; none is written as nothing. -/
def offset? (s : List Char) : Option (List Char × List Char) :=
  match s with
  | 'Z' :: rest | 'z' :: rest => some (['Z'], rest)
  | c :: rest =>
    if c = '+' || c = '-' then do
      let (h, s) ← digits? 2 rest
      let s ← expect? ':' s
      let (m, s) ← digits? 2 s
      if h < 24 && m < 60 then
        let sign := if c = '-' && h + m ≠ 0 then '-' else '+'
        some (sign :: Text.padded 2 h ++ ':' :: Text.padded 2 m, s)
      else none
    else some ([], s)
  | [] => some ([], s)

/-- A date, a time, or both with or without an offset. -/
def moment? (s : List Char) : Option (List Char × List Char) :=
  match date? s with
  | some (d, rest) =>
    match rest with
    | c :: more =>
      if c = 'T' || c = 't' || (c = ' ' && (time? more).isSome) then do
        let (t, rest) ← time? more
        let (o, rest) ← offset? rest
        return (d ++ 'T' :: t ++ o, rest)
      else some (d, rest)
    | [] => some (d, rest)
  | none => time? s

/-- The key that marks a time. -/
def momentKey : String := "$__toml_private_datetime"

/-- Whether the input looks like a date or a time. -/
def looksLikeMoment (s : List Char) : Bool :=
  let ds := s.takeWhile Text.isDigit
  match s.drop ds.length with
  | '-' :: _ => ds.length = 4
  | ':' :: _ => ds.length = 2
  | _ => false

/-! ## Numbers -/

/-- Digits of a base with single underscores between them. -/
def underscored (base : Nat) (s : List Char) : List Char × List Char :=
  match s with
  | c :: rest =>
    if (Text.digitValue? base c).isSome then
      let (more, rest) := underscored base rest
      (c :: more, rest)
    else if c = '_' then
      match rest with
      | d :: _ =>
        if (Text.digitValue? base d).isSome then
          let (more, rest) := underscored base rest
          ('_' :: more, rest)
        else ([], s)
      | [] => ([], s)
    else ([], s)
  | [] => ([], s)

/-- The digits without underscores; the first character must not be one. -/
def digitRun? (base : Nat) (s : List Char) : Option (List Char × List Char) :=
  let (ds, rest) := underscored base s
  if ds.isEmpty || ds.head? = some '_' then none else some (ds.filter (· ≠ '_'), rest)

/-- A whole number as a value, if it fits a signed word. -/
def integer? (n : Int) : Option Tree :=
  if Whole.least ≤ n && n < Whole.signedBound then
    (Whole.ofInt? n).map fun w => .number (.whole w)
  else none

/-- A sign, if there is one. -/
def sign? : List Char → Option Char × List Char
  | '+' :: rest => (some '+', rest)
  | '-' :: rest => (some '-', rest)
  | s => (none, s)

/-- Digits after a point, if there is a point. -/
def pointPart? : List Char → Option (Option (List Char) × List Char)
  | '.' :: rest => (digitRun? 10 rest).map fun (ds, rest) => (some ds, rest)
  | s => some (none, s)

/-- An exponent after its mark, if there is a mark. -/
def exponentPart? : List Char → Option (Option Int × List Char)
  | c :: rest =>
    if c = 'e' || c = 'E' then do
      let (sign, rest) := sign? rest
      let (ds, rest) ← digitRun? 10 rest
      let n ← Text.natOfDigits? 10 ds
      return (some (if sign = some '-' then -(n : Int) else n), rest)
    else some (none, c :: rest)
  | [] => some (none, [])

/-- A binary64 number, which must not be too large. -/
def float? (negative : Bool) (whole : List Char) (point : Option (List Char))
    (exponent : Option Int) : Option Tree := do
  let fraction := point.getD []
  let digits ← Text.natOfDigits? 10 (whole ++ fraction)
  match Double.ofDecimal negative digits (exponent.getD 0 - fraction.length) with
  | .infinity false => none
  | d => some (.number (.double d))

/-- A number in decimal. -/
def decimal? (s : List Char) : Option (Tree × List Char) := do
  let (sign, s) := sign? s
  let negative := sign = some '-'
  match s with
  | 'i' :: 'n' :: 'f' :: rest => some (.number (.double (.infinity negative)), rest)
  | 'n' :: 'a' :: 'n' :: rest => some (.number (.double .nan), rest)
  | s =>
    let (whole, rest) ← digitRun? 10 s
    if whole.head? = some '0' && 1 < whole.length then none
    else
      let (point, rest) ← pointPart? rest
      let (exponent, rest) ← exponentPart? rest
      match point, exponent with
      | none, none =>
        let n ← Text.natOfDigits? 10 whole
        let v ← integer? (if negative then -(n : Int) else n)
        return (v, rest)
      | _, _ =>
        let v ← float? negative whole point exponent
        return (v, rest)

/-- A whole number in a base. -/
def based? (base : Nat) (s : List Char) : Option (Tree × List Char) := do
  let (ds, rest) ← digitRun? base s
  let n ← Text.natOfDigits? base ds
  let v ← integer? n
  return (v, rest)

/-- A number, a time, or a truth value. -/
def plain? (s : List Char) : Option (Tree × List Char) :=
  match s with
  | 't' :: 'r' :: 'u' :: 'e' :: rest => some (.bool true, rest)
  | 'f' :: 'a' :: 'l' :: 's' :: 'e' :: rest => some (.bool false, rest)
  | '0' :: 'x' :: rest => based? 16 rest
  | '0' :: 'o' :: rest => based? 8 rest
  | '0' :: 'b' :: rest => based? 2 rest
  | s =>
    if looksLikeMoment s then
      (moment? s).map fun (t, rest) =>
        (.singleton momentKey (.string (String.ofList t)), rest)
    else decimal? s

/-! ## Values -/

mutual

/-- A value, `depth` being how many more may be nested. -/
def value? : (fuel depth : Nat) → List Char → Option (Tree × List Char)
  | 0, _, _ => none
  | fuel + 1, depth, s =>
    match s with
    | '[' :: rest =>
      if depth ≤ 1 then none
      else (items? fuel (depth - 1) rest).map fun (xs, rest) => (.sequence xs, rest)
    | '\x7b' :: rest =>
      if depth ≤ 1 then none
      else
        match skipBlanks rest with
        | '\x7d' :: rest => some (.mapping [], rest)
        | rest =>
          (entries? fuel (depth - 1) [] rest).map fun (t, rest) =>
            ((Node.table false false t).toTree, rest)
    | '"' :: _ | '\'' :: _ => (string? s).map fun (s, rest) => (.string s, rest)
    | s => plain? s

/-- The items of an array up to its bracket. -/
def items? : (fuel depth : Nat) → List Char → Option (List Tree × List Char)
  | 0, _, _ => none
  | fuel + 1, depth, s =>
    match skipLines (s.length + 1) s with
    | ']' :: rest => some ([], rest)
    | s => do
      let (x, rest) ← value? fuel depth s
      match skipLines (rest.length + 1) rest with
      | ',' :: rest =>
        let (xs, rest) ← items? fuel depth rest
        return (x :: xs, rest)
      | ']' :: rest => return ([x], rest)
      | _ => none

/-- The entries of a table in braces. -/
def entries? : (fuel depth : Nat) → Table → List Char → Option (Table × List Char)
  | 0, _, _, _ => none
  | fuel + 1, depth, t, s => do
    let (path, rest) ← keyPath? s
    let rest ← expect? '=' rest
    let (v, rest) ← value? fuel depth (skipBlanks rest)
    let t ← t.define? path (.value v)
    match skipBlanks rest with
    | ',' :: rest => entries? fuel depth t rest
    | '\x7d' :: rest => return (t, rest)
    | _ => none

end

/-! ## Lines -/

/-- The rest of the input after the end of a line, a comment before it left out. -/
def endOfLine? (s : List Char) : Option (List Char) :=
  match skipComment (skipBlanks s) with
  | [] => some []
  | s => lineEnd? s

/-- The rest of a document. `header` is the path of the table that lines belong to. -/
def lines? (header : List String) (root : Table) : (fuel : Nat) → List Char → Option Table
  | 0, _ => none
  | fuel + 1, s =>
    match skipLines (s.length + 1) s with
    | [] => some root
    | '[' :: '[' :: rest => do
      let (path, rest) ← keyPath? rest
      let rest ← expect? ']' rest
      let rest ← expect? ']' rest
      let rest ← endOfLine? rest
      lines? path (← root.openElement? path) fuel rest
    | '[' :: rest => do
      let (path, rest) ← keyPath? rest
      let rest ← expect? ']' rest
      let rest ← endOfLine? rest
      lines? path (← root.openTable? path) fuel rest
    | s => do
      let (path, rest) ← keyPath? s
      let rest ← expect? '=' rest
      let (v, rest) ← value? (rest.length + 1) maxDepth (skipBlanks rest)
      let rest ← endOfLine? rest
      lines? header (← root.inTable? header (·.define? path (.value v))) fuel rest

/-- The input without the mark of its byte order. -/
def dropMark : List Char → List Char
  | '\uFEFF' :: rest => rest
  | s => s

/-- The document of a text. -/
def parse (text : String) : Except Error Tree :=
  let s := dropMark text.toList
  match lines? [] [] (s.length + 1) s with
  | some root => .ok (Node.table false false root).toTree
  | none => .error (.conversion .toml .malformed)

end TreeEdit.Toml
