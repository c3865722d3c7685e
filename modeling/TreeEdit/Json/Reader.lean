import TreeEdit.Error
import TreeEdit.Json.Number

/-!
# Reading JSON

A text is one value with blanks around it. The reader follows the grammar by recursive descent, each
step giving the rest of the input; every call takes at least one character, so the length of the
input is fuel enough. Values may be nested less than one hundred and twenty-eight deep. An object
that names a key twice keeps the place of the first and the value of the last.
-/

namespace TreeEdit.Json

/-- The input without leading blanks. -/
def skipBlanks (s : List Char) : List Char :=
  s.dropWhile fun c => c = ' ' || c = '\n' || c = '\t' || c = '\r'

/-! ## Strings -/

/-- The number of four hexadecimal digits. -/
def hex4? : List Char → Option (Nat × List Char)
  | a :: b :: c :: d :: rest => (Text.natOfDigits? 16 [a, b, c, d]).map (·, rest)
  | _ => none

/-- The character that an escape by number stands for; a surrogate needs its other half. -/
def unicodeEscape? (s : List Char) : Option (Char × List Char) := do
  let (n, rest) ← hex4? s
  if 0xD800 ≤ n && n < 0xDC00 then
    match rest with
    | '\\' :: 'u' :: rest =>
      let (m, rest) ← hex4? rest
      if 0xDC00 ≤ m && m < 0xE000 then
        some (Char.ofNat (0x10000 + (n - 0xD800) * 0x400 + (m - 0xDC00)), rest)
      else none
    | _ => none
  else if 0xDC00 ≤ n && n < 0xE000 then none
  else some (Char.ofNat n, rest)

/-- The character that a letter after a backslash stands for. -/
def simpleEscape? (c : Char) : Option Char :=
  match c with
  | '"' | '\\' | '/' => some c
  | 'b' => some '\x08'
  | 'f' => some '\x0c'
  | 'n' => some '\n'
  | 'r' => some '\r'
  | 't' => some '\t'
  | _ => none

/-- The rest of a string after its opening quote, `taken` being the reverse of what was read. -/
def string? : (fuel : Nat) → (taken : List Char) → List Char → Option (String × List Char)
  | 0, _, _ | _, _, [] => none
  | fuel + 1, taken, c :: rest =>
    if c = '"' then some (String.ofList taken.reverse, rest)
    else if c = '\\' then
      match rest with
      | 'u' :: rest => (unicodeEscape? rest).bind fun (d, rest) => string? fuel (d :: taken) rest
      | d :: rest => (simpleEscape? d).bind fun d => string? fuel (d :: taken) rest
      | [] => none
    else if c.toNat < 0x20 then none
    else string? fuel (c :: taken) rest

/-! ## Numbers -/

/-- The digits of a whole part: a zero alone, or digits that do not begin with one. -/
def wholePart? (s : List Char) : Option (List Char × List Char) :=
  match s with
  | '0' :: rest => if (rest.head?).any Text.isDigit then none else some (['0'], rest)
  | s =>
    let digits := s.takeWhile Text.isDigit
    if digits.isEmpty then none else some (digits, s.dropWhile Text.isDigit)

/-- The digits after a point, of which there must be one. -/
def fractionPart? : List Char → Option (List Char × List Char)
  | '.' :: rest =>
    let digits := rest.takeWhile Text.isDigit
    if digits.isEmpty then none else some (digits, rest.dropWhile Text.isDigit)
  | s => some ([], s)

/-- The number after the mark of an exponent, if there is a mark. -/
def exponentPart? : List Char → Option (Option Int × List Char)
  | c :: rest =>
    if c = 'e' || c = 'E' then
      let (negative, rest) := match rest with
        | '-' :: rest => (true, rest)
        | '+' :: rest => (false, rest)
        | rest => (false, rest)
      let digits := rest.takeWhile Text.isDigit
      (Text.natOfDigits? 10 digits).map fun n =>
        (some (if negative then -(n : Int) else n), rest.dropWhile Text.isDigit)
    else some (none, c :: rest)
  | [] => some (none, [])

/-- A number. -/
def readNumber? (s : List Char) : Option (Tree × List Char) := do
  let (negative, s) := match s with
    | '-' :: rest => (true, rest)
    | s => (false, s)
  let (whole, s) ← wholePart? s
  let (fraction, s) ← fractionPart? s
  let (exponent, s) ← exponentPart? s
  return (.number (← number? negative whole fraction exponent), s)

/-! ## Values -/

/-- What nesting is allowed. -/
def maxDepth : Nat := 128

mutual

/-- A value at the front of the input, `depth` being how many more may be nested. -/
def value? : (fuel depth : Nat) → List Char → Option (Tree × List Char)
  | 0, _, _ => none
  | fuel + 1, depth, s =>
    match skipBlanks s with
    | 'n' :: 'u' :: 'l' :: 'l' :: rest => some (.null, rest)
    | 't' :: 'r' :: 'u' :: 'e' :: rest => some (.bool true, rest)
    | 'f' :: 'a' :: 'l' :: 's' :: 'e' :: rest => some (.bool false, rest)
    | '"' :: rest => (string? (rest.length + 1) [] rest).map fun (s, rest) => (.string s, rest)
    | '[' :: rest =>
      if depth ≤ 1 then none
      else match skipBlanks rest with
        | ']' :: rest => some (.sequence [], rest)
        | rest => (items? fuel (depth - 1) rest).map fun (xs, rest) => (.sequence xs, rest)
    | '\x7b' :: rest =>
      if depth ≤ 1 then none
      else match skipBlanks rest with
        | '\x7d' :: rest => some (.mapping [], rest)
        | rest =>
          (entries? fuel (depth - 1) [] rest).map fun (es, rest) => (.mapping es, rest)
    | s => readNumber? s

/-- The items of an array up to its bracket. -/
def items? : (fuel depth : Nat) → List Char → Option (List Tree × List Char)
  | 0, _, _ => none
  | fuel + 1, depth, s => do
    let (x, rest) ← value? fuel depth s
    match skipBlanks rest with
    | ',' :: rest =>
      let (xs, rest) ← items? fuel depth rest
      return (x :: xs, rest)
    | ']' :: rest => return ([x], rest)
    | _ => none

/-- The members of an object up to its brace, after those already read. -/
def entries? : (fuel depth : Nat) → Entries → List Char → Option (Entries × List Char)
  | 0, _, _, _ => none
  | fuel + 1, depth, es, s =>
    match skipBlanks s with
    | '"' :: rest => do
      let (key, rest) ← string? (rest.length + 1) [] rest
      match skipBlanks rest with
      | ':' :: rest =>
        let (v, rest) ← value? fuel depth rest
        let es := Entries.insert (.string key) v es
        match skipBlanks rest with
        | ',' :: rest => entries? fuel depth es rest
        | '\x7d' :: rest => return (es, rest)
        | _ => none
      | _ => none
    | _ => none

end

/-- A value that begins with a quote is a string. -/
theorem value?_of_quote {s rest : List Char} (h : skipBlanks s = '"' :: rest) (fuel depth : Nat) :
    value? (fuel + 1) depth s =
      (string? (rest.length + 1) [] rest).map fun (s, rest) => (.string s, rest) := by
  rw [value?]
  simp only [h]

/-- The document of a text. -/
def parse (text : String) : Except Error Tree :=
  let s := text.toList
  match value? (s.length + 1) maxDepth s with
  | some (t, rest) => if (skipBlanks rest).isEmpty then .ok t else .error .json
  | none => .error .json

end TreeEdit.Json
