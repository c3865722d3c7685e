import TreeEdit.Error

/-!
# Properties files

A properties file is a list of entries, each a key, an equals sign or a colon, and a value that
ends with its line. `[name]` begins a section. Lines that begin with `#` or `;` are comments.

A backslash begins an escape in keys, values and section names, and before a line break it joins
two lines. Pieces of a value may be quoted. Blanks around keys, values and names do not count unless
they are quoted, and a key runs up to its sign even over line breaks.

Entries before the first section stand at the top of the document, each section below its name. A
later entry, or section, of the same name replaces an earlier one and stays in its place. Everything
read is a string.

Writing is simpler than reading: every entry is put on a line as it is, without quotes or escapes.
-/

namespace TreeEdit.Properties

/-! ## Reading -/

/-- What ends a piece of text. -/
inductive Stop where
  /-- an equals sign or a colon -/
  | sign
  | bracket
  | quote (c : Char)
  | lineEnd

/-- Whether a character ends a piece of text. -/
def Stop.at_ : Stop → Char → Bool
  | .sign, c => c = '=' || c = ':'
  | .bracket, c => c = ']'
  | .quote q, c => c = q
  | .lineEnd, c => c = '\n' || c = '\r'

/-- Whether a piece of text may end with the input. -/
def Stop.atEnd : Stop → Bool
  | .lineEnd => true
  | _ => false

/-- The character that four hexadecimal digits name. -/
def hexChar? (digits : List Char) : Option Char :=
  let digits := match digits with
    | '+' :: rest => rest
    | digits => digits
  (Text.natOfDigits? 16 digits).bind fun n =>
    if n < 0xD800 || (0xE000 ≤ n && n < 0x110000) then some (Char.ofNat n) else none

/-- The character that a letter after a backslash stands for, most standing for themselves. -/
def escaped (c : Char) : Char :=
  match c with
  | '0' => '\x00'
  | 'a' => '\x07'
  | 'b' => '\x08'
  | 't' => '\t'
  | 'r' => '\r'
  | 'n' => '\n'
  | c => c

/-- A piece of text up to what ends it, which is left in the input. -/
def piece? (stop : Stop) (taken : List Char) : List Char → Option (List Char × List Char)
  | [] => if stop.atEnd then some (taken.reverse, []) else none
  | '\\' :: 'x' :: a :: b :: c :: d :: rest =>
    if stop.at_ '\\' then some (taken.reverse, '\\' :: 'x' :: a :: b :: c :: d :: rest)
    else (hexChar? [a, b, c, d]).bind fun e => piece? stop (e :: taken) rest
  | '\\' :: '\n' :: rest => piece? stop taken rest
  | '\\' :: c :: rest => if c = 'x' then none else piece? stop (escaped c :: taken) rest
  | ['\\'] => none
  | c :: rest =>
    if stop.at_ c then some (taken.reverse, c :: rest) else piece? stop (c :: taken) rest

/-- The input without leading blanks, line breaks being none. -/
def skipInLine (s : List Char) : List Char :=
  s.dropWhile fun c => Text.isBlank c && c ≠ '\n' && c ≠ '\r'

/--
A value: quoted pieces, which keep their blanks, and then the rest of its line. Blanks at the end of
that rest do not count, nor do those at its beginning if it is all there is (`isAll`). Every round
takes characters from the input, so that its length is fuel enough.
-/
def valueFrom? (isAll : Bool) : (fuel : Nat) → List Char → Option (List Char × List Char)
  | 0, _ => none
  | _, [] => some ([], [])
  | fuel + 1, c :: rest =>
    if c = '"' || c = '\'' then do
      let (inner, rest) ← piece? (.quote c) [] rest
      let (more, rest) ← valueFrom? false fuel (rest.drop 1)
      return (inner ++ more, rest)
    else do
      let (text, rest) ← piece? .lineEnd [] (c :: rest)
      return (if isAll then Text.trimChars text else Text.trimRight text, rest)

/-- A value, the input standing after its sign. -/
def value? (s : List Char) : Option (List Char × List Char) :=
  let s := skipInLine s
  valueFrom? true (s.length + 1) s

/-- The text of a piece, blanks around it left out. -/
def trimmed (s : List Char) : Tree := .string (String.ofList (Text.trimChars s))

/-- Where entries go: to the top of the document, or to the section under way. -/
structure State where
  top : Entries := []
  /-- sections closed so far, by their names -/
  sections : Entries := []
  current : Option (Tree × Entries) := none

namespace State

/-- The state with the section under way closed. -/
def close (st : State) : State :=
  match st.current with
  | none => st
  | some (name, es) =>
    { st with sections := Entries.insert name (.mapping es) st.sections, current := none }

/-- The state with a new section under way. -/
def openSection (st : State) (name : Tree) : State := { st.close with current := some (name, []) }

/-- The state with one more entry. -/
def add (st : State) (key value : Tree) : State :=
  match st.current with
  | none => { st with top := Entries.insert key value st.top }
  | some (name, es) => { st with current := some (name, Entries.insert key value es) }

/-- The document: the entries at the top, then the sections. -/
def document (st : State) : Tree :=
  .mapping (Entries.insertAll st.top st.close.sections)

end State

/-- The input after the end of its line. -/
def skipLine : List Char → List Char
  | [] => []
  | c :: rest => if c = '\n' then rest else skipLine rest

/-- The input without leading blanks, and whether it then stands at the start of a line. -/
def skipBlanks (lineStart : Bool) : List Char → Bool × List Char
  | [] => (lineStart, [])
  | c :: rest =>
    if Text.isBlank c then skipBlanks (c = '\n') rest else (lineStart, c :: rest)

/-- The rest of a file. A comment must begin its line; each round takes at least one character. -/
def readFrom (st : State) (lineStart : Bool) : (fuel : Nat) → List Char → Option State
  | 0, _ => none
  | fuel + 1, s =>
    match skipBlanks lineStart s with
    | (_, []) => some st
    | (lineStart, c :: rest) =>
      if c = '#' || c = ';' then
        if lineStart then readFrom st true fuel (skipLine rest) else none
      else if c = '[' then do
        let (name, rest) ← piece? .bracket [] rest
        readFrom (st.openSection (trimmed name)) false fuel (rest.drop 1)
      else do
        let (key, rest) ← piece? .sign [] (c :: rest)
        if (Text.trimChars key).isEmpty then none
        else
          let (value, rest) ← value? (rest.drop 1)
          readFrom (st.add (trimmed key) (.string (String.ofList value))) false fuel rest

/-- The document of a properties file. -/
def parse (text : String) : Except Error Tree :=
  let s := text.toList
  match readFrom {} true (s.length + 1) s with
  | some st => .ok st.document
  | none => .error (.conversion .properties .malformed)

/-! ## Writing -/

/-- The lines of entries whose keys and values are scalars. -/
def linesOf : Entries → Except Conversion String
  | [] => .ok ""
  | (k, v) :: es =>
    match k.text?, v.text? with
    | some key, some value => do return key ++ "=" ++ value ++ "\n" ++ (← linesOf es)
    | _, _ => .error .notScalar

/-- The properties file of a mapping. -/
def render (t : Tree) : Except Error String :=
  let lines := match t with
    | .mapping es => linesOf es
    | t => .error (.notMapping t.kind)
  match lines with
  | .ok text => .ok text
  | .error cause => .error (.conversion .properties cause)

end TreeEdit.Properties
