import TreeEdit.Error

/-!
# Macros

A macro is written `${NAMESPACE::KEY}`, or `${?NAMESPACE::KEY}` when it may stay without a value.
The namespace is made of ASCII letters, digits, `_`, `.` and `-`; the key is everything up to the
brace, and blanks around it do not count.

`expand` goes over a text once from the left. What a macro is replaced by is not looked at again,
and what does not have the form of a macro stays as it is. `expandTree` does so in every key, string
and tag of a document.
-/

namespace TreeEdit

/-- What namespaces and keys stand for. -/
abbrev Scope := (space key : String) → Option String

namespace Macro

/-- Whether a character may stand in a namespace. -/
def isSpaceChar (c : Char) : Bool :=
  Text.isLetter c || Text.isDigit c || c = '_' || c = '.' || c = '-'

/-- A macro: its parts, its text, and how many characters it takes. -/
structure Token where
  isOptional : Bool
  space : List Char
  key : List Char

/-- The text of a macro. -/
def Token.chars (t : Token) : List Char :=
  ['$', '\x7b'] ++ (if t.isOptional then ['?'] else []) ++ t.space ++ [':', ':'] ++ t.key
    ++ ['\x7d']

/-- The namespace and the key of a macro, after its opening brace and question mark. -/
def body? (s : List Char) : Option (List Char × List Char) :=
  let space := s.takeWhile isSpaceChar
  match space, s.dropWhile isSpaceChar with
  | _ :: _, ':' :: ':' :: rest =>
    match Text.cutAt? '\x7d' rest with
    | some (c :: key, _) => some (space, c :: key)
    | _ => none
  | _, _ => none

/-- The macro that the characters begin with. -/
def token? : List Char → Option Token
  | '$' :: '\x7b' :: '?' :: rest => (body? rest).map fun (space, key) => ⟨true, space, key⟩
  | '$' :: '\x7b' :: rest => (body? rest).map fun (space, key) => ⟨false, space, key⟩
  | _ => none

/-- What a macro is replaced by. -/
def resolve (scope : Scope) (t : Token) : Except Error (List Char) :=
  match scope (String.ofList t.space) (String.ofList (Text.trimChars t.key)) with
  | some value => .ok value.toList
  | none => if t.isOptional then .ok [] else .error (.unresolved (String.ofList t.chars))

/-- The characters with their macros replaced, `skip` of them being part of the last one. -/
def expandChars (scope : Scope) : (skip : Nat) → List Char → Except Error (List Char)
  | _, [] => .ok []
  | skip + 1, _ :: rest => expandChars scope skip rest
  | 0, c :: rest =>
    match token? (c :: rest) with
    | some t => do
      let value ← resolve scope t
      return value ++ (← expandChars scope (t.chars.length - 1) rest)
    | none => do return c :: (← expandChars scope 0 rest)

/-- The text with its macros replaced. -/
def expand (scope : Scope) (text : String) : Except Error String :=
  (expandChars scope 0 text.toList).map String.ofList

mutual

/--
The document with the macros in its keys, strings and tags replaced. Keys that become the same are
one entry, and a tag with nothing left of its name is dropped.
-/
def expandTree (scope : Scope) : Tree → Except Error Tree
  | .string s => do return .string (← expand scope s)
  | .sequence items => do return .sequence (← expandItems scope items)
  | .mapping entries => do return .mapping (Entries.ofList (← expandEntries scope entries))
  | .tagged tag value => do
    let text ← expand scope tag.text
    let value ← expandTree scope value
    if text.toList.all (· = '!') then return value else return .tagged (.ofText text) value
  | .null => .ok .null
  | .bool b => .ok (.bool b)
  | .number n => .ok (.number n)

def expandItems (scope : Scope) : List Tree → Except Error (List Tree)
  | [] => .ok []
  | x :: xs => do
    let x ← expandTree scope x
    return x :: (← expandItems scope xs)

def expandEntries (scope : Scope) : List (Tree × Tree) → Except Error (List (Tree × Tree))
  | [] => .ok []
  | (k, v) :: es => do
    let k ← expandTree scope k
    let v ← expandTree scope v
    return (k, v) :: (← expandEntries scope es)

end

end Macro

end TreeEdit
