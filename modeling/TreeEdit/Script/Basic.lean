import TreeEdit.Script.Command

/-!
# Scripts

A script is a list of lines, blank ones and comments left out, each with its number in the text. It
is read only if every first word is a keyword, or may become one when macros are expanded, and if
its `foreach` and `end` lines form balanced brackets.

`matchingEnd` finds the line that closes a loop by counting brackets from its `foreach`.
-/

namespace TreeEdit

/-- A line of a script. -/
structure Line where
  number : Nat
  text : String
  deriving DecidableEq

namespace Line

/-- The first word of a line. -/
def keyword (l : Line) : String := ((Text.words l.text).head?).getD ""

/-- Whether a line opens a loop. -/
def isForeach (l : Line) : Bool := l.keyword = "foreach"

/-- Whether a line closes a loop. -/
def isEnd (l : Line) : Bool := l.keyword = "end"

/-- Whether a word holds the start of a macro. -/
def hasMacro (word : String) : Bool := Text.contains ['$', '\x7b'] word.toList

/-- Whether a keyword may begin a line: one that is known, or one that a macro makes. -/
def isAdmitted (l : Line) : Bool :=
  Command.keywords.contains l.keyword || hasMacro l.keyword

end Line

/-- A script whose commands are known and whose loops are closed. -/
structure Script where
  lines : List Line

namespace Script

/-- A fault on a line of a script. -/
def grammar (line : Nat) (cause : Grammar) : Error := .grammar line cause

/-- The lines of a text with their numbers, the first of which is `n`. -/
def numbered (n : Nat) : List String → List Line
  | [] => []
  | text :: rest => ⟨n, Text.trim text⟩ :: numbered (n + 1) rest

/-- Whether a line is kept: it is neither blank nor a comment. -/
def isKept (l : Line) : Bool := l.text ≠ "" && l.text.toList.head? ≠ some '#'

/-- The lines of a text that are kept. -/
def linesOf (text : String) : List Line := (numbered 1 (Text.lines text)).filter isKept

/-- Refuses the first line whose keyword is not admitted. -/
def checkKeywords : List Line → Except Error Unit
  | [] => .ok ()
  | l :: rest =>
    if l.isAdmitted then checkKeywords rest
    else .error (grammar l.number (.unknownCommand l.keyword))

/-- Refuses an `end` with no open loop, and then the innermost loop left open. -/
def checkBalance (opened : List Nat) : List Line → Except Error Unit
  | [] =>
    match opened with
    | [] => .ok ()
    | n :: _ => .error (grammar n .unclosedForeach)
  | l :: rest =>
    if l.isForeach then checkBalance (l.number :: opened) rest
    else if l.isEnd then
      match opened with
      | [] => .error (grammar l.number .unopenedEnd)
      | _ :: opened => checkBalance opened rest
    else checkBalance opened rest

/-- The script of a text. -/
def parse (text : String) : Except Error Script := do
  let lines := linesOf text
  checkKeywords lines
  checkBalance [] lines
  return ⟨lines⟩

/--
The position of the line that closes as many loops as are open, the first line standing at `i`. A
line outside all loops ends the search.
-/
def scanEnd (depth i : Nat) : List Line → Option Nat
  | [] => none
  | l :: rest =>
    if l.isForeach then scanEnd (depth + 1) (i + 1) rest
    else if l.isEnd then if depth ≤ 1 then some i else scanEnd (depth - 1) (i + 1) rest
    else if depth = 0 then none
    else scanEnd depth (i + 1) rest

/-- The position of the `end` that closes the loop opened at a position. -/
def matchingEnd (lines : List Line) (start : Nat) : Except Error Nat :=
  match scanEnd 0 start (lines.drop start) with
  | some i => .ok i
  | none => .error (grammar ((lines[start]?).elim 0 Line.number) .unclosedForeach)

end Script

end TreeEdit
