import TreeEdit.Regex.Basic
import TreeEdit.Unicode.Script

/-!
# Reading regular expressions

The grammar is the common one of line-oriented tools: alternation, groups with flags or names,
counted repetitions, nested classes with set operations, Unicode properties, and assertions. There
are no back references and no look-around.

The reader keeps a stack of open groups (`Group`) and, inside a class, a stack of open brackets and
pending operators (`Bracket`). Every round of either loop takes at least one character off the
input, so the length of the input is enough fuel for both; `Regex.parse` is the way in.

Flags are in force from where they stand to the end of their group, so they are resolved while
reading, and an expression holds no flags.
-/

namespace TreeEdit.Regex

/-- Why a text is no regular expression. -/
inductive Fault where
  | unclosedGroup
  | unopenedGroup
  | nothingToRepeat
  | badRepetition
  | badEscape
  | badClass
  | badFlag
  | badGroupName
  | lookAround
  | backReference
  | unknownProperty
  /-- bytes that are no text could match -/
  | notText
  | tooLarge
  deriving DecidableEq

/-- What is wrong with a regular expression. -/
def Fault.message : Fault → String
  | .unclosedGroup => "unclosed group"
  | .unopenedGroup => "unopened group"
  | .nothingToRepeat => "repetition operator missing expression"
  | .badRepetition => "invalid repetition count"
  | .badEscape => "invalid escape sequence"
  | .badClass => "invalid character class"
  | .badFlag => "invalid flag"
  | .badGroupName => "invalid capture group name"
  | .lookAround => "look-around is not supported"
  | .backReference => "backreferences are not supported"
  | .unknownProperty => "Unicode property not found"
  | .notText => "pattern can match invalid UTF-8"
  | .tooLarge => "compiled regex exceeds size limit"

/-- The flags in force at a place of a pattern. -/
structure Flags where
  ignoreCase : Bool := false
  multiLine : Bool := false
  dotAll : Bool := false
  lazySwap : Bool := false
  crlf : Bool := false
  unicode : Bool := true
  verbose : Bool := false

/-- A step of reading, which may find a fault. -/
abbrev Reading := Except Fault

namespace Flags

/-- The input after a comment. -/
def skipComment : List Char → List Char
  | [] => []
  | c :: cs => if c = '\n' then cs else skipComment cs

/-- The input without leading blanks and comments; `fuel` bounds their number. -/
def skipVerbose : (fuel : Nat) → List Char → List Char
  | 0, cs => cs
  | _, [] => []
  | fuel + 1, c :: cs =>
    if Text.isBlank c then skipVerbose fuel cs
    else if c = '#' then skipVerbose fuel (skipComment cs)
    else c :: cs

/-- The input after what a verbose pattern ignores. -/
def skip (f : Flags) (cs : List Char) : List Char :=
  if f.verbose then skipVerbose cs.length cs else cs

/-- The same flags with one of them set. -/
def set? (f : Flags) (on : Bool) : Char → Option Flags
  | 'i' => some { f with ignoreCase := on }
  | 'm' => some { f with multiLine := on }
  | 's' => some { f with dotAll := on }
  | 'U' => some { f with lazySwap := on }
  | 'R' => some { f with crlf := on }
  | 'u' => some { f with unicode := on }
  | 'x' => some { f with verbose := on }
  | _ => none

/-- The characters of words under these flags. -/
def word (f : Flags) : CharClass := if f.unicode then .word else .wordAscii

/-- A class under these flags, which may ignore case. -/
def foldCase (f : Flags) (set : CharClass) : CharClass :=
  if !f.ignoreCase then set
  else if f.unicode then .folded set
  else .union set (.inter (.folded set) .ascii)

/-- A class, refused where bytes are matched and it holds bytes that are no text. -/
def checkText (f : Flags) (set : CharClass) : Except Fault CharClass :=
  if !f.unicode && (List.range 128).any fun i => set.mem (Char.ofNat (128 + i)) then
    .error .notText
  else .ok set

end Flags

/-! ## Named classes -/

/-- A property name without case, blanks, hyphens, underscores and a leading `is`. -/
def normalName (name : List Char) : String :=
  let plain := (name.filter fun c => !(Text.isBlank c || c = '-' || c = '_')).map Text.lowerAscii
  match plain with
  | ['i', 's', 'c'] => "isc"
  | 'i' :: 's' :: rest => String.ofList rest
  | _ => String.ofList plain

/-- The class of several general categories. -/
def categories (names : List String) : CharClass :=
  .unions (names.map fun n => .runs ((Unicode.category? n).getD []))

/-- The characters that have a general category. -/
def assigned : CharClass :=
  categories ["lu", "ll", "lt", "lm", "lo", "mn", "mc", "me", "nd", "nl", "no", "pc", "pd", "ps",
    "pe", "pi", "pf", "po", "sm", "sc", "sk", "so", "zs", "zl", "zp", "cc", "cf", "co"]

/-- The class of a general category, by its short or its long name. -/
def generalCategory? : String → Option CharClass
  | "l" | "letter" => some (categories ["lu", "ll", "lt", "lm", "lo"])
  | "lc" | "casedletter" => some (categories ["lu", "ll", "lt"])
  | "m" | "mark" | "combiningmark" => some (categories ["mn", "mc", "me"])
  | "n" | "number" => some (categories ["nd", "nl", "no"])
  | "p" | "punctuation" | "punct" =>
    some (categories ["pc", "pd", "ps", "pe", "pi", "pf", "po"])
  | "s" | "symbol" => some (categories ["sm", "sc", "sk", "so"])
  | "z" | "separator" => some (categories ["zs", "zl", "zp"])
  | "c" | "other" => some (.compl (.diff assigned (categories ["cc", "cf", "co"])))
  | "cn" | "unassigned" => some (.compl assigned)
  | "uppercaseletter" => some (categories ["lu"])
  | "lowercaseletter" => some (categories ["ll"])
  | "titlecaseletter" => some (categories ["lt"])
  | "modifierletter" => some (categories ["lm"])
  | "otherletter" => some (categories ["lo"])
  | "nonspacingmark" => some (categories ["mn"])
  | "spacingmark" => some (categories ["mc"])
  | "enclosingmark" => some (categories ["me"])
  | "decimalnumber" | "digit" => some (categories ["nd"])
  | "letternumber" => some (categories ["nl"])
  | "othernumber" => some (categories ["no"])
  | "connectorpunctuation" => some (categories ["pc"])
  | "dashpunctuation" => some (categories ["pd"])
  | "openpunctuation" => some (categories ["ps"])
  | "closepunctuation" => some (categories ["pe"])
  | "initialpunctuation" => some (categories ["pi"])
  | "finalpunctuation" => some (categories ["pf"])
  | "otherpunctuation" => some (categories ["po"])
  | "mathsymbol" => some (categories ["sm"])
  | "currencysymbol" => some (categories ["sc"])
  | "modifiersymbol" => some (categories ["sk"])
  | "othersymbol" => some (categories ["so"])
  | "spaceseparator" => some (categories ["zs"])
  | "lineseparator" => some (categories ["zl"])
  | "paragraphseparator" => some (categories ["zp"])
  | "control" | "cntrl" => some (categories ["cc"])
  | "format" => some (categories ["cf"])
  | "surrogate" => some .empty
  | "privateuse" => some (categories ["co"])
  | "any" => some .any
  | "assigned" => some assigned
  | "ascii" => some .ascii
  | name => (Unicode.category? name).map .runs

/-- The class of a property that a character has or has not. -/
def binaryProperty? : String → Option CharClass
  | "alphabetic" | "alpha" => some .alphabetic
  | "lowercase" | "lower" =>
    some (.unions [.runs Unicode.lowercaseLetter, .range 0xAA 0xAA, .range 0xBA 0xBA,
      .range 0x2B0 0x2B8, .range 0x2170 0x217F, .range 0x24D0 0x24E9])
  | "uppercase" | "upper" =>
    some (.unions [.runs Unicode.uppercaseLetter, .range 0x2160 0x216F, .range 0x24B6 0x24CF,
      .range 0x1F130 0x1F149, .range 0x1F150 0x1F169, .range 0x1F170 0x1F189])
  | "whitespace" | "wspace" | "space" => some .space
  | _ => none

/-- The class of a property by its name alone. -/
def property? (name : List Char) : Option CharClass :=
  let n := normalName name
  (binaryProperty? n).or ((generalCategory? n).or ((Unicode.script? n).map .runs))

/-- The class of a property that is given a value. -/
def valuedProperty? (name value : List Char) : Option CharClass :=
  match normalName name with
  | "gc" | "generalcategory" => generalCategory? (normalName value)
  | "sc" | "script" | "scx" | "scriptextensions" =>
    (Unicode.script? (normalName value)).map .runs
  | _ => none

/-- The class of a name in brackets and colons; all of them are ASCII. -/
def posixClass? : String → Option CharClass
  | "alnum" => some (.unions [.range 0x30 0x39, .range 0x41 0x5A, .range 0x61 0x7A])
  | "alpha" => some (.unions [.range 0x41 0x5A, .range 0x61 0x7A])
  | "ascii" => some .ascii
  | "blank" => some (.unions [.single '\t', .single ' '])
  | "cntrl" => some (.unions [.range 0 0x1F, .range 0x7F 0x7F])
  | "digit" => some (.range 0x30 0x39)
  | "graph" => some (.range 0x21 0x7E)
  | "lower" => some (.range 0x61 0x7A)
  | "print" => some (.range 0x20 0x7E)
  | "punct" =>
    some (.unions [.range 0x21 0x2F, .range 0x3A 0x40, .range 0x5B 0x60, .range 0x7B 0x7E])
  | "space" => some (.unions [.range 9 13, .single ' '])
  | "upper" => some (.range 0x41 0x5A)
  | "word" => some .wordAscii
  | "xdigit" => some (.unions [.range 0x30 0x39, .range 0x41 0x46, .range 0x61 0x66])
  | _ => none

/-! ## Escapes -/

/-- What one character or one escape stands for. -/
inductive Atom where
  | char (c : Char)
  | set (s : CharClass)
  | assertion (a : Assertion)

/-- Characters with a meaning of their own, which a backslash takes away. -/
def isMeta (c : Char) : Bool :=
  ['\\', '.', '+', '*', '?', '(', ')', '|', '[', ']', '\x7b', '\x7d', '^', '$', '#', '&', '-',
    '~'].contains c

/-- Characters that a backslash may stand before without need. -/
def isEscapable (c : Char) : Bool :=
  isMeta c || (c.toNat < 128 && !(Text.isDigit c || Text.isLetter c || c = '<' || c = '>'))

/-- The character that hexadecimal digits name. -/
def charOfHex (digits : List Char) : Except Fault Char :=
  match Text.natOfDigits? 16 digits with
  | some n =>
    if n < 0xD800 || (0xE000 ≤ n && n < 0x110000) then .ok (Char.ofNat n) else .error .badEscape
  | none => .error .badEscape

/-- As many hexadecimal digits as asked for. -/
def hexFixed (f : Flags) : (n : Nat) → (digits : List Char) → List Char → Reading (Char × List Char)
  | 0, digits, cs => (charOfHex digits.reverse).map (·, cs)
  | _, _, [] => .error .badEscape
  | n + 1, digits, c :: cs =>
    if (Text.digitValue? 16 c).isSome then hexFixed f n (c :: digits) (f.skip cs)
    else .error .badEscape

/-- The characters up to a closing brace, and the input after it. -/
def upToBrace (f : Flags) (taken : List Char) :
    (fuel : Nat) → List Char → Reading (List Char × List Char)
  | 0, _ => .error .badEscape
  | _, [] => .error .badEscape
  | fuel + 1, c :: cs =>
    if c = '\x7d' then .ok (taken.reverse, f.skip cs) else upToBrace f (c :: taken) fuel (f.skip cs)

/-- A character by the number that `x`, `u` or `U` announces. -/
def hexEscape (f : Flags) (width : Nat) (cs : List Char) : Reading (Char × List Char) :=
  match f.skip cs with
  | [] => .error .badEscape
  | '\x7b' :: rest => do
    let (digits, rest) ← upToBrace f [] (rest.length + 1) (f.skip rest)
    if digits.all (fun c => (Text.digitValue? 16 c).isSome) then
      return (← charOfHex digits, rest)
    else .error .badEscape
  | rest => hexFixed f width [] rest

/-- The class of a property, the input standing after the letter that announces it. -/
def propertyEscape (f : Flags) (negated : Bool) (cs : List Char) :
    Reading (CharClass × List Char) := do
  let found (set? : Option CharClass) (negated : Bool) : Except Fault CharClass :=
    match set? with
    | none => .error .unknownProperty
    | some set =>
      if !f.unicode then .error .notText
      else .ok (if negated then .compl (f.foldCase set) else f.foldCase set)
  match f.skip cs with
  | [] => .error .badEscape
  | '\x7b' :: rest =>
    let (name, rest) ← upToBrace f [] (rest.length + 1) (f.skip rest)
    let set ←
      match Text.splitFrom ['!', '='] 0 [] name with
      | [n, v] => found (valuedProperty? n v) (!negated)
      | _ =>
        match (Text.cutAt? ':' name).or (Text.cutAt? '=' name) with
        | some (n, v) => found (valuedProperty? n v) negated
        | none => found (property? name) negated
    return (set, rest)
  | '\\' :: _ => .error .unknownProperty
  | c :: rest => return (← found (property? [c]) negated, f.skip rest)

/-- A class of digits, blanks or word characters, or what is outside it. -/
def perlClass (f : Flags) (wide narrow : CharClass) (negated : Bool) : Except Fault CharClass :=
  if f.unicode then .ok (if negated then .compl wide else wide)
  else if negated then .error .notText
  else .ok narrow

/-- The kinds of word boundary that braces can name. -/
def namedBoundary? (word : CharClass) : String → Option Assertion
  | "start" => some (.wordStart word)
  | "end" => some (.wordEnd word)
  | "start-half" => some (.noWordBefore word)
  | "end-half" => some (.noWordAfter word)
  | _ => none

/--
A word boundary, the input standing after its letter. Braces that do not begin with a letter or a
hyphen are left for a counted repetition.
-/
def boundaryEscape (f : Flags) (cs : List Char) : Reading (Assertion × List Char) :=
  let isName (c : Char) : Bool := Text.isLetter c || c = '-'
  match cs with
  | '\x7b' :: rest =>
    match f.skip rest with
    | [] => .error .badEscape
    | c :: more =>
      if !isName c then .ok (.boundary f.word, cs)
      else do
        let (name, rest) ← upToBrace f [] (more.length + 2) (c :: more)
        match namedBoundary? f.word (String.ofList name) with
        | some a => .ok (a, rest)
        | none => .error .badEscape
  | _ => .ok (.boundary f.word, cs)

/-- What an escape stands for, the input standing after the backslash. -/
def escape (f : Flags) : List Char → Reading (Atom × List Char)
  | [] => .error .badEscape
  | c :: cs =>
    let set (s : Except Fault CharClass) : Reading (Atom × List Char) :=
      s.map fun s => (.set s, f.skip cs)
    let char (c : Char) : Reading (Atom × List Char) := .ok (.char c, f.skip cs)
    let assertion (a : Assertion) : Reading (Atom × List Char) := .ok (.assertion a, f.skip cs)
    if Text.isDigit c then .error .backReference
    else if isEscapable c then char c
    else match c with
      | 'x' => do
        let (d, rest) ← hexEscape f 2 cs
        if !f.unicode && 0x7F < d.toNat then .error .notText else .ok (.char d, rest)
      | 'u' => (hexEscape f 4 cs).map fun (d, rest) => (.char d, rest)
      | 'U' => (hexEscape f 8 cs).map fun (d, rest) => (.char d, rest)
      | 'p' => (propertyEscape f false cs).map fun (s, rest) => (.set s, rest)
      | 'P' => (propertyEscape f true cs).map fun (s, rest) => (.set s, rest)
      | 'd' => set (perlClass f .digit (.range 0x30 0x39) false)
      | 'D' => set (perlClass f .digit (.range 0x30 0x39) true)
      | 's' => set (perlClass f .space (.unions [.range 9 13, .single ' ']) false)
      | 'S' => set (perlClass f .space (.unions [.range 9 13, .single ' ']) true)
      | 'w' => set (perlClass f .word .wordAscii false)
      | 'W' => set (perlClass f .word .wordAscii true)
      | 'a' => char '\x07'
      | 'f' => char '\x0c'
      | 't' => char '\t'
      | 'n' => char '\n'
      | 'r' => char '\r'
      | 'v' => char '\x0b'
      | 'A' => assertion .startText
      | 'z' => assertion .endText
      | 'b' => (boundaryEscape f (f.skip cs)).map fun (a, rest) => (.assertion a, rest)
      | 'B' => assertion (.noBoundary f.word)
      | '<' => assertion (.wordStart f.word)
      | '>' => assertion (.wordEnd f.word)
      | _ => .error .badEscape

/-! ## Bracketed classes -/

/-- What set operations do with their operands. -/
inductive SetOp where
  | inter
  | diff
  | symmetricDiff

/-- The result of a set operation. -/
def SetOp.apply : SetOp → CharClass → CharClass → CharClass
  | .inter, a, b => .inter a b
  | .diff, a, b => .diff a b
  | .symmetricDiff, a, b => .union (.diff a b) (.diff b a)

/-- An open bracket with what stood before it, or an operator with its left operand. -/
inductive Bracket where
  | opened (negated : Bool) (outer : CharClass)
  | operator (op : SetOp) (left : CharClass)

/-- Hyphens, and a first closing bracket, stand for themselves after an opening bracket. -/
def leadingLiterals (f : Flags) (set : CharClass) : (fuel : Nat) → List Char →
    CharClass × List Char
  | 0, cs => (set, cs)
  | fuel + 1, '-' :: cs => leadingLiterals f (.union set (.single '-')) fuel (f.skip cs)
  | _, cs => (set, cs)

/-- The start of a class after its bracket: whether it is negated and its first literals. -/
def openBracket (f : Flags) (cs : List Char) : Reading ((Bool × CharClass) × List Char) := do
  let cs := f.skip cs
  let (negated, cs) := match cs with
    | '^' :: cs => (true, f.skip cs)
    | cs => (false, cs)
  let (set, rest) := leadingLiterals f .empty (cs.length + 1) cs
  let (set, rest) := match set, rest with
    | .empty, ']' :: rest => (CharClass.single ']', f.skip rest)
    | set, rest => (set, rest)
  if rest.isEmpty then .error .badClass else .ok ((negated, set), rest)

/-- A named class such as `[:alpha:]`, the input standing at its bracket. -/
def posix? (cs : List Char) : Option (CharClass × List Char) :=
  match cs with
  | '[' :: ':' :: rest =>
    let (negated, rest) := match rest with
      | '^' :: rest => (true, rest)
      | rest => (false, rest)
    match Text.cutAt? ':' rest with
    | some (name, ']' :: rest) =>
      (posixClass? (String.ofList name)).map fun s => (if negated then .compl s else s, rest)
    | _ => none
  | _ => none

/-- One character or escape of a class. -/
def classAtom (f : Flags) : List Char → Reading (Atom × List Char)
  | [] => .error .badClass
  | '\\' :: cs => escape f cs
  | c :: cs => .ok (.char c, f.skip cs)

/-- One character, escape or range of a class. -/
def classItem (f : Flags) (cs : List Char) : Reading (CharClass × List Char) := do
  let (first, rest) ← classAtom f cs
  let rest := f.skip rest
  let alone : Reading (CharClass × List Char) :=
    match first with
    | .char c =>
      if !f.unicode && 0x7F < c.toNat then .error .notText else .ok (.single c, rest)
    | .set s => .ok (s, rest)
    | .assertion _ => .error .badClass
  match rest with
  | [] => .error .badClass
  | '-' :: more =>
    match f.skip more with
    | [] => .error .badClass
    | ']' :: _ | '-' :: _ => alone
    | more =>
      let (last, rest) ← classAtom f more
      match first, last with
      | .char a, .char b =>
        if b < a then .error .badClass
        else if !f.unicode && 0x7F < b.toNat then .error .notText
        else .ok (.range a.toNat b.toNat, rest)
      | _, _ => .error .badClass
  | _ => alone

/-- The class under way after the operator that waits for it, if there is one. -/
def closeOperator (f : Flags) (set : CharClass) : List Bracket → CharClass × List Bracket
  | .operator op left :: stack => (op.apply (f.foldCase left) (f.foldCase set), stack)
  | stack => (set, stack)

/-- The rest of a class; each round takes at least one character. -/
def classLoop (f : Flags) : (fuel : Nat) → (stack : List Bracket) → (set : CharClass) →
    List Char → Reading (CharClass × List Char)
  | 0, _, _, _ => .error .badClass
  | fuel + 1, stack, set, cs =>
    let operator (op : SetOp) (rest : List Char) :=
      let (left, stack) := closeOperator f set stack
      classLoop f fuel (.operator op left :: stack) .empty rest
    match f.skip cs with
    | [] => .error .badClass
    | ']' :: rest =>
      let (set, stack) := closeOperator f set stack
      match stack with
      | .opened negated outer :: stack =>
        let set := f.foldCase set
        match f.checkText (if negated then .compl set else set) with
        | .error e => .error e
        | .ok set =>
          match stack with
          | [] => .ok (set, rest)
          | _ => classLoop f fuel stack (.union outer set) rest
      | _ => .error .badClass
    | '[' :: rest =>
      match posix? ('[' :: rest) with
      | some (s, rest) => classLoop f fuel stack (.union set s) rest
      | none =>
        match openBracket f rest with
        | .error e => .error e
        | .ok ((negated, first), rest) =>
          classLoop f fuel (.opened negated set :: stack) first rest
    | '&' :: '&' :: rest => operator .inter rest
    | '-' :: '-' :: rest => operator .diff rest
    | '~' :: '~' :: rest => operator .symmetricDiff rest
    | cs =>
      match classItem f cs with
      | .error e => .error e
      | .ok (s, rest) => classLoop f fuel stack (.union set s) rest

/-- A bracketed class, the input standing after its bracket. -/
def bracketed (f : Flags) (cs : List Char) : Reading (CharClass × List Char) := do
  let ((negated, set), rest) ← openBracket f cs
  let (set, rest) ← classLoop f (cs.length + 1) [.opened negated .empty] set rest
  return (set, rest)

/-! ## Groups and repetitions -/

/-- The flags that a group sets, up to its colon or its end. -/
def groupFlags (seen : List Char) (on : Bool) (f : Flags) : List Char → Reading (Flags × List Char)
  | [] => .error .badFlag
  | ':' :: rest => if seen.head? = some '-' then .error .badFlag else .ok (f, ':' :: rest)
  | ')' :: rest => if seen.head? = some '-' then .error .badFlag else .ok (f, ')' :: rest)
  | c :: rest =>
    if seen.contains c then .error .badFlag
    else if c = '-' then groupFlags ('-' :: seen) false f rest
    else match f.set? on c with
      | some f => groupFlags (c :: seen) on f rest
      | none => .error .badFlag

/-- Whether a character may stand in a name, at its start or later. -/
def isNameChar (first : Bool) (c : Char) : Bool :=
  c = '_' || CharClass.alphabetic.mem c
    || (!first && (c = '.' || c = '[' || c = ']'
      || (categories ["nd", "nl", "no"]).mem c))

/-- A name up to its closing angle bracket. -/
def groupName (taken : List Char) : List Char → Reading (String × List Char)
  | [] => .error .badGroupName
  | '>' :: rest =>
    if taken.isEmpty then .error .badGroupName else .ok (String.ofList taken.reverse, rest)
  | c :: rest =>
    if isNameChar taken.isEmpty c then groupName (c :: taken) rest else .error .badGroupName

/-- A part of a sequence: an expression, or a change of flags, which cannot be repeated. -/
inductive Part where
  | expr (r : Regex)
  | nothing

/-- An open group: alternatives already closed, parts of the one under way, flags in force. -/
structure Group where
  alternatives : List Regex
  parts : List Part
  flags : Flags

/-- The sequence of some parts, the last one first. -/
def sequenceOf (parts : List Part) : Regex :=
  parts.foldl (fun r p => match p, r with
    | .nothing, r => r
    | .expr e, .empty => e
    | .expr e, r => .seq e r) .empty

/-- The expression of a group: its alternatives in order. -/
def Group.close (g : Group) : Regex :=
  g.alternatives.foldl (fun r a => .alt a r) (sequenceOf g.parts)

/-- A decimal number between blanks, or none. -/
def decimal? (f : Flags) (cs : List Char) : Reading (Option Nat × List Char) :=
  let rec digits (taken : List Char) : (fuel : Nat) → List Char → List Char × List Char
    | 0, cs => (taken, cs)
    | fuel + 1, c :: cs =>
      if Text.isDigit c then digits (c :: taken) fuel (f.skip cs) else (taken, c :: cs)
    | _, [] => (taken, [])
  let (taken, rest) := digits [] (cs.length + 1) (Text.trimLeft cs)
  let rest := Text.trimLeft rest
  match Text.natOfDigits? 10 taken.reverse with
  | none => .ok (none, rest)
  | some n => if n < 4294967296 then .ok (some n, rest) else .error .badRepetition

/-- The bounds of a counted repetition, the input standing after its brace. -/
def counts (f : Flags) (cs : List Char) : Reading ((Nat × Option Nat) × List Char) := do
  let close (least : Option Nat) (most : Nat → Option Nat) (rest : List Char) :
      Reading ((Nat × Option Nat) × List Char) :=
    match least, rest with
    | some n, '\x7d' :: rest => .ok ((n, most n), f.skip rest)
    | _, _ => .error .badRepetition
  let (least, rest) ← decimal? f (f.skip cs)
  match rest with
  | ',' :: rest =>
    match f.skip rest with
    | '\x7d' :: rest => close least (fun _ => none) ('\x7d' :: rest)
    | rest =>
      let (most, rest) ← decimal? f rest
      match most with
      | some m => close least (fun _ => some m) rest
      | none => .error .badRepetition
  | rest => close least some rest

/-- The parts with the last expression repeated. -/
def repeatLast (least : Nat) (extra : Option Nat) : List Part → Except Fault (List Part)
  | .expr r :: parts => .ok (.expr (.repeated r least extra) :: parts)
  | _ => .error .nothingToRepeat

/-- The input after a question mark, which only tells which match to prefer. -/
def dropLazy : List Char → List Char
  | '?' :: cs => cs
  | cs => cs

/-- The expression of a character under the flags in force. -/
def literal (f : Flags) (c : Char) : Regex := .chars (f.foldCase (.single c))

/-- The expression of a point. -/
def dot (f : Flags) : Except Fault Regex :=
  if !f.unicode then .error .notText
  else if f.dotAll then .ok (.chars .any)
  else if f.crlf then .ok (.chars (.compl (.union (.single '\n') (.single '\r'))))
  else .ok (.chars (.compl (.single '\n')))

/-- The start of a group, the input standing after its parenthesis. -/
inductive Opening where
  | group (flags : Flags)
  | flagsOnly (flags : Flags)
  | named (name : String)

/-- What an opening parenthesis begins. -/
def opening (f : Flags) (cs : List Char) : Reading (Opening × List Char) :=
  match f.skip cs with
  | '?' :: '=' :: _ | '?' :: '!' :: _ | '?' :: '<' :: '=' :: _ | '?' :: '<' :: '!' :: _ =>
    .error .lookAround
  | '?' :: 'P' :: '<' :: rest | '?' :: '<' :: rest =>
    (groupName [] rest).map fun (name, rest) => (.named name, rest)
  | '?' :: rest =>
    match groupFlags [] true f rest with
    | .error e => .error e
    | .ok (g, ':' :: after) => .ok (.group g, after)
    | .ok (g, after) =>
      if rest.head? = some ')' then .error .nothingToRepeat else .ok (.flagsOnly g, after.drop 1)
  | rest => .ok (.group f, rest)

/-- A parenthesis without a question mark opens a group with the flags around it. -/
theorem opening_plain {f : Flags} {cs ds : List Char} (h : f.skip cs = ds)
    (hds : ds.head? ≠ some '?') : opening f cs = .ok (.group f, ds) := by
  rw [opening, h]
  split
  case h_8 => rfl
  all_goals exact absurd rfl hds

/--
The rest of an expression. `outer` are the groups around the one under way and `names` the names
of groups so far; each round takes at least one character.
-/
def loop : (fuel : Nat) → (outer : List Group) → (names : List String) → Group → List Char →
    Except Fault Regex
  | 0, _, _, _, _ => .error .unclosedGroup
  | fuel + 1, outer, names, g, cs =>
    let add (r : Regex) (rest : List Char) :=
      loop fuel outer names { g with parts := .expr r :: g.parts } rest
    let repeated (least : Nat) (extra : Option Nat) (rest : List Char) :=
      match repeatLast least extra g.parts with
      | .error e => .error e
      | .ok parts => loop fuel outer names { g with parts } (dropLazy rest)
    let f := g.flags
    match f.skip cs with
    | [] => if outer.isEmpty then .ok g.close else .error .unclosedGroup
    | '(' :: rest =>
      match opening f rest with
      | .error e => .error e
      | .ok (.flagsOnly flags, rest) =>
        loop fuel outer names { g with flags, parts := .nothing :: g.parts } rest
      | .ok (.group flags, rest) => loop fuel (g :: outer) names ⟨[], [], flags⟩ rest
      | .ok (.named name, rest) =>
        if names.contains name then .error .badGroupName
        else loop fuel (g :: outer) (name :: names) ⟨[], [], f⟩ rest
    | ')' :: rest =>
      match outer with
      | [] => .error .unopenedGroup
      | parent :: outer =>
        loop fuel outer names { parent with parts := .expr g.close :: parent.parts } rest
    | '|' :: rest =>
      loop fuel outer names
        { g with alternatives := sequenceOf g.parts :: g.alternatives, parts := [] } rest
    | '[' :: rest =>
      match bracketed f rest with
      | .error e => .error e
      | .ok (set, rest) => add (.chars set) rest
    | '?' :: rest => repeated 0 (some 1) rest
    | '*' :: rest => repeated 0 none rest
    | '+' :: rest => repeated 1 none rest
    | '\x7b' :: rest =>
      if (repeatLast 0 none g.parts).isOk then
        match counts f rest with
        | .error e => .error e
        | .ok ((least, most), rest) =>
          match most with
          | none => repeated least none rest
          | some m =>
            if m < least then .error .badRepetition else repeated least (some (m - least)) rest
      else .error .nothingToRepeat
    | '\\' :: rest =>
      match escape f rest with
      | .error e => .error e
      | .ok (.char c, rest) => add (literal f c) rest
      | .ok (.set s, rest) => add (.chars s) rest
      | .ok (.assertion a, rest) => add (.assert a) rest
    | '.' :: rest =>
      match dot f with
      | .error e => .error e
      | .ok r => add r rest
    | '^' :: rest => add (.assert (if f.multiLine then .startLine f.crlf else .startText)) rest
    | '$' :: rest => add (.assert (if f.multiLine then .endLine f.crlf else .endText)) rest
    | c :: rest => add (literal f c) rest

/-! ## Size

An expression becomes an automaton of states that take 32 bytes each, and one that takes more than
10 MiB is refused. A character takes a state for each byte of its encoding and an assertion takes
one; four more stand around every expression: one before it, two for the start and the end of the
match, and one that reports it. That much is exact, and all that a key of plain characters needs.

Classes beyond ASCII, groups, alternatives and repetitions of what may be empty are only estimated:
the engine merges what their automata have in common, and it is no part of this library.
-/

/-- The size of a state. -/
def stateSize : Nat := 32

/-- What the members of a class take: 8 bytes for an ASCII range, and about 23 for a run. -/
def classSize : CharClass → Nat
  | .empty => 0
  | .range _ last => if last < 0x80 then 8 else 128
  | .runs rs => 23 * rs.length
  | .union a b | .inter a b | .diff a b => classSize a + classSize b
  | .compl a => classSize a + 160
  | .folded a => 2 * classSize a

/-- How many bytes the states of an expression take. -/
def size : Regex → Nat
  | .empty | .assert _ => stateSize
  | .chars (.range first last) =>
    if first = last then (Char.ofNat first).utf8Size * stateSize
    else 2 * stateSize + classSize (.range first last)
  | .chars set => 2 * stateSize + classSize set
  | .seq a b => size a + size b
  | .alt a b => size a + size b + 2 * stateSize + 8
  -- the choice between one more round and none is a state, with 8 bytes for where it leads
  | .repeated a least none => max 1 least * size a + stateSize + 8
  | .repeated a least (some 0) => least * size a
  | .repeated a 0 (some 1) => size a + 2 * stateSize + 8
  | .repeated a least (some extra) =>
    (if least = 0 then stateSize else least * size a) + stateSize
      + extra * (size a + stateSize + 8)

/-- How many bytes the automaton of an expression takes. -/
def automatonSize (r : Regex) : Nat := r.size + 4 * stateSize

/-- How large an automaton may be. -/
def maxSize : Nat := 10485760

/-- The regular expression that a text writes. -/
def parse (text : String) : Except Fault Regex := do
  let cs := text.toList
  let r ← loop (cs.length + 1) [] [] ⟨[], [], {}⟩ cs
  if maxSize < r.automatonSize then .error .tooLarge else .ok r

end TreeEdit.Regex
