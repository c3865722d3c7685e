import TreeEdit.Yaml.Token

/-!
# Tokens of the tagged dialect

The text is cut into tokens from left to right. The state of the cutting is a `Scanner`: the place,
the tokens so far, the columns of the open blocks, and for every open flow collection the node that
may turn out to be a key. A text that breaks a rule of the dialect has no tokens.

The first part of the module reads the text of single tokens; the second part decides which token
comes next and what blocks it opens and closes.
-/

namespace TreeEdit.Yaml.Tagged

/-- Whether a character may occur in a text at all. -/
def isAllowed (c : Char) : Bool :=
  let n := c.toNat
  n = 9 || n = 10 || n = 13 || (0x20 ≤ n && n ≤ 0x7E) || n = 0x85
    || (0xA0 ≤ n && n < 0xFFFE) || 0x10000 ≤ n

/-! ## Names, tags and directives -/

/-- The name of an anchor or alias, after its mark. -/
def anchorName? (p : Place) : Option (List Char × Place) :=
  let (name, p) := p.span isWord
  let closed := p.gapAt .tagged 0
    || (p.peek? 0).any fun c => "?:,]\x7d%@\x60".toList.contains c
  if !name.isEmpty && closed then some (name, p) else none

/-- Whether a character may stand in a tag; `wide` allows those of flow collections also. -/
def isTagChar (wide : Bool) (c : Char) : Bool :=
  isWord c || ";/?:@&=+$.!~*'()%".toList.contains c || (wide && ",[]".toList.contains c)

/-- The character that octets write in UTF-8, if they do. -/
def ofOctets? : List Nat → Option Char
  | [a] => some (Char.ofNat a)
  | [a, b] =>
    let n := (a % 0x20) * 0x40 + b % 0x40
    if 0x80 ≤ n then some (Char.ofNat n) else none
  | [a, b, c] =>
    let n := ((a % 0x10) * 0x40 + b % 0x40) * 0x40 + c % 0x40
    if 0x800 ≤ n && (n < 0xD800 || 0xE000 ≤ n) then some (Char.ofNat n) else none
  | [a, b, c, d] =>
    let n := (((a % 0x08) * 0x40 + b % 0x40) * 0x40 + c % 0x40) * 0x40 + d % 0x40
    if 0x10000 ≤ n && n < 0x110000 then some (Char.ofNat n) else none
  | _ => none

/-- The characters of a tag, whether all its escapes are legible, and the place after it. -/
def tagChars? (wide : Bool) : (fuel : Nat) → Place → Option (List Char × Bool × Place)
  | 0, p => some ([], true, p)
  | fuel + 1, p =>
    match p.peek? 0 with
    | none => some ([], true, p)
    | some c =>
      if c = '%' then do
        let octets ← percentOctets? p.rest
        let (cs, legible, p) ← tagChars? wide fuel (p.skipMany (3 * octets.length))
        match ofOctets? octets with
        | some c => return (c :: cs, legible, p)
        | none => return (cs, false, p)
      else if isTagChar wide c then do
        let (cs, legible, p) ← tagChars? wide fuel p.skip
        return (c :: cs, legible, p)
      else some ([], true, p)

/-- The handle of a tag: a mark, and perhaps a name with another mark. -/
def tagHandle? (p : Place) : Option (List Char × Place) :=
  if p.sees '!' 0 then
    let (name, p) := p.skip.span isWord
    if p.sees '!' 0 then some ('!' :: name ++ ['!'], p.skip) else some ('!' :: name, p)
  else none

/-- Whether a handle is one that a directive may define, other than the mark alone. -/
def isNamedHandle (handle : List Char) : Bool := 2 ≤ handle.length && handle.getLast? == some '!'

/-- A tag between angle brackets. -/
def verbatimTag? (p : Place) : Option (TagText × Place) := do
  let (suffix, legible, p) ← tagChars? true p.rest.length (p.skipMany 2)
  if !suffix.isEmpty && p.sees '>' 0 then some (⟨[], suffix, legible⟩, p.skip) else none

/-- A tag with a handle. -/
def shorthandTag? (p : Place) : Option (TagText × Place) := do
  let (handle, p) ← tagHandle? p
  let (suffix, legible, p) ← tagChars? false p.rest.length p
  if isNamedHandle handle then
    if suffix.isEmpty && legible then none else some (⟨handle, suffix, legible⟩, p)
  else
    let suffix := handle.tail ++ suffix
    if suffix.isEmpty && legible then some (⟨[], ['!'], true⟩, p)
    else some (⟨['!'], suffix, legible⟩, p)

/-- A tag; a blank follows it, or in a flow collection a comma. -/
def tag? (inFlow : Bool) (p : Place) : Option (TagText × Place) := do
  let (tag, p) ← if p.sees '<' 1 then verbatimTag? p else shorthandTag? p
  if p.gapAt .tagged 0 || (inFlow && p.sees ',' 0) then some (tag, p) else none

/-- A number of a version: at most nine digits. -/
def versionNumber? (p : Place) : Option (Nat × Place) :=
  let (digits, p) := p.span Text.isDigit
  if digits.length ≤ 9 then (Text.natOfDigits? 10 digits).map (·, p) else none

/-- The numbers of a version. -/
def versionNumbers? (p : Place) : Option (Token × Place) := do
  let (major, p) ← versionNumber? p.skipBlanks
  if p.sees '.' 0 then
    let (minor, p) ← versionNumber? p.skip
    return (.version major minor, p)
  else none

/-- The handle and the text it stands for in a directive. -/
def handleDefinition? (p : Place) : Option (Token × Place) := do
  let (handle, p) ← tagHandle? p.skipBlanks
  if (handle = ['!'] || isNamedHandle handle) && (p.peek? 0).any isBlank then
    let p := p.skipBlanks
    let (text, legible, p) ← tagChars? true p.rest.length p
    if (!text.isEmpty || !legible) && p.gapAt .tagged 0 then
      some (.tagHandle ⟨handle, text, legible⟩, p)
    else none
  else none

/-- A directive with its line end. -/
def directive? (p : Place) : Option (Token × Place) := do
  let (name, p) := p.skip.span isWord
  if name.isEmpty || !p.gapAt .tagged 0 then none
  else
    let (token, p) ←
      match String.ofList name with
      | "YAML" => versionNumbers? p
      | "TAG" => handleDefinition? p
      | _ => none
    let p := p.skipBlanks.skipComment .tagged
    if p.lineEndAt .tagged 0 then some (token, p.skipBreak .tagged) else none

/-! ## Scalars in quotes -/

/-- A run of characters without blanks in quotes. -/
structure QuotedRun where
  text : List Char
  place : Place
  /-- the run ended at a line end after a backslash -/
  escapedBreak : Bool

/-- The characters of a quoted scalar up to a blank, a line end or the closing quote. -/
def quotedRun? (quote : Char) (text : List Char) : (fuel : Nat) → Place → Option QuotedRun
  | 0, p => some ⟨text.reverse, p, false⟩
  | fuel + 1, p =>
    match p.peek? 0 with
    | none => some ⟨text.reverse, p, false⟩
    | some c =>
      if p.gapAt .tagged 0 then some ⟨text.reverse, p, false⟩
      else if c = quote then
        if quote = '\'' && p.sees '\'' 1 then quotedRun? quote ('\'' :: text) fuel (p.skipMany 2)
        else some ⟨text.reverse, p, false⟩
      else if quote = '"' && c = '\\' then
        if p.breakAt .tagged 1 then some ⟨text.reverse, p.skip.skipBreak .tagged, true⟩
        else do
          let (d, count) ← escape? p.rest.tail
          quotedRun? quote (d :: text) fuel (p.skipMany (count + 1))
      else quotedRun? quote (c :: text) fuel p.skip

/-- Blanks and line ends between two parts of a scalar. -/
structure Gap where
  /-- the blanks on the first line, the last one first -/
  blanks : List Char
  /-- the first line end -/
  first : Option Char
  /-- the other line ends, the last one first -/
  more : List Char
  /-- a line has ended -/
  broken : Bool
  place : Place

namespace Gap

/-- What stands for the gap in the text of the scalar. -/
def text (g : Gap) : List Char :=
  if g.broken then foldBreaks g.first g.more.reverse else g.blanks.reverse

/--
The gap after more blanks and line ends. A tab that stands before the column `least` on a line of
its own is refused.
-/
def extend? (least : Nat) : (fuel : Nat) → Gap → Option Gap
  | 0, g => some g
  | fuel + 1, g =>
    match g.place.readBreak? .tagged with
    | some (c, p) =>
      if g.broken then extend? least fuel { g with more := c :: g.more, place := p }
      else extend? least fuel { g with blanks := [], first := some c, broken := true, place := p }
    | none =>
      match g.place.peek? 0 with
      | none => some g
      | some c =>
        if isBlank c then
          if g.broken then
            if c = '\t' && g.place.column < least then none
            else extend? least fuel { g with place := g.place.skip }
          else extend? least fuel { g with blanks := c :: g.blanks, place := g.place.skip }
        else some g

end Gap

/-- The rest of a quoted scalar, `text` being what has been read of it. -/
def quotedRest? (quote : Char) (text : List Char) :
    (fuel : Nat) → Place → Option (List Char × Place)
  | 0, _ => none
  | fuel + 1, p =>
    if p.isDocumentMarker .tagged || p.atEnd then none
    else do
      let run ← quotedRun? quote [] p.rest.length p
      let text := text ++ run.text
      if run.place.sees quote 0 then some (text, run.place.skip)
      else
        let gap ← Gap.extend? 0 run.place.rest.length
          ⟨[], none, [], run.escapedBreak, run.place⟩
        quotedRest? quote (text ++ gap.text) fuel gap.place

/-- A scalar in quotes. -/
def quoted? (p : Place) : Option (List Char × Place) :=
  (p.peek? 0).bind fun quote => quotedRest? quote [] (p.rest.length + 1) p.skip

/-! ## Plain scalars -/

/-- Whether a plain scalar ends before the next character. -/
def endsPlain (inFlow : Bool) (p : Place) : Bool :=
  p.gapAt .tagged 0 || (p.sees ':' 0 && p.gapAt .tagged 1) || (inFlow && (p.peek? 0).any isFlow)

/-- The characters of a plain scalar up to a blank or its end. -/
def plainRun? (inFlow : Bool) (text : List Char) :
    (fuel : Nat) → Place → Option (List Char × Place)
  | 0, p => some (text.reverse, p)
  | fuel + 1, p =>
    if p.gapAt .tagged 0 then some (text.reverse, p)
    else if inFlow && p.sees ':' 0 && (p.peek? 1).any fun c => isFlow c || c = '?' then none
    else if endsPlain inFlow p then some (text.reverse, p)
    else
      match p.peek? 0 with
      | none => some (text.reverse, p)
      | some c => plainRun? inFlow (c :: text) fuel p.skip

/-- A plain scalar: its text, whether a line ended after it, and the place reached. -/
structure PlainScalar where
  text : List Char
  broken : Bool
  place : Place

/--
The rest of a plain scalar. `gap` is what was skipped before the place; it counts only if more text
follows it. In a block the lines of a scalar do not stand left of the column `least`.
-/
def plainRest? (inFlow : Bool) (least : Nat) (text : List Char) :
    (fuel : Nat) → Gap → Option PlainScalar
  | 0, _ => none
  | fuel + 1, gap =>
    let p := gap.place
    if p.isDocumentMarker .tagged || p.sees '#' 0 then some ⟨text, gap.broken, p⟩
    else do
      let (run, p) ← plainRun? inFlow [] p.rest.length p
      let (text, gap) :=
        if run.isEmpty then (text, { gap with place := p })
        else (text ++ gap.text ++ run, ⟨[], none, [], false, p⟩)
      if (p.peek? 0).any fun c => isBlank c || Dialect.tagged.isBreak c then
        let gap ← gap.extend? least p.rest.length
        if !inFlow && gap.place.column < least then some ⟨text, gap.broken, gap.place⟩
        else plainRest? inFlow least text fuel gap
      else some ⟨text, gap.broken, p⟩

/-- A plain scalar. -/
def plain? (inFlow : Bool) (least : Nat) (p : Place) : Option PlainScalar :=
  plainRest? inFlow least [] (p.rest.length + 1) ⟨[], none, [], false, p⟩

/-! ## Block scalars -/

/-- What becomes of the line ends after a block scalar. -/
inductive Chomping where
  | strip
  | clip
  | keep
  deriving DecidableEq

/-- The chomping mark. -/
def chomping? (p : Place) : Option Chomping :=
  if p.sees '+' 0 then some .keep else if p.sees '-' 0 then some .strip else none

/-- A digit that tells the indentation, which is not zero. -/
def indentDigit? (p : Place) : Option (Option Nat × Place) :=
  match (p.peek? 0).filter Text.isDigit with
  | none => some (none, p)
  | some '0' => none
  | some c => some (some (c.toNat - 48), p.skip)

/-- The marks after the one that opens a block scalar, in either order. -/
def blockMarks? (p : Place) : Option (Chomping × Option Nat × Place) := do
  match chomping? p with
  | some chomping =>
    let (indent, p) ← indentDigit? p.skip
    return (chomping, indent, p)
  | none =>
    match ← indentDigit? p with
    | (none, p) => return (.clip, none, p)
    | (some indent, p) =>
      match chomping? p with
      | some chomping => return (chomping, some indent, p.skip)
      | none => return (.clip, some indent, p)

/--
Empty lines of a block scalar: their line ends, the last one first, the widest indentation among
them, and the place on the next line after its indentation. A tab may not stand in the indentation.
-/
def emptyLines? (indent : Option Nat) (breaks : List Char) (widest : Nat) :
    (fuel : Nat) → Place → Option (List Char × Nat × Place)
  | 0, p => some (breaks, widest, p)
  | fuel + 1, p =>
    let room := match indent with
      | none => p.rest.length
      | some n => n - p.column
    let p := p.skipMany ((p.rest.take room).takeWhile (· = ' ')).length
    let widest := max widest p.column
    if indent.all (p.column < ·) && p.sees '\t' 0 then none
    else
      match p.readBreak? .tagged with
      | none => some (breaks, widest, p)
      | some (c, p) => emptyLines? indent (c :: breaks) widest fuel p

/-- What is known of a block scalar at the start of a line. -/
structure BlockScalar where
  text : List Char
  /-- the line end before the line -/
  lineEnd : Option Char
  /-- the line ends after that, the last one first -/
  breaks : List Char
  /-- the line before began with a blank -/
  indented : Bool
  place : Place

/-- The lines of a block scalar. -/
def blockLines? (folded : Bool) (indent : Nat) : (fuel : Nat) → BlockScalar → Option BlockScalar
  | 0, s => some s
  | fuel + 1, s =>
    let p := s.place
    if p.column ≠ indent || p.atEnd then some s
    else do
      let indented := (p.peek? 0).any isBlank
      let between :=
        if folded && s.lineEnd = some '\n' && !s.indented && !indented then
          if s.breaks.isEmpty then [' '] else s.breaks.reverse
        else s.lineEnd.toList ++ s.breaks.reverse
      let (line, p) := p.span fun c => !Dialect.tagged.isBreak c
      let text := s.text ++ between ++ line
      let (lineEnd, p) := match p.readBreak? .tagged with
        | some (c, p) => (some c, p)
        | none => (none, p)
      let (breaks, _, p) ← emptyLines? (some indent) [] 0 (p.rest.length + 1) p
      blockLines? folded indent fuel ⟨text, lineEnd, breaks, indented, p⟩

/-- A block scalar in a block whose contents do not stand left of the column `least`. -/
def block? (least : Nat) (p : Place) : Option (List Char × Place) := do
  let (chomping, marked, q) ← blockMarks? p.skip
  let q := q.skipBlanks.skipComment .tagged
  if !q.lineEndAt .tagged 0 then none
  else
    let q := q.skipBreak .tagged
    let given := marked.map fun n => (least - 1) + n
    let (breaks, widest, q) ← emptyLines? given [] 0 (q.rest.length + 1) q
    let indent := given.getD (max (max widest least) 1)
    let s ← blockLines? (p.sees '>' 0) indent (q.rest.length + 1) ⟨[], none, breaks, false, q⟩
    let text := if chomping = .strip then s.text else s.text ++ s.lineEnd.toList
    return (if chomping = .keep then text ++ s.breaks.reverse else text, s.place)

/-! ## The state of the cutting -/

/-- The state between two tokens. -/
structure Scanner where
  place : Place
  tokens : Tokens
  /-- the columns of the open blocks, innermost first -/
  blocks : List Nat
  /-- what may be a key in the innermost flow collection, or in the block -/
  candidate : Option PossibleKey
  /-- what may be a key around each open flow collection, innermost first -/
  outer : List (Option PossibleKey)
  /-- a key may begin at the place -/
  keyAllowed : Bool

namespace Scanner

/-- The state at the start of a text. -/
def start (s : List Char) : Scanner := ⟨Place.start s, Tokens.empty, [], none, [], true⟩

/-- Whether a flow collection is open. -/
def inFlow (s : Scanner) : Bool := !s.outer.isEmpty

/-- The leftmost column for the contents of the innermost open block. -/
def least (s : Scanner) : Nat :=
  match s.blocks with
  | [] => 0
  | column :: _ => column + 1

/-- The state with one more token and another place. -/
def emit (t : Token) (p : Place) (s : Scanner) : Scanner :=
  { s with tokens := s.tokens.push t, place := p }

/-- Closes the blocks that begin at a column or right of it; in flow collections none. -/
def closeBlocks (column : Nat) (s : Scanner) : Scanner :=
  if s.inFlow then s
  else
    { s with
      tokens := (s.blocks.takeWhile (column ≤ ·)).foldl (fun ts _ => ts.push .blockEnd) s.tokens
      blocks := s.blocks.dropWhile (column ≤ ·) }

/-- Opens a block at a column, if it is right of all that are open and no flow collection is. -/
def openBlock (opening : Token) (column position : Nat) (s : Scanner) : Scanner :=
  if s.inFlow || column < s.least then s
  else
    { s with tokens := s.tokens.insertAfter position opening, blocks := column :: s.blocks }

/-- Gives up that the candidate is a key, which it must not be bound to be. -/
def dropCandidate? (s : Scanner) : Option Scanner :=
  if s.candidate.any (·.required) then none else some { s with candidate := none }

/-- Takes the node that begins at the place for a possible key, where a key may begin. -/
def offerKey? (s : Scanner) : Option Scanner :=
  if s.keyAllowed then do
    let s ← s.dropCandidate?
    let p := s.place
    let required := !s.inFlow && s.blocks.head? == some p.column
    return { s with candidate := some ⟨required, s.tokens.count, p.index, p.line, p.column⟩ }
  else some s

/-- A candidate that has not become stale. -/
def freshCandidate? (p : Place) (candidate : Option PossibleKey) :
    Option (Option PossibleKey) :=
  match candidate with
  | none => some none
  | some k => if k.isStale p then if k.required then none else some none else some (some k)

/-- Gives up all candidates that have become stale. -/
def dropStale? (s : Scanner) : Option Scanner := do
  let candidate ← freshCandidate? s.place s.candidate
  let outer ← s.outer.mapM (freshCandidate? s.place)
  return { s with candidate, outer }

/-- Skips blanks, comments and line ends; in a block a key may begin on each new line. -/
def skipToToken : (fuel : Nat) → Scanner → Scanner
  | 0, s => s
  | fuel + 1, s =>
    let p := s.place
    let p := if p.index = 0 && p.sees '\uFEFF' 0 then p.skip else p
    let tabs := s.inFlow || !s.keyAllowed
    let p := p.skipWhile fun c => c = ' ' || (tabs && c = '\t')
    let p := p.skipComment .tagged
    match p.readBreak? .tagged with
    | some (_, p) => skipToToken fuel { s with place := p, keyAllowed := s.keyAllowed || !s.inFlow }
    | none => { s with place := p }

/-! ## Single tokens -/

/-- A token between documents or before one: it ends all blocks. -/
def betweenDocuments? (t : Token) (p : Place) (s : Scanner) : Option Scanner := do
  let s ← (s.closeBlocks 0).dropCandidate?
  return { s.emit t p with keyAllowed := false }

/-- The start of a flow collection. -/
def openFlow? (t : Token) (s : Scanner) : Option Scanner := do
  let s ← s.offerKey?
  let s := s.emit t s.place.skip
  return { s with candidate := none, outer := s.candidate :: s.outer, keyAllowed := true }

/-- The end of a flow collection. -/
def closeFlow? (t : Token) (s : Scanner) : Option Scanner := do
  let s ← s.dropCandidate?
  let s := s.emit t s.place.skip
  match s.outer with
  | [] => return { s with keyAllowed := false }
  | candidate :: outer => return { s with candidate, outer, keyAllowed := false }

/-- A comma between entries of a flow collection. -/
def flowEntry? (s : Scanner) : Option Scanner := do
  let s ← s.dropCandidate?
  return { s.emit .flowEntry s.place.skip with keyAllowed := true }

/-- A dash before an item of a sequence. -/
def blockEntry? (s : Scanner) : Option Scanner :=
  if !s.inFlow && !s.keyAllowed then none
  else do
    let s ← (s.openBlock .blockSequenceStart s.place.column s.tokens.count).dropCandidate?
    return { s.emit .blockEntry s.place.skip with keyAllowed := true }

/-- A question mark before a key. -/
def key? (s : Scanner) : Option Scanner :=
  if !s.inFlow && !s.keyAllowed then none
  else do
    let s ← (s.openBlock .blockMappingStart s.place.column s.tokens.count).dropCandidate?
    return { s.emit .key s.place.skip with keyAllowed := !s.inFlow }

/-- A colon before a value. It makes a key of the candidate. -/
def value? (s : Scanner) : Option Scanner :=
  match s.candidate with
  | some k =>
    let s := { s with tokens := s.tokens.insertAfter k.position .key, candidate := none }
    let s := s.openBlock .blockMappingStart k.column k.position
    some { s.emit .value s.place.skip with keyAllowed := false }
  | none =>
    if !s.inFlow && !s.keyAllowed then none
    else
      let s := s.openBlock .blockMappingStart s.place.column s.tokens.count
      some { s.emit .value s.place.skip with keyAllowed := !s.inFlow }

/-- A token that is part of a node or one, and may begin a key. -/
def nodePart? (read : Place → Option (Token × Place)) (s : Scanner) : Option Scanner := do
  let s ← s.offerKey?
  let (t, p) ← read s.place
  return { s.emit t p with keyAllowed := false }

/-- A plain scalar; if a line ended after it, a key may begin on the next. -/
def plainScalar? (s : Scanner) : Option Scanner := do
  let s ← s.offerKey?
  let scalar ← plain? s.inFlow s.least s.place
  return { s.emit (.scalar true scalar.text) scalar.place with keyAllowed := scalar.broken }

/-- A block scalar. -/
def blockScalar? (s : Scanner) : Option Scanner := do
  let s ← s.dropCandidate?
  let (text, p) ← block? s.least s.place
  return { s.emit (.scalar false text) p with keyAllowed := true }

/-- Whether a plain scalar may begin at the place. -/
def startsPlain (s : Scanner) (c : Char) : Bool :=
  (!isBlank c && !"-?:,[]\x7b\x7d#&*!|>'\"%@\x60".toList.contains c)
    || (c = '-' && !(s.place.peek? 1).any isBlank)
    || (!s.inFlow && (c = '?' || c = ':') && !s.place.gapAt .tagged 1)

/-- The state after the token that begins with a character. -/
def token? (c : Char) (s : Scanner) : Option Scanner :=
  let p := s.place
  let joined := !s.inFlow && !p.gapAt .tagged 1
  if c = '%' && p.column = 0 then do
    let (t, p) ← directive? p
    s.betweenDocuments? t p
  else if p.isMarker .tagged '-' then s.betweenDocuments? .documentStart (p.skipMany 3)
  else if p.isMarker .tagged '.' then s.betweenDocuments? .documentEnd (p.skipMany 3)
  else if c = '[' then s.openFlow? .flowSequenceStart
  else if c = '\x7b' then s.openFlow? .flowMappingStart
  else if c = ']' then s.closeFlow? .flowSequenceEnd
  else if c = '\x7d' then s.closeFlow? .flowMappingEnd
  else if c = ',' then s.flowEntry?
  else if c = '-' && p.gapAt .tagged 1 then s.blockEntry?
  else if c = '?' && !joined then s.key?
  else if c = ':' && !joined then s.value?
  else if c = '*' then
    s.nodePart? fun p => (anchorName? p.skip).map fun (name, p) => (.alias name, p)
  else if c = '&' then
    s.nodePart? fun p => (anchorName? p.skip).map fun (name, p) => (.anchor name, p)
  else if c = '!' then
    s.nodePart? fun p => (tag? s.inFlow p).map fun (tag, p) => (.tag tag, p)
  else if (c = '|' || c = '>') && !s.inFlow then s.blockScalar?
  else if c = '\'' || c = '"' then
    s.nodePart? fun p => (quoted? p).map fun (text, p) => (.scalar false text, p)
  else if s.startsPlain c then s.plainScalar?
  else none

/-- All tokens of what is left. -/
def run? : (fuel : Nat) → Scanner → Option Tokens
  | 0, _ => none
  | fuel + 1, s => do
    let s ← (s.skipToToken (s.place.rest.length + 1)).dropStale?
    match s.place.peek? 0 with
    | none => return (← (s.closeBlocks 0).dropCandidate?).tokens
    | some c => run? fuel (← (s.closeBlocks (s.place.column + 1)).token? c)

end Scanner

/-- The tokens of a text. -/
def tokens? (s : List Char) : Option (List Token) :=
  if s.all isAllowed then ((Scanner.start s).run? (s.length + 1)).map Tokens.toList else none

end TreeEdit.Yaml.Tagged
