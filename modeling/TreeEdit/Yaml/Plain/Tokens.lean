import TreeEdit.Yaml.Token

/-!
# Tokens of the plain dialect

This dialect keeps watch over indentation more closely than the tagged one. A value that may span
lines has to be indented by one column even where it opens no block, so the scanner keeps such
margins among the columns of the open blocks. A comment needs a blank before it, and tabs do not
count as indentation.

Inside brackets a pair of key and value makes a mapping without braces. The scanner inserts the
braces where it sees the colon, if no brace has been opened before; this, too, is part of the state.
-/

namespace TreeEdit.Yaml.Plain

/-- Whether a character is a blank or ends a line. -/
def isGap (c : Char) : Bool := isBlank c || Dialect.plain.isBreak c

/--
The blanks up to the next word or the end of the line, and the place there. A comment is skipped,
and needs a blank before it.
-/
def restOfLine? (p : Place) : Option (List Char × Place) :=
  let (blanks, p) := p.span isBlank
  if p.sees '#' 0 then
    if blanks.isEmpty then none else some (blanks, p.skipLine .plain)
  else some (blanks, p)

/-! ## Names, tags and directives -/

/-- Whether a character may stand in the name of an anchor. -/
def isNameChar (c : Char) : Bool := !isGap c && !isFlow c && c ≠ '\uFEFF'

/-- The name of an anchor or alias, after its mark. -/
def anchorName? (p : Place) : Option (List Char × Place) :=
  let (name, p) := p.span isNameChar
  if name.isEmpty then none else some (name, p)

/-- Whether a character may stand in a tag between angle brackets, or in the text for a handle. -/
def isWideTagChar (c : Char) : Bool := isWord c || "#;/?:@&=+$,.!~*'()[]%".toList.contains c

/-- Whether a character may stand in a tag with a handle. -/
def isTagChar (c : Char) : Bool := isWideTagChar c && !isFlow c && c ≠ '!'

/-- The character of percent escapes: one octet, or two that are taken for a number. -/
def ofOctets? : List Nat → Option Char
  | [a] => some (Char.ofNat a)
  | [a, b] =>
    let n := a * 0x100 + b
    if 0xD800 ≤ n && n < 0xE000 then none else some (Char.ofNat n)
  | _ => none

/-- The characters of a tag, and the place after them. -/
def tagChars? (test : Char → Bool) : (fuel : Nat) → Place → Option (List Char × Place)
  | 0, p => some ([], p)
  | fuel + 1, p =>
    match p.peek? 0 with
    | none => some ([], p)
    | some c =>
      if c = '%' then do
        let octets ← percentOctets? p.rest
        let c ← ofOctets? octets
        let (cs, p) ← tagChars? test fuel (p.skipMany (3 * octets.length))
        return (c :: cs, p)
      else if test c then do
        let (cs, p) ← tagChars? test fuel p.skip
        return (c :: cs, p)
      else some ([], p)

/-- The handle of a tag: a mark, and perhaps a name with another mark. -/
def tagHandle? (p : Place) : Option (List Char × Place) :=
  if p.sees '!' 0 then
    let (name, p) := p.skip.span isWord
    if p.sees '!' 0 then some ('!' :: name ++ ['!'], p.skip) else some ('!' :: name, p)
  else none

/-- Whether a handle is one that a directive may define, other than the mark alone. -/
def isNamedHandle (handle : List Char) : Bool := 2 ≤ handle.length && handle.getLast? == some '!'

/-- A tag between angle brackets. -/
def verbatimTag? (p : Place) : Option (TagText × Place) := do
  let (suffix, p) ← tagChars? isWideTagChar p.rest.length (p.skipMany 2)
  if p.sees '>' 0 then some (⟨[], suffix, true⟩, p.skip) else none

/-- A tag with a handle. -/
def shorthandTag? (p : Place) : Option (TagText × Place) := do
  let (handle, p) ← tagHandle? p
  let (suffix, p) ← tagChars? isTagChar p.rest.length p
  if isNamedHandle handle then
    if suffix.isEmpty then none else some (⟨handle, suffix, true⟩, p)
  else
    let suffix := handle.tail ++ suffix
    some (if suffix.isEmpty then ⟨[], ['!'], true⟩ else ⟨['!'], suffix, true⟩, p)

/-- A tag; a blank follows it, or a mark of the flow collection it stands in. -/
def tag? (inFlow : Bool) (p : Place) : Option (TagText × Place) := do
  let (tag, p) ← if p.sees '<' 1 then verbatimTag? p else shorthandTag? p
  if p.gapAt .plain 0 || (inFlow && (p.peek? 0).any isFlow) then some (tag, p) else none

/-- A number of a version: at most nine digits. -/
def versionNumber? (p : Place) : Option (Nat × Place) :=
  let (digits, p) := p.span Text.isDigit
  if digits.length ≤ 9 then (Text.natOfDigits? 10 digits).map (·, p) else none

/-- The numbers of a version. -/
def versionNumbers? (p : Place) : Option (Token × Place) := do
  let (major, p) ← versionNumber? p.skipBlanks
  if p.sees '.' 0 then
    let (minor, p) ← versionNumber? p.skip
    return (.version major minor, p)
  else none

/-- The handle and the text it stands for in a directive. -/
def handleDefinition? (p : Place) : Option (Token × Place) := do
  let (handle, p) ← tagHandle? p.skipBlanks
  let p := p.skipBlanks
  let startsText := (p.peek? 0).any fun c => c = '!' || isTagChar c
  if (handle = ['!'] || isNamedHandle handle) && startsText then
    let (text, p) ← tagChars? isWideTagChar p.rest.length p
    if p.gapAt .plain 0 then some (.tagHandle ⟨handle, text, true⟩, p) else none
  else none

/-- A directive with its line end. One that is not known defines nothing. -/
def directive? (p : Place) : Option (Token × Place) := do
  let (name, p) := p.skip.span isWord
  if name.isEmpty || !p.gapAt .plain 0 then none
  else
    let (token, p) ←
      match String.ofList name with
      | "YAML" => versionNumbers? p
      | "TAG" => handleDefinition? p
      | _ => some (.tagHandle ⟨[], [], true⟩, p.skipLine .plain)
    let (_, p) ← restOfLine? p
    if p.lineEndAt .plain 0 then some (token, p.skipBreak .plain) else none

/-! ## Scalars in quotes -/

/-- A run of characters without blanks in quotes. -/
structure QuotedRun where
  text : List Char
  place : Place
  /-- the run ended at a line end after a backslash -/
  escapedBreak : Bool

/-- The characters of a quoted scalar up to a blank, a line end or the closing quote. -/
def quotedRun? (quote : Char) (text : List Char) : (fuel : Nat) → Place → Option QuotedRun
  | 0, p => some ⟨text.reverse, p, false⟩
  | fuel + 1, p =>
    match p.peek? 0 with
    | none => some ⟨text.reverse, p, false⟩
    | some c =>
      if isGap c then some ⟨text.reverse, p, false⟩
      else if c = quote then
        if quote = '\'' && p.sees '\'' 1 then quotedRun? quote ('\'' :: text) fuel (p.skipMany 2)
        else some ⟨text.reverse, p, false⟩
      else if quote = '"' && c = '\\' then
        if p.breakAt .plain 1 then some ⟨text.reverse, p.skip.skipBreak .plain, true⟩
        else do
          let (d, count) ← escape? p.rest.tail
          quotedRun? quote (d :: text) fuel (p.skipMany (count + 1))
      else quotedRun? quote (c :: text) fuel p.skip

/-- Blanks and line ends between two parts of a scalar. -/
structure Gap where
  /-- the blanks on the first line, the last one first -/
  blanks : List Char
  /-- the first line end -/
  first : Option Char
  /-- the other line ends -/
  more : List Char
  /-- a line has ended -/
  broken : Bool
  place : Place

namespace Gap

/-- No blanks before a place. -/
def none (broken : Bool) (p : Place) : Gap := ⟨[], .none, [], broken, p⟩

/-- What stands for the gap in the text of the scalar. -/
def text (g : Gap) : List Char :=
  if g.broken then foldBreaks g.first g.more else g.blanks.reverse

/-- The gap after a line end. -/
def breakLine (p : Place) (g : Gap) : Gap :=
  if g.broken then { g with more := '\n' :: g.more, place := p }
  else { g with blanks := [], first := some '\n', broken := true, place := p }

end Gap

/-- A gap in quotes; tabs may not stand left of the column `margin` on a new line. -/
def quotedGap? (margin : Nat) : (fuel : Nat) → Gap → Option Gap
  | 0, g => some g
  | fuel + 1, g =>
    match g.place.readBreak? .plain with
    | some (_, p) => quotedGap? margin fuel (g.breakLine p)
    | none =>
      match g.place.peek? 0 with
      | none => some g
      | some c =>
        if !isBlank c then some g
        else if !g.broken then
          quotedGap? margin fuel { g with blanks := c :: g.blanks, place := g.place.skip }
        else if c = '\t' && g.place.column < margin then none
        else quotedGap? margin fuel { g with place := g.place.skip }

/-- The rest of a quoted scalar, whose lines do not begin left of the column `margin`. -/
def quotedRest? (quote : Char) (margin : Nat) (text : List Char) :
    (fuel : Nat) → Place → Option (List Char × Place)
  | 0, _ => none
  | fuel + 1, p =>
    if p.isDocumentMarker .plain || p.atEnd || p.column < margin then none
    else do
      let run ← quotedRun? quote [] p.rest.length p
      let text := text ++ run.text
      if run.place.sees quote 0 then some (text, run.place.skip)
      else
        let gap ← quotedGap? margin run.place.rest.length (.none run.escapedBreak run.place)
        quotedRest? quote margin (text ++ gap.text) fuel gap.place

/--
A scalar in quotes. Only the end of the line may follow it, a colon, or in a flow collection a mark
of that; a colon outside of flow collections stands on the line where the scalar began.
-/
def quoted? (inFlow : Bool) (margin : Nat) (p : Place) : Option (List Char × Place) := do
  let quote ← p.peek? 0
  let (text, q) ← quotedRest? quote margin [] (p.rest.length + 1) p.skip
  let (_, q) ← restOfLine? q
  let closed := q.lineEndAt .plain 0
    || (inFlow && (q.peek? 0).any fun c => c = ',' || c = '\x7d' || c = ']')
    || (q.sees ':' 0 && (inFlow || p.line = q.line))
  if closed then some (text, q) else none

/-! ## Plain scalars -/

/-- Whether the next character belongs to a plain scalar. -/
def continuesPlain (inFlow : Bool) (p : Place) : Bool :=
  (p.peek? 0).any fun c =>
    !isGap c && !(inFlow && isFlow c)
      && !(c = ':' && (p.gapAt .plain 1 || (inFlow && (p.peek? 1).any isFlow)))

/-- The characters of a plain scalar up to a blank or its end. -/
def plainRun (inFlow : Bool) (text : List Char) : (fuel : Nat) → Place → List Char × Place
  | 0, p => (text.reverse, p)
  | fuel + 1, p =>
    match p.peek? 0 with
    | some c =>
      if continuesPlain inFlow p then plainRun inFlow (c :: text) fuel p.skip
      else (text.reverse, p)
    | none => (text.reverse, p)

/--
A gap in a plain scalar whose lines do not begin left of the column `least`. There a tab may stand
on an empty line only, with a comment perhaps.
-/
def plainGap? (least : Nat) : (fuel : Nat) → Gap → Option Gap
  | 0, g => some g
  | fuel + 1, g =>
    match g.place.readBreak? .plain with
    | some (_, p) => plainGap? least fuel ({ g with broken := g.place.fresh }.breakLine p)
    | none =>
      match g.place.peek? 0 with
      | none => some g
      | some c =>
        if !isBlank c then some g
        else if !g.place.fresh then
          plainGap? least fuel { g with blanks := c :: g.blanks, place := g.place.skip }
        else if c = '\t' && g.place.column < least then do
          let (_, p) ← restOfLine? g.place
          if p.lineEndAt .plain 0 then plainGap? least fuel { g with place := p } else none
        else plainGap? least fuel { g with place := g.place.skip }

/-- The rest of a plain scalar; what was skipped before the place counts only if text follows. -/
def plainRest? (inFlow : Bool) (least : Nat) (text : List Char) :
    (fuel : Nat) → Gap → Option (List Char × Place)
  | 0, _ => none
  | fuel + 1, gap =>
    let p := gap.place
    if p.isDocumentMarker .plain || p.sees '#' 0 then some (text, p)
    else if inFlow && p.sees '-' 0 && (p.peek? 1).any isFlow then none
    else
      let (run, q) := plainRun inFlow [] p.rest.length p
      let (text, gap) :=
        if run.isEmpty then (text, { gap with place := q })
        else (text ++ { gap with broken := p.fresh }.text ++ run, Gap.none false q)
      if (q.peek? 0).any isGap then do
        let gap ← plainGap? least q.rest.length gap
        if !inFlow && gap.place.column < least then some (text, gap.place)
        else plainRest? inFlow least text fuel gap
      else some (text, q)

/-- A plain scalar, which is not empty. -/
def plain? (inFlow : Bool) (least : Nat) (p : Place) : Option (List Char × Place) := do
  if inFlow && p.column < least then none
  else
    let (text, p) ← plainRest? inFlow least [] (p.rest.length + 1) (.none false p)
    if text.isEmpty then none else some (text, p)

/-! ## Block scalars -/

/-- What becomes of the line ends after a block scalar. -/
inductive Chomping where
  | strip
  | clip
  | keep
  deriving DecidableEq

/-- The chomping mark. -/
def chomping? (p : Place) : Option Chomping :=
  if p.sees '+' 0 then some .keep else if p.sees '-' 0 then some .strip else none

/-- A digit that tells the indentation, which is not zero. -/
def indentDigit? (p : Place) : Option (Option Nat × Place) :=
  match (p.peek? 0).filter Text.isDigit with
  | none => some (none, p)
  | some '0' => none
  | some c => some (some (c.toNat - 48), p.skip)

/-- The marks after the one that opens a block scalar, in either order. -/
def blockMarks? (p : Place) : Option (Chomping × Option Nat × Place) := do
  match chomping? p with
  | some chomping =>
    let (indent, p) ← indentDigit? p.skip
    return (chomping, indent, p)
  | none =>
    match ← indentDigit? p with
    | (none, p) => return (.clip, none, p)
    | (some indent, p) =>
      match chomping? p with
      | some chomping => return (chomping, some indent, p.skip)
      | none => return (.clip, some indent, p)

/--
Empty lines of a block scalar: how many, the widest indentation among them, and the place on the
next line after its indentation.
-/
def emptyLines (indent : Option Nat) (count widest : Nat) :
    (fuel : Nat) → Place → Nat × Nat × Place
  | 0, p => (count, widest, p)
  | fuel + 1, p =>
    let room := match indent with
      | none => p.rest.length
      | some n => n - p.column
    let p := p.skipMany ((p.rest.take room).takeWhile (· = ' ')).length
    let widest := max widest p.column
    match p.readBreak? .plain with
    | none => (count, widest, p)
    | some (_, p) => emptyLines indent (count + 1) widest fuel p

/-- What is known of a block scalar at the start of a line. -/
structure BlockScalar where
  text : List Char
  /-- a line of the scalar has ended before the line -/
  ended : Bool
  /-- how many empty lines stand before the line -/
  emptyLines : Nat
  /-- the line before began with a blank -/
  indented : Bool
  place : Place

/-- So many line feeds. -/
def lineFeeds (count : Nat) : List Char := List.replicate count '\n'

/-- The lines of a block scalar. -/
def blockLines (folded : Bool) (indent : Nat) : (fuel : Nat) → BlockScalar → BlockScalar
  | 0, s => s
  | fuel + 1, s =>
    let p := s.place
    if p.column ≠ indent || p.atEnd || (indent = 0 && p.isMarker .plain '.') then s
    else
      let indented := (p.peek? 0).any isBlank
      let between :=
        if folded && s.ended && !s.indented && !indented then
          if s.emptyLines = 0 then [' '] else lineFeeds s.emptyLines
        else lineFeeds (s.ended.toNat + s.emptyLines)
      let (line, p) := p.span fun c => !Dialect.plain.isBreak c
      let text := s.text ++ between ++ line
      match p.readBreak? .plain with
      | none => ⟨text, false, 0, indented, p⟩
      | some (_, p) =>
        let (count, _, p) := TreeEdit.Yaml.Plain.emptyLines (some indent) 0 0 (p.rest.length + 1) p
        blockLines folded indent fuel ⟨text, true, count, indented, p⟩

/-- The text of a block scalar that has no lines before the end of the text. -/
def emptyBlock (chomping : Chomping) (sameLine : Bool) (emptyLines : Nat) : List Char :=
  if sameLine then []
  else
    match chomping with
    | .strip => []
    | .clip => ['\n']
    | .keep => lineFeeds (max emptyLines 1)

/-- The text of a block scalar after its last line. -/
def BlockScalar.chomped (chomping : Chomping) (indent : Nat) (s : BlockScalar) : List Char :=
  let cut := s.place.atEnd && max indent 1 ≤ s.place.column
  match chomping with
  | .strip => s.text
  | .clip => s.text ++ lineFeeds (s.ended.toNat + cut.toNat)
  | .keep => s.text ++ lineFeeds (s.ended.toNat + cut.toNat + s.emptyLines)

/-- A block scalar in a block at a column, or in a document. -/
def block? (column? : Option Nat) (p : Place) : Option (List Char × Place) := do
  let (chomping, marked, q) ← blockMarks? p.skip
  let (_, q) ← restOfLine? q
  let start := q.skipBreak .plain
  if !q.lineEndAt .plain 0 || start.sees '\t' 0 then none
  else
    let given := marked.map (column?.getD 0 + ·)
    let (count, widest, q) := emptyLines given 0 0 (start.rest.length + 1) start
    let least := match column? with
      | none => 0
      | some column => column + 1
    let indent := given.getD (max widest least)
    if q.atEnd then some (emptyBlock chomping (p.line = q.line) count, q)
    else if q.column < indent && column?.all (· < q.column) then none
    else
      let s := blockLines (p.sees '>' 0) indent (q.rest.length + 1) ⟨[], false, count, false, q⟩
      return (s.chomped chomping indent, s.place)

/-! ## The state of the cutting -/

/-- A column to which a block or a margin is indented. -/
structure Margin where
  column : Nat
  isBlock : Bool

/-- The state between two tokens. -/
structure Scanner where
  place : Place
  tokens : Tokens
  /-- the open blocks and margins, innermost first -/
  margins : List Margin
  /-- what may be a key in the innermost flow collection, or in the block -/
  candidate : Option PossibleKey
  /-- what may be a key around each open flow collection, innermost first -/
  outer : List (Option PossibleKey)
  /-- a key may begin at the place -/
  keyAllowed : Bool
  /-- the index at which a colon needs no blank after it -/
  adjacentAt : Nat
  /-- a brace or a question mark in a flow collection announces keys -/
  announced : Bool
  /-- for each open bracket, innermost first, whether a pair without braces is open in it -/
  pairs : List Bool

namespace Scanner

/-- The state at the start of a text. -/
def start (s : List Char) : Scanner :=
  ⟨Place.start s, Tokens.empty, [], none, [], true, 0, false, []⟩

/-- Whether a flow collection is open. -/
def inFlow (s : Scanner) : Bool := !s.outer.isEmpty

/-- The column of the innermost block or margin. -/
def margin? (s : Scanner) : Option Nat := s.margins.head?.map (·.column)

/-- The column that lines inside the innermost block or margin may not begin left of. -/
def margin (s : Scanner) : Nat := s.margin?.getD 0

/-- The leftmost column for what is inside of the innermost block or margin. -/
def least (s : Scanner) : Nat := s.margin?.elim 0 (· + 1)

/-- The state with one more token and another place. -/
def emit (t : Token) (p : Place) (s : Scanner) : Scanner :=
  { s with tokens := s.tokens.push t, place := p }

/-- Closes the blocks and margins at a column or right of it; in flow collections none. -/
def closeBlocks (column : Nat) (s : Scanner) : Scanner :=
  if s.inFlow then s
  else
    let closed := (s.margins.takeWhile (column ≤ ·.column)).filter (·.isBlock)
    { s with
      tokens := closed.foldl (fun ts _ => ts.push .blockEnd) s.tokens
      margins := s.margins.dropWhile (column ≤ ·.column) }

/-- Drops the margins that are inside of all blocks. -/
def dropMargins (s : Scanner) : Scanner :=
  { s with margins := s.margins.dropWhile (!·.isBlock) }

/-- Opens a block at a column, if it is right of all that are open and no flow collection is. -/
def openBlock (opening : Token) (column position : Nat) (s : Scanner) : Scanner :=
  if s.inFlow then s
  else
    let margins := match s.margins with
      | m :: rest => if !m.isBlock && m.column ≤ column then rest else m :: rest
      | [] => []
    if margins.head?.any (column ≤ ·.column) then { s with margins }
    else
      { s with
        tokens := s.tokens.insertAfter position opening
        margins := ⟨column, true⟩ :: margins }

/-- Opens a margin of one column inside of a block. -/
def openMargin (s : Scanner) : Scanner :=
  match s.inFlow, s.margins with
  | false, ⟨column, true⟩ :: _ => { s with margins := ⟨column + 1, false⟩ :: s.margins }
  | _, _ => s

/-- Gives up that the candidate is a key, which it must not be bound to be. -/
def dropCandidate? (s : Scanner) : Option Scanner :=
  if s.candidate.any (·.required) then none else some { s with candidate := none }

/-- Takes the node that begins at the place for a possible key, where a key may begin. -/
def offerKey (s : Scanner) : Scanner :=
  if s.keyAllowed then
    let p := s.place
    let required :=
      !s.inFlow && s.margins.head?.any fun m => m.isBlock && m.column = p.column
    { s with candidate := some ⟨required, s.tokens.count, p.index, p.line, p.column⟩ }
  else s

/-- Gives up the candidate if it has become stale, which none does in flow collections. -/
def dropStale? (s : Scanner) : Option Scanner :=
  if !s.inFlow && s.candidate.any (·.isStale s.place) then s.dropCandidate? else some s

/--
Skips blanks, comments and line ends; in a block a key may begin on each new line. Tabs in the
indentation of a block are refused on lines that are not empty.
-/
def skipToToken? : (fuel : Nat) → Scanner → Option Scanner
  | 0, s => some s
  | fuel + 1, s =>
    let p := s.place
    match p.readBreak? .plain with
    | some (_, p) =>
      skipToToken? fuel { s with place := p, keyAllowed := s.keyAllowed || !s.inFlow }
    | none =>
      match p.peek? 0 with
      | none => some s
      | some c =>
        if c = '\t' && p.fresh && s.margin?.any (p.column < ·) then do
          let (_, p) ← restOfLine? p
          if p.lineEndAt .plain 0 then skipToToken? fuel { s with place := p } else none
        else if isBlank c then skipToToken? fuel { s with place := p.skip }
        else if c = '#' then skipToToken? fuel { s with place := p.skipLine .plain }
        else some s

/-! ## Single tokens -/

/-- A token between documents or before one: it ends all blocks. -/
def betweenDocuments? (t : Token) (p : Place) (s : Scanner) : Option Scanner := do
  let s ← (s.closeBlocks 0).dropCandidate?
  return { s.emit t p with keyAllowed := false }

/-- The end of a document, with nothing else on its line. -/
def endDocument? (s : Scanner) : Option Scanner := do
  let (_, p) ← restOfLine? (s.place.skipMany 3)
  if p.lineEndAt .plain 0 then s.betweenDocuments? .documentEnd p else none

/-- The most that flow collections may be nested. -/
def maxFlowDepth : Nat := 255

/-- The start of a flow collection. -/
def openFlow? (t : Token) (s : Scanner) : Option Scanner :=
  if s.outer.length = maxFlowDepth then none
  else do
    let s := s.offerKey.openMargin
    let (_, p) ← restOfLine? s.place.skip
    let s := { s.emit t p with
      candidate := none, outer := s.candidate :: s.outer, keyAllowed := true }
    return if t = .flowMappingStart then { s with announced := true }
      else { s with pairs := false :: s.pairs }

/-- Closes the pair without braces that is open in the innermost bracket. -/
def closePair (s : Scanner) : Scanner :=
  match s.pairs with
  | true :: pairs =>
    { s with announced := false, pairs := false :: pairs, tokens := s.tokens.push .flowMappingEnd }
  | _ => s

/-- The end of a flow collection. -/
def closeFlow? (t : Token) (s : Scanner) : Option Scanner := do
  let s ← s.dropCandidate?
  let s := match s.outer with
    | [] => s
    | candidate :: outer => { s with candidate, outer }
  let s := { s with keyAllowed := false }
  let s := if t = .flowSequenceEnd then
      let s := s.closePair
      { s with pairs := s.pairs.tail }
    else s
  let (_, p) ← restOfLine? s.place.skip
  let s := if s.inFlow then { s with adjacentAt := p.index } else s
  return s.emit t p

/-- A comma between entries of a flow collection. -/
def flowEntry? (s : Scanner) : Option Scanner := do
  let s := (← s.dropCandidate?).closePair
  let (_, p) ← restOfLine? s.place.skip
  return { s.emit .flowEntry p with keyAllowed := true }

/-- A dash before an item of a sequence. -/
def blockEntry? (s : Scanner) : Option Scanner :=
  if s.inFlow || !s.keyAllowed then none
  else do
    let s := s.openBlock .blockSequenceStart s.place.column s.tokens.count
    let (blanks, p) ← restOfLine? s.place.skip
    if blanks.contains '\t' && p.sees '-' 0 && p.gapAt .plain 1 then none
    else
      let s := if p.breakAt .plain 0 || (p.peek? 0).any isFlow then s.openMargin else s
      let s ← s.dropCandidate?
      return { s.emit .blockEntry p with keyAllowed := true }

/-- Skips spaces, comments and line ends after a question mark, at least one of them. -/
def skipAfterKey : (fuel : Nat) → Scanner → Scanner
  | 0, s => s
  | fuel + 1, s =>
    let p := (s.place.skipWhile (· = ' ')).skipComment .plain
    match p.readBreak? .plain with
    | some (_, p) =>
      skipAfterKey fuel { s with place := p, keyAllowed := s.keyAllowed || !s.inFlow }
    | none => { s with place := p }

/-- A question mark before a key. -/
def key? (s : Scanner) : Option Scanner :=
  if !s.inFlow && !s.keyAllowed then none
  else do
    let s := if s.inFlow then { s with announced := true }
      else s.openBlock .blockMappingStart s.place.column s.tokens.count
    let s ← s.dropCandidate?
    let p := s.place.skip
    let s := { s with keyAllowed := !s.inFlow, place := p }
    if p.sees ' ' 0 || p.breakAt .plain 0 then
      let s := s.skipAfterKey (p.rest.length + 1)
      if s.place.sees '\t' 0 then none else return s.emit .key s.place
    else none

/-- The place after a colon. A tab alone does not separate it from a word. -/
def afterColon? (p : Place) : Option Place :=
  if p.sees '\t' 0 then do
    let (blanks, q) ← restOfLine? p
    if !blanks.contains ' ' && (q.peek? 0).any isWord then none else some q
  else some p

/-- A colon before a value. It makes a key of the candidate, and inside brackets a pair. -/
def value? (s : Scanner) : Option Scanner := do
  let opensPair := !s.pairs.isEmpty && !s.announced
  let s := if opensPair then { s with pairs := true :: s.pairs.tail } else s
  let p ← afterColon? s.place.skip
  match s.candidate with
  | some k =>
    if opensPair && k.line < s.place.line then none
    else
      let tokens := s.tokens.insertAfter k.position .key
      let tokens := if opensPair then tokens.insertAfter k.position .flowMappingStart else tokens
      let s := { s with tokens, candidate := none, keyAllowed := false }
      let s := (s.openBlock .blockMappingStart k.column k.position).openMargin
      return s.emit .value p
  | none =>
    if !s.inFlow && !s.keyAllowed then none
    else
      let s := if opensPair then { s with tokens := s.tokens.push .flowMappingStart } else s
      let s := s.openBlock .blockMappingStart s.place.column s.tokens.count
      return { s.openMargin.emit .value p with keyAllowed := !s.inFlow }

/-- A token that is part of a node or one, and may begin a key. -/
def nodePart? (read : Place → Option (Token × Place)) (s : Scanner) : Option Scanner := do
  let s := s.offerKey
  let (t, p) ← read s.place
  return { s.emit t p with keyAllowed := false }

/-- A scalar in quotes. In a flow collection a colon may follow it without a blank. -/
def quotedScalar? (s : Scanner) : Option Scanner := do
  let s := s.offerKey
  let (text, p) ← quoted? s.inFlow s.margin s.place
  let s := { s with place := p, keyAllowed := false }
  let s ← s.skipToToken? (p.rest.length + 1)
  return { s.emit (.scalar false text) s.place with adjacentAt := s.place.index }

/-- A plain scalar; if a line ended after it, a key may begin on the next. -/
def plainScalar? (s : Scanner) : Option Scanner := do
  let s := s.offerKey.dropMargins
  let (text, p) ← plain? s.inFlow s.least s.place
  return { s.emit (.scalar true text) p with keyAllowed := p.fresh }

/-- A block scalar. -/
def blockScalar? (s : Scanner) : Option Scanner := do
  let s := s.offerKey.dropMargins
  let (text, p) ← block? s.margin? s.place
  return { s.emit (.scalar false text) p with keyAllowed := true }

/-- The state after the token that begins with a character. -/
def token? (c : Char) (s : Scanner) : Option Scanner :=
  let p := s.place
  let apart := p.gapAt .plain 1
  if c = '%' && p.column = 0 then do
    let (t, p) ← directive? p
    s.betweenDocuments? t p
  else if p.isMarker .plain '-' then s.betweenDocuments? .documentStart (p.skipMany 3)
  else if p.isMarker .plain '.' then s.endDocument?
  else if c = '[' then s.openFlow? .flowSequenceStart
  else if c = '\x7b' then s.openFlow? .flowMappingStart
  else if c = ']' then s.closeFlow? .flowSequenceEnd
  else if c = '\x7d' then s.closeFlow? .flowMappingEnd
  else if c = ',' then s.flowEntry?
  else if c = '-' && apart then s.blockEntry?
  else if c = '?' && apart then s.key?
  else if c = ':'
      && (apart || (s.inFlow && ((p.peek? 1).any isFlow || p.index = s.adjacentAt))) then
    s.value?
  else if c = '*' then
    s.nodePart? fun p => (anchorName? p.skip).map fun (name, p) => (.alias name, p)
  else if c = '&' then
    s.nodePart? fun p => (anchorName? p.skip).map fun (name, p) => (.anchor name, p)
  else if c = '!' then
    s.nodePart? fun p => (tag? s.inFlow p).map fun (tag, p) => (.tag tag, p)
  else if (c = '|' || c = '>') && !s.inFlow then s.blockScalar?
  else if c = '\'' || c = '"' then s.quotedScalar?
  else if c = '%' || c = '@' || c = '\x60' then none
  else s.plainScalar?

/-- The end of the text: no key may be missing its colon any more. -/
def finish? (s : Scanner) : Option Tokens :=
  if (s.candidate :: s.outer).any fun k => k.any (·.required) then none
  else some (s.closeBlocks 0).tokens

/-- All tokens of what is left. -/
def run? : (fuel : Nat) → Scanner → Option Tokens
  | 0, _ => none
  | fuel + 1, s => do
    let s ← (← s.skipToToken? (s.place.rest.length + 1)).dropStale?
    match s.place.peek? 0 with
    | none => s.finish?
    | some c =>
      let s := s.closeBlocks (s.place.column + 1)
      if s.margin?.any (s.place.column < ·) then none else run? fuel (← s.token? c)

end Scanner

/-- The tokens of a text, which ends at the first null character. -/
def tokens? (s : List Char) : Option (List Token) :=
  let s := s.takeWhile (· ≠ '\x00')
  ((Scanner.start s).run? (2 * s.length + 1)).map Tokens.toList

end TreeEdit.Yaml.Plain
