import TreeEdit.Regex.Parser
import TreeEdit.Tree.Location

/-!
# Path patterns

A pattern is a text cut into segments by a delimiter. A segment is `*` (one level), `**` (any
number of levels), `[n]` (an item of a sequence), or else the text of a key, which is also a
regular expression over keys. The pattern `/` has no segments and stands for the whole document, as
does any pattern made of `**` only.

A `Cursor` is a place in a pattern. Passing a `**` only raises its `greedy` flag, so a cursor never
rests on one; the flag says that the segment under the cursor may be awaited at any depth.
-/

namespace TreeEdit

/-- One segment of a pattern. -/
inductive Segment where
  /-- a key's text, and the expression that whole keys are held against -/
  | literal (text : String) (regex : Regex)
  | wildcard
  | greedy
  | index (n : Nat)

namespace Segment

/-- The text of a segment. Blanks and a sign in an index are not kept. -/
def text : Segment → String
  | .literal text _ => text
  | .wildcard => "*"
  | .greedy => "**"
  | .index n => (Step.index n).text

/-- Whether this is `**`. -/
def isGreedy : Segment → Bool
  | .greedy => true
  | _ => false

/-- Whether this is `*`. -/
def isWildcard : Segment → Bool
  | .wildcard => true
  | _ => false

/-- Segments of one kind with one text or one position. -/
def same : Segment → Segment → Bool
  | .literal a _, .literal b _ => a = b
  | .wildcard, .wildcard => true
  | .greedy, .greedy => true
  | .index m, .index n => m = n
  | _, _ => false

/-- Whether the segment matches the text of a key. A `**` matches none; it lets a walk go on. -/
def matchesText (s : Segment) (key : String) : Bool :=
  match s with
  | .literal text regex => text = key || regex.isMatch key
  | .wildcard => true
  | .greedy => false
  | .index n => key = (Step.index n).text

/-- Whether the segment selects an item of a sequence. -/
def matchesIndex (s : Segment) (i : Nat) : Bool :=
  match s with
  | .index n => n = i
  | .wildcard => true
  | .literal _ _ | .greedy => false

/-- Whether the segment matches a key. A key without a text is matched by `*` alone. -/
def matchesKey (s : Segment) (key : Tree) : Bool :=
  match key.text? with
  | some text => s.matchesText text
  | none => s.isWildcard

/-- Why a text is no pattern. -/
inductive Fault where
  | noDelimiter
  | empty
  | emptySegment
  | regex (segment : String) (fault : Regex.Fault)
  deriving DecidableEq

/-- What is wrong with a pattern. -/
def Fault.message : Fault → String
  | .noDelimiter => "delimiter must not be empty"
  | .empty => "pattern is empty"
  | .emptySegment => "empty segment"
  | .regex segment fault =>
    "segment '" ++ segment ++ "' is not a valid regex: " ++ fault.message

/-- The position that an index segment names: digits, perhaps after a plus sign, below `2 ^ 64`. -/
def position? (s : List Char) : Option Nat :=
  let digits := match s with
    | '+' :: rest => rest
    | s => s
  (Text.natOfDigits? 10 digits).filter (· < Whole.bound.toNat)

/-- The text between brackets. -/
def bracketed? : List Char → Option (List Char)
  | '[' :: rest => if rest.getLast? = some ']' then some rest.dropLast else none
  | _ => none

/-- The expression that holds a whole key against the text of a segment. -/
def anchored (text : String) : String := "^(?:" ++ text ++ ")$"

/-- The segment that a text writes. -/
def parse (text : String) : Except Fault Segment :=
  if text = "" then .error .emptySegment
  else if text = "**" then .ok .greedy
  else if text = "*" then .ok .wildcard
  else
    match (bracketed? text.toList).bind fun inner => position? (Text.trimChars inner) with
    | some n => .ok (.index n)
    | none =>
      match Regex.parse (anchored text) with
      | .ok regex => .ok (.literal text regex)
      | .error fault => .error (.regex text fault)

end Segment

/-- A place in a pattern; `greedy` tells that a `**` stands just before it. -/
structure Cursor where
  pos : Nat
  greedy : Bool
  deriving DecidableEq

/-- A path pattern. -/
structure Pattern where
  raw : String
  delimiter : String
  segments : List Segment

namespace Pattern

/-- The text of the pattern for the whole document. -/
def root : String := "/"

/-- Why a text is no pattern, with the text that is at fault. -/
structure Invalid where
  pattern : String
  fault : Segment.Fault
  deriving DecidableEq

/-- The pattern that a text writes with a delimiter. -/
def compile (raw delimiter : String) : Except Invalid Pattern :=
  let trimmed := Text.trim raw
  if delimiter = "" then .error ⟨raw, .noDelimiter⟩
  else if trimmed = root then .ok ⟨trimmed, delimiter, []⟩
  else if trimmed = "" then .error ⟨raw, .empty⟩
  else
    match (Text.splitOn delimiter trimmed).mapM Segment.parse with
    | .ok segments => .ok ⟨trimmed, delimiter, segments⟩
    | .error fault => .error ⟨trimmed, fault⟩

/-- Whether the pattern stands for the whole document. -/
def isRoot (p : Pattern) : Bool := p.segments.all Segment.isGreedy

/-- The cursor moved over the `**` at the front of the segments before it. -/
def skipGreedy (c : Cursor) : List Segment → Cursor
  | .greedy :: rest => skipGreedy ⟨c.pos + 1, true⟩ rest
  | _ => c

/-- The cursor at the first segment. -/
def start (p : Pattern) : Cursor := skipGreedy ⟨0, false⟩ p.segments

/-- The cursor after the segment under it has matched. Only a `**` right there makes it greedy. -/
def advance (p : Pattern) (c : Cursor) : Cursor :=
  skipGreedy ⟨c.pos + 1, false⟩ (p.segments.drop (c.pos + 1))

/-- The segment under a cursor. -/
def segment? (p : Pattern) (c : Cursor) : Option Segment := p.segments[c.pos]?

/-- Whether every segment is used up. -/
def isExhausted (p : Pattern) (c : Cursor) : Bool := p.segments.length ≤ c.pos

/-- The segments not yet used up. -/
def remaining (p : Pattern) (c : Cursor) : List Segment := p.segments.drop c.pos

/-- The pattern text of the segments not yet used up. -/
def remainingText (p : Pattern) (c : Cursor) : String :=
  Text.joinWith p.delimiter ((p.remaining c).map Segment.text)

/-- Whether two lists of segments agree. -/
def sameSegments : List Segment → List Segment → Bool
  | [], [] => true
  | a :: as, b :: bs => a.same b && sameSegments as bs
  | _, _ => false

/-- Cursors with the same left to match. -/
def isEquivalent (p : Pattern) (a b : Cursor) : Bool :=
  a.greedy = b.greedy && sameSegments (p.remaining a) (p.remaining b)

end Pattern

end TreeEdit
