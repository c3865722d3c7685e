import TreeEdit.Yaml.Place

/-!
# Tokens of YAML text

Tokens tell the structure of a text without its layout: where blocks begin and end, which node is a
key, and the scalars with their line ends resolved.

That a node is a key is seen only at the colon after it. So a reader keeps the places where a key
may have begun, and when the colon comes it inserts the tokens that were missing. `Tokens` is the
list read so far, with that insertion.
-/

namespace TreeEdit.Yaml

/--
A tag as it is written: a handle and what follows it. Percent escapes in it may fail to write any
characters; such a tag is not legible.
-/
structure TagText where
  handle : List Char
  suffix : List Char
  legible : Bool
  deriving DecidableEq

/-- A token. -/
inductive Token where
  | version (major minor : Nat)
  | tagHandle (tag : TagText)
  | documentStart
  | documentEnd
  | blockSequenceStart
  | blockMappingStart
  | blockEnd
  | flowSequenceStart
  | flowSequenceEnd
  | flowMappingStart
  | flowMappingEnd
  | blockEntry
  | flowEntry
  | key
  | value
  | alias (name : List Char)
  | anchor (name : List Char)
  | tag (tag : TagText)
  | scalar (plain : Bool) (text : List Char)
  deriving DecidableEq

/-- The tokens of a text up to some place, the last one first. -/
structure Tokens where
  reversed : List Token
  count : Nat

namespace Tokens

/-- No tokens. -/
def empty : Tokens := ⟨[], 0⟩

/-- One more token. -/
def push (t : Token) (ts : Tokens) : Tokens := ⟨t :: ts.reversed, ts.count + 1⟩

/-- A token after the first ones, so many of them. -/
def insertAfter (first : Nat) (t : Token) (ts : Tokens) : Tokens :=
  let behind := ts.count - first
  ⟨ts.reversed.take behind ++ t :: ts.reversed.drop behind, ts.count + 1⟩

/-- The tokens in order. -/
def toList (ts : Tokens) : List Token := ts.reversed.reverse

@[simp] theorem toList_push (t : Token) (ts : Tokens) :
    (ts.push t).toList = ts.toList ++ [t] := by
  simp [push, toList]

end Tokens

/-- A node that is a key if a colon follows it. -/
structure PossibleKey where
  /-- nothing but a key may stand there -/
  required : Bool
  /-- how many tokens stand before the node -/
  position : Nat
  index : Nat
  line : Nat
  column : Nat

namespace PossibleKey

/-- Whether a colon comes too late: on another line, or more than 1024 characters behind. -/
def isStale (k : PossibleKey) (p : Place) : Bool :=
  k.line < p.line || k.index + 1024 < p.index

end PossibleKey

end TreeEdit.Yaml
