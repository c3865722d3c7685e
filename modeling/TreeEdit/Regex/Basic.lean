import TreeEdit.Unicode.Category
import TreeEdit.Unicode.Fold
import TreeEdit.Text.Blank

/-!
# Regular expressions

A regular expression denotes, for a text and a position in it, the positions where a match that
begins there can end. `Regex.ends` computes that set by recursion on the expression; a repetition
is the closure of its body, so no expression and no text makes it run on, and greediness plays no
part. A text has a match when some position has an end (`Regex.isMatch`).

Classes of characters are kept as the operations that the pattern writes, and membership is decided
on those.
-/

namespace TreeEdit

/-! ## Sets of characters -/

/-- A set of characters. -/
inductive CharClass where
  | empty
  | range (first last : Nat)
  | runs (runs : List Unicode.Run)
  | union (a b : CharClass)
  | inter (a b : CharClass)
  | diff (a b : CharClass)
  | compl (a : CharClass)
  /-- the characters that agree with a member when case is ignored -/
  | folded (a : CharClass)

namespace CharClass

/-- Whether a class holds a character. -/
def mem : CharClass → Char → Bool
  | .empty, _ => false
  | .range first last, c => first ≤ c.toNat && c.toNat ≤ last
  | .runs rs, c => Unicode.inRuns rs c
  | .union a b, c => a.mem c || b.mem c
  | .inter a b, c => a.mem c && b.mem c
  | .diff a b, c => a.mem c && !b.mem c
  | .compl a, c => !a.mem c
  | .folded a, c => (Unicode.sameFold c).any fun d => a.mem d

/-- The class of one character. -/
def single (c : Char) : CharClass := .range c.toNat c.toNat

/-- The union of several classes. -/
def unions (cs : List CharClass) : CharClass := cs.foldr .union .empty

/-- Every character. -/
def any : CharClass := .range 0 0x10FFFF

/-- The ASCII characters. -/
def ascii : CharClass := .range 0 0x7F

/-- The decimal digits of all scripts. -/
def digit : CharClass := .runs Unicode.decimalNumber

/-- Blank characters, the Unicode property `White_Space`. -/
def space : CharClass :=
  unions [.range 9 13, .range 0x20 0x20, .range 0x85 0x85, .range 0xA0 0xA0, .range 0x1680 0x1680,
    .range 0x2000 0x200A, .range 0x2028 0x2029, .range 0x202F 0x202F, .range 0x205F 0x205F,
    .range 0x3000 0x3000]

/-- Letters of every kind. -/
def letter : CharClass :=
  unions [.runs Unicode.lowercaseLetter, .runs Unicode.uppercaseLetter,
    .runs Unicode.titlecaseLetter, .runs Unicode.modifierLetter, .runs Unicode.otherLetter]

/-- Marks of every kind. -/
def mark : CharClass :=
  unions [.runs Unicode.nonspacingMark, .runs Unicode.spacingMark, .runs Unicode.enclosingMark]

/-- Letters and what counts as one: numbers written with letters, and letters in circles. -/
def alphabetic : CharClass :=
  unions [letter, .runs Unicode.letterNumber, .range 0x24B6 0x24E9, .range 0x1F130 0x1F149,
    .range 0x1F150 0x1F169, .range 0x1F170 0x1F189]

/-- The characters of words: alphabetic ones, marks, digits, connectors and joiners. -/
def word : CharClass :=
  unions [.range 0x61 0x7A, .range 0x41 0x5A, .range 0x30 0x39, alphabetic, mark, digit,
    .runs Unicode.connectorPunctuation, .range 0x200C 0x200D]

/-- The ASCII characters of words. -/
def wordAscii : CharClass :=
  unions [.range 0x61 0x7A, .range 0x41 0x5A, .range 0x30 0x39, .range 0x5F 0x5F]

end CharClass

/-! ## Expressions -/

/-- A condition on a position. -/
inductive Assertion where
  | startText
  | endText
  /-- after a line break or at the start; `crlf` lets a carriage return break lines too -/
  | startLine (crlf : Bool)
  | endLine (crlf : Bool)
  /-- the characters of `word` begin or end here -/
  | boundary (word : CharClass)
  | noBoundary (word : CharClass)
  | wordStart (word : CharClass)
  | wordEnd (word : CharClass)
  /-- no character of a word stands before, or after -/
  | noWordBefore (word : CharClass)
  | noWordAfter (word : CharClass)

/-- A regular expression. -/
inductive Regex where
  | empty
  | chars (set : CharClass)
  | assert (a : Assertion)
  | seq (a b : Regex)
  | alt (a b : Regex)
  /-- at least `least` times, and at most `extra` times more, or any number of times -/
  | repeated (a : Regex) (least : Nat) (extra : Option Nat)

namespace Assertion

/-- Whether the position before `i` holds a character of the class. -/
def charBefore (text : Array Char) (i : Nat) (set : CharClass) : Bool :=
  i ≠ 0 && (text[i - 1]?).any set.mem

/-- Whether the position at `i` holds a character of the class. -/
def charAt (text : Array Char) (i : Nat) (set : CharClass) : Bool := (text[i]?).any set.mem

/-- Whether the condition holds at a position. -/
def holds (text : Array Char) (i : Nat) : Assertion → Bool
  | .startText => i == 0
  | .endText => i == text.size
  | .startLine false => i == 0 || charBefore text i (.single '\n')
  | .startLine true =>
    i == 0 || charBefore text i (.single '\n')
      || (charBefore text i (.single '\r') && !charAt text i (.single '\n'))
  | .endLine false => i == text.size || charAt text i (.single '\n')
  | .endLine true =>
    i == text.size || charAt text i (.single '\r')
      || (charAt text i (.single '\n') && !charBefore text i (.single '\r'))
  | .boundary w => charBefore text i w != charAt text i w
  | .noBoundary w => charBefore text i w == charAt text i w
  | .wordStart w => !charBefore text i w && charAt text i w
  | .wordEnd w => charBefore text i w && !charAt text i w
  | .noWordBefore w => !charBefore text i w
  | .noWordAfter w => !charAt text i w

end Assertion

namespace Regex

/-- The members of `new` that are not yet in `old`, each once. -/
def fresh (old : List Nat) : List Nat → List Nat
  | [] => []
  | i :: is => if old.contains i then fresh old is else i :: fresh (i :: old) is

/-- All positions that a step reaches from some positions, each once. -/
def reach (step : Nat → List Nat) (front : List Nat) : List Nat := fresh [] (front.flatMap step)

/-- The positions reached in exactly `n` steps. -/
def reachTimes (step : Nat → List Nat) : (n : Nat) → List Nat → List Nat
  | 0, is => is
  | n + 1, is => reachTimes step n (reach step is)

/--
The positions reached in at most `n` steps, `front` being those reached for the first time by the
last step. It stops when a step reaches nothing new, so no more rounds are needed than there are
positions.
-/
def reachUpTo (step : Nat → List Nat) : (n : Nat) → (seen front : List Nat) → List Nat
  | 0, seen, _ => seen
  | n + 1, seen, front =>
    match fresh seen (front.flatMap step) with
    | [] => seen
    | new => reachUpTo step n (seen ++ new) new

/-- The positions where a match that begins at a position can end. -/
def ends (text : Array Char) : Regex → Nat → List Nat
  | .empty, i => [i]
  | .chars set, i => if (text[i]?).any set.mem then [i + 1] else []
  | .assert a, i => if a.holds text i then [i] else []
  | .seq a b, i => reach (ends text b) (ends text a i)
  | .alt a b, i => fresh [] (ends text a i ++ ends text b i)
  | .repeated a least extra, i =>
    let start := reachTimes (ends text a) least [i]
    let rounds := match extra with
      | some n => min n (text.size + 1)
      | none => text.size + 1
    reachUpTo (ends text a) rounds start start

/-- Whether some part of a text, perhaps an empty one, matches. -/
def isMatch (r : Regex) (text : String) : Bool :=
  let chars := text.toList.toArray
  (List.range (chars.size + 1)).any fun i => !(ends chars r i).isEmpty

/-- Whether the whole of a text matches. -/
def matchesWhole (r : Regex) (text : String) : Bool :=
  let chars := text.toList.toArray
  (ends chars r 0).contains chars.size

end Regex

end TreeEdit
