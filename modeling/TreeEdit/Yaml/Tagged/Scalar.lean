import TreeEdit.Number.Reader
import TreeEdit.Tree.Basic

/-!
# Scalars of the tagged dialect

A plain scalar stands for null, a truth value or a number if its text is one of their spellings, and
for its text otherwise. Whole numbers may be written in four bases. One that is too large for a
document is refused, unless it is so large that it is read as a decimal number. Digits after a
leading zero are text.

The writer asks the same rules which texts need quotes.
-/

namespace TreeEdit.Yaml.Tagged

/-- Whether a text spells null. -/
def isNull (s : List Char) : Bool :=
  ["null", "Null", "NULL", "~"].contains (String.ofList s)

/-- The truth value that a text spells. -/
def bool? (s : List Char) : Option Bool :=
  match String.ofList s with
  | "true" | "True" | "TRUE" => some true
  | "false" | "False" | "FALSE" => some false
  | _ => none

/-- A text without one sign. -/
def unsigned : List Char → List Char
  | '-' :: s | '+' :: s => s
  | s => s

/-- Whether a text is a zero followed by more digits, after a sign perhaps. -/
def hasLeadingZero (s : List Char) : Bool :=
  match unsigned s with
  | '0' :: c :: digits => (c :: digits).all Text.isDigit
  | _ => false

/-- The number that digits without a sign write, in the base that their first characters tell. -/
def magnitude? (s : List Char) : Option Nat :=
  match s with
  | '0' :: 'x' :: digits => Text.natOfDigits? 16 digits
  | '0' :: 'o' :: digits => Text.natOfDigits? 8 digits
  | '0' :: 'b' :: digits => Text.natOfDigits? 2 digits
  | digits => if hasLeadingZero digits then none else Text.natOfDigits? 10 digits

/-- The integer that a text writes. -/
def integer? : List Char → Option Int
  | '-' :: s => (magnitude? s).map fun n => -(n : Int)
  | '+' :: s => (magnitude? s).map Int.ofNat
  | s => (magnitude? s).map Int.ofNat

/-- The decimal number that a text writes. -/
def double? (s : List Char) : Option Double :=
  match String.ofList s with
  | ".inf" | ".Inf" | ".INF" | "+.inf" | "+.Inf" | "+.INF" => some (.infinity false)
  | "-.inf" | "-.Inf" | "-.INF" => some (.infinity true)
  | ".nan" | ".NaN" | ".NAN" => some .nan
  | _ =>
    let twice := match s with
      | '+' :: '+' :: _ | '+' :: '-' :: _ => true
      | _ => false
    if twice then none
    else
      match Double.parse? s with
      | some (.finite negative m) => some (.finite negative m)
      | _ => none

/-- What an integer is read as. -/
inductive Reading where
  | whole (n : Whole)
  | refused
  | notWhole

/-- The least integer that is read as one, `-2 ^ 127`. -/
def leastInteger : Int := -170141183460469231731687303715884105728

/-- The first integer that is too large to be read as one, `2 ^ 128`. -/
def integerBound : Int := 340282366920938463463374607431768211456

/-- Integers of up to 128 bits are whole numbers or refused. -/
def readInteger (n : Int) : Reading :=
  match Whole.ofInt? n with
  | some w => .whole w
  | none => if leastInteger ≤ n && n < integerBound then .refused else .notWhole

/-- The decimal number or the text that a scalar stands for when it is nothing else. -/
def doubleOrText (s : List Char) : Tree :=
  if hasLeadingZero s then .string (String.ofList s)
  else
    match double? s with
    | some d => .number (.double d)
    | none => .string (String.ofList s)

/-- What a plain scalar without a tag stands for; none for an integer that is refused. -/
def plainValue? (s : List Char) : Option Tree :=
  if s.isEmpty || isNull s then some .null
  else
    match bool? s with
    | some b => some (.bool b)
    | none =>
      match (integer? s).map readInteger with
      | some (.whole w) => some (.number (.whole w))
      | some .refused => none
      | some .notWhole | none => some (doubleOrText s)

/-- Whether a text written plainly would be read as something else, or as a number by others. -/
def looksOtherwise (s : List Char) : Bool :=
  plainValue? s ≠ some (.string (String.ofList s)) || hasLeadingZero s

/-- What a scalar with a core tag stands for; none if its text does not fit the tag. -/
def coreValue? (tag : List Char) (s : List Char) : Option Tree :=
  match String.ofList tag with
  | "bool" => (bool? s).map .bool
  | "int" =>
    match (integer? s).map readInteger with
    | some (.whole w) => some (.number (.whole w))
    | _ => none
  | "float" => (double? s).map fun d => .number (.double d)
  | "null" => if isNull s then some .null else none
  | _ => some (.string (String.ofList s))

end TreeEdit.Yaml.Tagged
