import TreeEdit.Number.Shortest

/-!
# Numbers of a document

A number is either whole, from `-2 ^ 63` up to and without `2 ^ 64`, or a binary64 number. The two
kinds never agree: `1` and `1.0` are different numbers and different keys.
-/

namespace TreeEdit

/-- The least number of a signed word of sixty-four bits, `-2 ^ 63`. -/
abbrev Whole.least : Int := -9223372036854775808

/-- The first number beyond a signed word of sixty-four bits, `2 ^ 63`. -/
abbrev Whole.signedBound : Int := 9223372036854775808

/-- The first number beyond an unsigned word of sixty-four bits, `2 ^ 64`. -/
abbrev Whole.bound : Int := 18446744073709551616

/-- A whole number that fits a signed or an unsigned word of sixty-four bits. -/
structure Whole where
  toInt : Int
  min_le : Whole.least ≤ toInt
  lt_max : toInt < Whole.bound
  deriving DecidableEq

namespace Whole

/-- The whole number of this value, if it fits. -/
def ofInt? (n : Int) : Option Whole :=
  if h : least ≤ n ∧ n < bound then some ⟨n, h.1, h.2⟩ else none

/-- The decimal digits of a whole number, after a minus sign if it is negative. -/
def text (n : Whole) : String :=
  String.ofList
    (if n.toInt < 0 then '-' :: Text.digitsOf n.toInt.natAbs else Text.digitsOf n.toInt.natAbs)

theorem ofInt?_toInt (n : Whole) : ofInt? n.toInt = some n := by
  unfold ofInt?; rw [dif_pos ⟨n.min_le, n.lt_max⟩]

theorem ofInt?_eq_some_iff {n : Int} {w : Whole} : ofInt? n = some w ↔ w.toInt = n := by
  constructor
  · intro h
    unfold ofInt? at h
    split at h
    · cases h; rfl
    · cases h
  · intro h; subst h; exact ofInt?_toInt w

end Whole

/-- A number of a document. -/
inductive Number where
  | whole (n : Whole)
  | double (d : Double)
  deriving DecidableEq

namespace Number

/-- Numbers are written without an exponent from `1e-5` up to `1e16`, and always as decimals. -/
def layout : Layout where
  least := -5
  most := 16
  plus := false
  point := true
  nan := ".nan"
  infinity := ".inf"
  negativeInfinity := "-.inf"

/-- The text of a number. -/
def text : Number → String
  | .whole n => n.text
  | .double d => layout.render d

/-- The number of an integer: whole if it fits, else the nearest binary64 number. -/
def ofInt (n : Int) : Number :=
  match Whole.ofInt? n with
  | some w => .whole w
  | none => .double (Double.ofInt n)

/-- The number with a negative zero replaced by zero. -/
def unsignZero : Number → Number
  | .whole n => .whole n
  | .double d => .double d.unsignZero

end Number

end TreeEdit
