import TreeEdit.Number.Basic

/-!
# Numbers of JSON

A number without point and exponent that fits is whole; a minus sign before zero makes it the
negative zero. Every other number is read as its first digits, as many as fit in sixty-four bits,
rounded and then multiplied or divided by a rounded power of ten. The two roundings are part of
the format's reading: they do not always give the number nearest to the text. A number that gets
too large is refused.

Numbers are printed with the fewest digits that read back, and with a sign in a large exponent.
-/

namespace TreeEdit

namespace Magnitude

/-- The product of two magnitudes, rounded; none when it is too large. -/
def mul? (a b : Magnitude) : Option Magnitude := ofRatio? (a.units * b.units) (Nat.pow 2 2148)

/-- The quotient of two magnitudes, rounded; the divisor is not zero. -/
def div? (a b : Magnitude) : Option Magnitude := ofRatio? a.units b.units

end Magnitude

namespace Json

/-- The largest number that digits are collected in. -/
def maxSignificand : Nat := 18446744073709551615

/-- The first digits of a number as far as they fit, and how many were taken. -/
def significand (value taken : Nat) : List Char → Nat × Nat
  | [] => (value, taken)
  | c :: rest =>
    let next := value * 10 + (c.toNat - 48)
    if maxSignificand < next then (value, taken) else significand next (taken + 1) rest

/--
A magnitude times a power of ten, in steps of at most `10 ^ 308`. Below that only zero is left to
scale, which `fuel` reaches after a few steps.
-/
def scale (m : Magnitude) (exponent : Int) : (fuel : Nat) → Option Magnitude
  | 0 => some m
  | fuel + 1 =>
    let power (n : Nat) : Magnitude := (Magnitude.ofRatio? (Nat.pow 10 n) 1).getD .zero
    if exponent.natAbs ≤ 308 then
      if 0 ≤ exponent then m.mul? (power exponent.toNat)
      else m.div? (power exponent.natAbs)
    else if m = .zero then some m
    else if 0 ≤ exponent then none
    else (m.div? (power 308)).bind fun m => scale m (exponent + 308) fuel

/-- A number with a point or an exponent, or one that does not fit a word. -/
def double? (negative : Bool) (whole fraction : List Char) (exponent : Int) : Option Double :=
  let (value, taken) := significand 0 0 (whole ++ fraction)
  -- digits that were not taken count as far as they stand before the point
  let shift : Int :=
    if taken ≤ whole.length then ((whole.length - taken : Nat) : Int)
    else -((taken - whole.length : Nat) : Int)
  let bounded : Int := max (-2147483648) (min 2147483648 (exponent + shift))
  (Magnitude.ofRatio? value 1).bind fun m =>
    (scale m bounded 8).map (Double.finite negative)

/-- The number of the digits before the point, after it, and of an exponent. -/
def number? (negative : Bool) (whole fraction : List Char) (exponent : Option Int) :
    Option Number :=
  match fraction, exponent with
  | [], none =>
    let n : Nat := (Text.natOfDigits? 10 whole).getD 0
    let value : Int := if negative then -(n : Int) else n
    if negative && n = 0 then some (.double (.finite true .zero))
    else
      match Whole.ofInt? value with
      | some w => some (.whole w)
      | none => (double? negative whole [] 0).map .double
  | _, _ => (double? negative whole fraction (exponent.getD 0)).map .double

/-- How numbers are laid out. What is not a number, and an infinity, are null. -/
def layout : Layout where
  least := -5
  most := 16
  plus := true
  point := true
  nan := "null"
  infinity := "null"
  negativeInfinity := "null"

/-- The text of a number. -/
def numberText : Number → String
  | .whole n => n.text
  | .double d => layout.render d

end Json

end TreeEdit
