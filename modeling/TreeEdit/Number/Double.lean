/-!
# Binary floating point numbers

A `Double` is a binary64 number taken apart: it is not a number, an infinity, or a sign with a
magnitude `mantissa * 2 ^ scale / 2 ^ 1074`. All of them are whole numbers, so rounding and
printing are exact arithmetic on naturals:

* `Magnitude.ofRatio?` rounds a quotient to the nearest magnitude, a tie to the even mantissa;
* `Double.ofDecimal` reads digits times a power of ten;
* `Double.same` is equality of numbers, under which the two zeros are one.

Each finite number has one mantissa and one scale: the mantissa fills its fifty-three bits unless
the scale is already the least. There is a single value that is not a number.
-/

namespace TreeEdit

/-- Mantissa and scale of a finite number: below `2 ^ 53`, and normalised as far as possible. -/
def Magnitude.Canonical (mantissa scale : Nat) : Prop :=
  mantissa < Nat.pow 2 53 ∧ scale ≤ 2045 ∧ (scale = 0 ∨ Nat.pow 2 52 ≤ mantissa)

instance (mantissa scale : Nat) : Decidable (Magnitude.Canonical mantissa scale) :=
  inferInstanceAs (Decidable (_ ∧ _ ∧ _))

/-- A finite number without its sign: `mantissa * 2 ^ scale / 2 ^ 1074`. -/
structure Magnitude where
  mantissa : Nat
  scale : Nat
  canonical : Magnitude.Canonical mantissa scale
  deriving DecidableEq

/-- A binary64 number. -/
inductive Double where
  | nan
  | infinity (negative : Bool)
  | finite (negative : Bool) (magnitude : Magnitude)
  deriving DecidableEq

namespace Magnitude

/-- Nothing. -/
def zero : Magnitude := ⟨0, 0, by decide⟩

/-- The quotient rounded to the nearest whole number, a tie going to the even one. -/
def roundRatio (num den : Nat) : Nat :=
  let q := num / den
  let rest := 2 * (num % den)
  if rest < den then q
  else if den < rest then q + 1
  else if q % 2 = 0 then q else q + 1

/--
The magnitude nearest to `num / den`, a tie going to the even mantissa; none when it is too large.
A mantissa that rounds up to `2 ^ 53` is the least one of the next scale.
-/
def ofRatio? (num den : Nat) : Option Magnitude :=
  let units := num * Nat.pow 2 1074
  let scale := Nat.log2 (units / den) - 52
  let rounded := roundRatio units (den * Nat.pow 2 scale)
  let (mantissa, scale) :=
    if rounded = Nat.pow 2 53 then (Nat.pow 2 52, scale + 1) else (rounded, scale)
  if h : Canonical mantissa scale then some ⟨mantissa, scale, h⟩ else none

/-- The number of units of `2 ^ -1074`. -/
def units (m : Magnitude) : Nat := m.mantissa * Nat.pow 2 m.scale

end Magnitude

namespace Double

/-- Positive zero. -/
def zero : Double := .finite false .zero

/--
The number nearest to `digits * 10 ^ exponent`. The two guards only avoid large powers: below the
first every number rounds to zero and above the second every number overflows.
-/
def ofDecimal (negative : Bool) (digits : Nat) (exponent : Int) : Double :=
  let length : Int := (Nat.toDigits 10 digits).length
  if digits = 0 || exponent + length < -330 then .finite negative .zero
  else if 400 < exponent + length then .infinity negative
  else
    let rounded? :=
      if 0 ≤ exponent then Magnitude.ofRatio? (digits * Nat.pow 10 exponent.toNat) 1
      else Magnitude.ofRatio? digits (Nat.pow 10 (-exponent).toNat)
    match rounded? with
    | some m => .finite negative m
    | none => .infinity negative

/-- The number nearest to a whole number. -/
def ofInt (n : Int) : Double := ofDecimal (n < 0) n.natAbs 0

/-- Whether this is neither an infinity nor not a number. -/
def isFinite : Double → Bool
  | .finite _ _ => true
  | _ => false

/-- Zero without its sign, every other number unchanged. -/
def unsignZero : Double → Double
  | .finite negative m => if m = .zero then zero else .finite negative m
  | d => d

/-- Equality as numbers: the two zeros agree, and so does what is not a number. -/
def same (a b : Double) : Bool := a.unsignZero = b.unsignZero

end Double

end TreeEdit
