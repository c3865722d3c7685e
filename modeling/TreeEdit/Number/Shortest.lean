import TreeEdit.Number.Double
import TreeEdit.Text.Blank

/-!
# The fewest digits that read back

A finite magnitude is printed with the fewest decimal digits that still round to it, and with the
nearest such digits when several do. `Magnitude.shortest` finds them in exact arithmetic: the reals
that round to the magnitude form an interval, its ends included when the mantissa is even; the
grids of one, two, … seventeen digits are tried in turn, and on each grid only the two neighbours
of the value can lie in the interval and be nearest.

How the digits are then laid out is a `Layout`, one record for each place that prints numbers.
-/

namespace TreeEdit

/-- Decimal digits and the power of ten they are multiplied by. -/
structure Decimal where
  digits : Nat
  exponent : Int
  deriving DecidableEq

namespace Magnitude

/-- The least `k ≤ fuel` for which `n * 10 ^ k` reaches `bound`. -/
def lift (bound : Nat) : (fuel n : Nat) → Nat
  | 0, _ => 0
  | fuel + 1, n => if bound ≤ n then 0 else lift bound fuel (n * 10) + 1

/-- The exponent `e` with `10 ^ (e - 1) ≤ value < 10 ^ e`, for `num / den` not zero. -/
def decimalExponent (num den : Nat) : Int :=
  if den ≤ num then (Nat.toDigits 10 (num / den)).length
  else 1 - (lift den 400 num : Int)

/--
The grid of a given power of ten: the point of it that lies in the interval and is nearest to the
value, an exact tie going to the even point. All lengths are in quarter units of `2 ^ -1074`.
-/
def gridPoint? (value below above : Nat) (closed : Bool) (power : Int) : Option Nat :=
  let unit := 4 * Nat.pow 2 1074
  -- a point `p` of the grid stands for `p * step / factor`
  let (step, factor) :=
    if 0 ≤ power then (unit * Nat.pow 10 power.toNat, 1) else (unit, Nat.pow 10 (-power).toNat)
  let value := value * factor
  let low := value - below * factor
  let high := value + above * factor
  let inside (p : Nat) : Bool :=
    let at_ := p * step
    if closed then low ≤ at_ && at_ ≤ high else low < at_ && at_ < high
  let p := value / step
  let down := value - p * step
  let up := (p + 1) * step - value
  match inside p, inside (p + 1) with
  | true, true =>
    if down < up then some p else if up < down then some (p + 1)
    else some (if p % 2 = 0 then p else p + 1)
  | true, false => some p
  | false, true => some (p + 1)
  | false, false => none

/-- Grids with ever more digits, until one has a point in the interval. -/
def firstGrid (value below above : Nat) (closed : Bool) (top : Int) :
    (fuel n : Nat) → Decimal
  | 0, n => ⟨0, top - n⟩
  | fuel + 1, n =>
    match gridPoint? value below above closed (top - n) with
    | some p => ⟨p, top - n⟩
    | none => firstGrid value below above closed top fuel (n + 1)

/-- Decimal digits without trailing zeros, by at most `fuel` of them. -/
def dropZeros : (fuel : Nat) → Decimal → Decimal
  | 0, d => d
  | fuel + 1, d =>
    if d.digits % 10 = 0 then dropZeros fuel ⟨d.digits / 10, d.exponent + 1⟩ else d

/--
The fewest decimal digits that round to a magnitude other than zero, and of those the nearest. The
gap below a power of two is half the gap above it, unless the scale is the least.
-/
def shortest (m : Magnitude) : Decimal :=
  let step := Nat.pow 2 m.scale
  let below := if m.mantissa = Nat.pow 2 52 && m.scale ≠ 0 then step else 2 * step
  let top := decimalExponent m.units (Nat.pow 2 1074)
  dropZeros 20
    (firstGrid (4 * m.units) below (2 * step) (m.mantissa % 2 = 0) top 20 1)

end Magnitude

/-- How the digits of a number are laid out. -/
structure Layout where
  /-- digits stand without an exponent while the point falls right of this many places -/
  least : Int
  /-- and left of this many -/
  most : Int
  /-- whether an exponent that is not negative has a plus sign -/
  plus : Bool
  /-- whether a whole number ends in `.0` -/
  point : Bool
  nan : String
  infinity : String
  negativeInfinity : String

namespace Layout

/-- The digits of a decimal with its point, or with an exponent. -/
def digits (l : Layout) (d : Decimal) : List Char :=
  let ds := Text.digitsOf d.digits
  let n : Int := ds.length
  let place := n + d.exponent
  if l.least < place && place ≤ l.most then
    if 0 ≤ d.exponent then
      ds ++ List.replicate d.exponent.toNat '0' ++ (if l.point then ['.', '0'] else [])
    else if 0 < place then ds.take place.toNat ++ '.' :: ds.drop place.toNat
    else '0' :: '.' :: List.replicate (-place).toNat '0' ++ ds
  else
    let e := place - 1
    let sign := if e < 0 then ['-'] else if l.plus then ['+'] else []
    let fraction := if ds.length ≤ 1 then [] else '.' :: ds.drop 1
    ds.take 1 ++ fraction ++ 'e' :: sign ++ Text.digitsOf e.natAbs

/-- The text of a number. -/
def render (l : Layout) : Double → String
  | .nan => l.nan
  | .infinity negative => if negative then l.negativeInfinity else l.infinity
  | .finite negative m =>
    let text :=
      if m = .zero then if l.point then ['0', '.', '0'] else ['0'] else l.digits m.shortest
    String.ofList (if negative then '-' :: text else text)

end Layout

end TreeEdit
