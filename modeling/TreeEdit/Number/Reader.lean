import TreeEdit.Number.Basic

/-!
# Reading decimal numbers

`Double.parse?` reads the common form of decimal numbers: a sign, digits with at most one point
among or around them, an exponent; or the words for infinity and for what is not a number, in any
case. The result is the nearest binary64 number.
-/

namespace TreeEdit.Double

/-- A sign, and what follows it. -/
def sign (s : List Char) : Bool × List Char :=
  match s with
  | '-' :: rest => (true, rest)
  | '+' :: rest => (false, rest)
  | rest => (false, rest)

/-- The exponent after its mark: digits, perhaps signed. -/
def exponent? (s : List Char) : Option Int :=
  let (negative, digits) := sign s
  (Text.natOfDigits? 10 digits).map fun n => if negative then -(n : Int) else n

/-- The mantissa and the exponent of a text, the exponent none if its mark is missing. -/
def cutExponent : List Char → List Char × Option (List Char)
  | [] => ([], none)
  | c :: rest =>
    if c = 'e' || c = 'E' then ([], some rest)
    else let (m, e) := cutExponent rest; (c :: m, e)

/-- An unsigned decimal number. -/
def decimal? (negative : Bool) (s : List Char) : Option Double := do
  let (mantissa, mark) := cutExponent s
  let exponent ← match mark with
    | none => some 0
    | some e => exponent? e
  let (whole, fraction) := (Text.cutAt? '.' mantissa).getD (mantissa, [])
  let digits ← Text.natOfDigits? 10 (whole ++ fraction)
  return .ofDecimal negative digits (exponent - fraction.length)

/-- The number that a text writes. -/
def parse? (s : List Char) : Option Double :=
  let (negative, body) := sign s
  match String.ofList (body.map Text.lowerAscii) with
  | "inf" | "infinity" => some (.infinity negative)
  | "nan" => some .nan
  | _ => decimal? negative body

end TreeEdit.Double
