import TreeEdit.Yaml.Plain.Value

/-!
# Scalars of the plain dialect

A plain scalar stands for null, a truth value or a number if its text is one of their spellings. A
number that is not whole is kept as text, so that nothing of it is lost.
-/

namespace TreeEdit.Yaml.Plain.Scalar

/-- The integer that digits of a base write after a sign perhaps, if it fits sixty-four bits. -/
def integer? (base : Nat) (s : List Char) : Option Int :=
  let (negative, digits) := Double.sign s
  (Text.natOfDigits? base digits).bind fun n =>
    let value := if negative then -(n : Int) else n
    if Value.isWord value then some value else none

/-- Whether a text writes a number that may have a fraction. -/
def isReal (s : List Char) : Bool :=
  [".inf", ".Inf", ".INF", "+.inf", "+.Inf", "+.INF", "-.inf", "-.Inf", "-.INF",
    ".nan", ".NaN", ".NAN"].contains (String.ofList s)
    || (s.any Text.isDigit && (Double.parse? s).isSome)

/-- An integer in a base that its first characters tell, or after a plus sign. -/
def markedInteger? : List Char → Option Int
  | '0' :: 'x' :: digits => integer? 16 digits
  | '0' :: 'o' :: digits => integer? 8 digits
  | '+' :: digits => integer? 10 digits
  | _ => none

/-- What a plain scalar without a tag stands for. -/
def ofText (s : List Char) : Scalar :=
  match markedInteger? s with
  | some n => .integer n
  | none =>
    match String.ofList s with
    | "" | "~" | "null" => .null
    | "true" | "True" | "TRUE" => .bool true
    | "false" | "False" | "FALSE" => .bool false
    | text =>
      match integer? 10 s with
      | some n => .integer n
      | none => if isReal s then .real text else .string text

/-- What a plain scalar with a core tag stands for, unless its text does not fit the tag. -/
def ofCore? (name : List Char) (s : List Char) : Option Scalar :=
  let text := String.ofList s
  match String.ofList name with
  | "bool" => if text = "true" || text = "false" then some (.bool (text = "true")) else none
  | "int" => (integer? 10 s).map .integer
  | "float" => if isReal s then some (.real text) else none
  | "null" => if text = "~" || text = "null" then some .null else none
  | _ => some (.string text)

end TreeEdit.Yaml.Plain.Scalar
