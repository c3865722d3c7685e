import TreeEdit.Number.Reader
import TreeEdit.Tree.Same

/-!
# Documents of the plain dialect

The plain dialect has no tags, and it keeps every number that is not a whole one of sixty-four bits
with a sign as the text it was written in. `Value` holds such documents; `Value.ofTree` and
`Value.toTree` go from one kind of document to the other.

On the way from a tree tags are lost, so that entries of a mapping may come to have the same key;
the last of them is kept, at its place. `Tree.tags` lists the tags of a tree.
-/

namespace TreeEdit

/-- The tags of a document, in the order in which their nodes begin. -/
def Tree.tags : Tree → List Tag
  | .tagged tag value => tag :: value.tags
  | .sequence items => ofItems items
  | .mapping entries => ofEntries entries
  | .null | .bool _ | .number _ | .string _ => []
where
  /-- The tags in the items of a sequence. -/
  ofItems : List Tree → List Tag
    | [] => []
    | x :: xs => x.tags ++ ofItems xs
  /-- The tags in the entries of a mapping. -/
  ofEntries : List (Tree × Tree) → List Tag
    | [] => []
    | (k, v) :: es => k.tags ++ v.tags ++ ofEntries es

namespace Yaml.Plain

/-- A scalar of the plain dialect. -/
inductive Scalar where
  | null
  | bool (b : Bool)
  | integer (n : Int)
  /-- a number in the text that writes it -/
  | real (text : String)
  | string (text : String)
  deriving DecidableEq, Inhabited

/-- A document of the plain dialect. -/
inductive Value where
  /-- a node whose text does not fit its tag, or that is not known yet -/
  | unknown
  | scalar (s : Scalar)
  | sequence (items : List Value)
  | mapping (entries : List (Value × Value))
  deriving Inhabited

namespace Value

mutual

/-- Documents are equal, or not. -/
def decEq : (a b : Value) → Decidable (a = b)
  | .unknown, .unknown => .isTrue rfl
  | .scalar a, .scalar b =>
    if h : a = b then .isTrue (h ▸ rfl) else .isFalse fun e => h (by injection e)
  | .sequence xs, .sequence ys =>
    match decEqItems xs ys with
    | .isTrue h => .isTrue (h ▸ rfl)
    | .isFalse h => .isFalse fun e => h (by injection e)
  | .mapping xs, .mapping ys =>
    match decEqEntries xs ys with
    | .isTrue h => .isTrue (h ▸ rfl)
    | .isFalse h => .isFalse fun e => h (by injection e)
  | .unknown, .scalar _ | .unknown, .sequence _ | .unknown, .mapping _
  | .scalar _, .unknown | .scalar _, .sequence _ | .scalar _, .mapping _
  | .sequence _, .unknown | .sequence _, .scalar _ | .sequence _, .mapping _
  | .mapping _, .unknown | .mapping _, .scalar _ | .mapping _, .sequence _ =>
    .isFalse fun e => by injection e

def decEqItems : (a b : List Value) → Decidable (a = b)
  | [], [] => .isTrue rfl
  | x :: xs, y :: ys =>
    match decEq x y with
    | .isTrue h =>
      match decEqItems xs ys with
      | .isTrue h' => .isTrue (by rw [h, h'])
      | .isFalse h' => .isFalse fun e => h' (by injection e)
    | .isFalse h => .isFalse fun e => h (by injection e)
  | [], _ :: _ | _ :: _, [] => .isFalse fun e => by injection e

def decEqEntries : (a b : List (Value × Value)) → Decidable (a = b)
  | [], [] => .isTrue rfl
  | (k, v) :: xs, (l, w) :: ys =>
    match decEq k l with
    | .isTrue h =>
      match decEq v w with
      | .isTrue h' =>
        match decEqEntries xs ys with
        | .isTrue h'' => .isTrue (by rw [h, h', h''])
        | .isFalse h'' => .isFalse fun e => h'' (by injection e)
      | .isFalse h' => .isFalse fun e => h' (by injection e with e; injection e)
    | .isFalse h => .isFalse fun e => h (by injection e with e; injection e)
  | [], _ :: _ | _ :: _, [] => .isFalse fun e => by injection e

end

instance : DecidableEq Value := decEq

/-! ## From trees and back -/

/-- Whether an integer fits a word of sixty-four bits with a sign. -/
def isWord (n : Int) : Bool := Whole.least ≤ n && n < Whole.signedBound

/-- The scalar of a number. -/
def ofNumber : Number → Scalar
  | .whole n => if isWord n.toInt then .integer n.toInt else .real n.text
  | .double d => .real (Number.text (.double d))

/-- An entry put at the end; one with the same key is dropped. -/
def put (key value : Value) (entries : List (Value × Value)) : List (Value × Value) :=
  entries.filter (·.1 ≠ key) ++ [(key, value)]

mutual

/-- The document of a tree. -/
def ofTree : Tree → Value
  | .null => .scalar .null
  | .bool b => .scalar (.bool b)
  | .number n => .scalar (ofNumber n)
  | .string s => .scalar (.string s)
  | .sequence items => .sequence (ofItems items)
  | .mapping entries => .mapping (ofEntries [] entries)
  | .tagged _ value => ofTree value

def ofItems : List Tree → List Value
  | [] => []
  | x :: xs => ofTree x :: ofItems xs

def ofEntries (before : List (Value × Value)) : List (Tree × Tree) → List (Value × Value)
  | [] => before
  | (k, v) :: es => ofEntries (put (ofTree k) (ofTree v) before) es

end

/-- The tree of a scalar. A number whose text is none for trees becomes text. -/
def ofScalar : Scalar → Tree
  | .null => .null
  | .bool b => .bool b
  | .integer n => .number (.ofInt n)
  | .real text =>
    match Double.parse? text.toList with
    | some d => .number (.double d)
    | none => .string text
  | .string text => .string text

mutual

/-- The tree of a document. -/
def toTree : Value → Tree
  | .unknown => .null
  | .scalar s => ofScalar s
  | .sequence items => .sequence (toItems items)
  | .mapping entries => .mapping (Entries.ofList (toEntries entries))

def toItems : List Value → List Tree
  | [] => []
  | x :: xs => toTree x :: toItems xs

def toEntries : List (Value × Value) → List (Tree × Tree)
  | [] => []
  | (k, v) :: es => (toTree k, toTree v) :: toEntries es

end

end Value

end Yaml.Plain

end TreeEdit
