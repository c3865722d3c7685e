import TreeEdit.Error
import TreeEdit.Yaml.Node
import TreeEdit.Yaml.Plain.Scalar
import TreeEdit.Yaml.Plain.Tokens

/-!
# Reading the plain dialect

The nodes of a document are read in order, anchors being remembered on the way. An alias stands for
the node that was last given its name; while that node is being read, what it stands for is not
known.

A key that is not known is no key: the node after it takes its place.
-/

namespace TreeEdit.Yaml.Plain

/-- What anchors stand for so far: names with numbers, and numbers with nodes, newest first. -/
structure Anchors where
  names : List (List Char × Nat)
  values : List (Nat × Value)

namespace Anchors

/-- No anchors. -/
def none : Anchors := ⟨[], []⟩

/-- The anchors at the start of a node, and the number of the node. -/
def enter (anchors : Anchors) (properties : Properties) : Anchors × Option Nat :=
  match properties.anchor with
  | .none => (anchors, .none)
  | some name =>
    let number := anchors.names.length
    ({ anchors with names := (name, number) :: anchors.names }, some number)

/-- The anchors after a node. -/
def leave (anchors : Anchors) (number : Option Nat) (value : Value) : Anchors :=
  { anchors with values := number.toList.map (·, value) ++ anchors.values }

/-- What an alias stands for; its name must be known. -/
def find? (anchors : Anchors) (name : List Char) : Option Value :=
  (anchors.names.lookup name).map fun number => (anchors.values.lookup number).getD .unknown

end Anchors

/-- What a scalar stands for under its tag. -/
def scalarValue (tag : Option TagText) (plain : Bool) (text : List Char) : Value :=
  if !plain then .scalar (.string (String.ofList text))
  else
    match tag with
    | none => .scalar (.ofText text)
    | some t =>
      if t.handle = Node.coreTags then (Scalar.ofCore? t.suffix text).elim .unknown .scalar
      else .scalar (.string (String.ofList text))

/-- A mapping that is being read: its entries, and the key that waits for its value. -/
structure OpenMapping where
  entries : List (Value × Value)
  key : Value

namespace OpenMapping

/-- The mapping with one more node, a key or a value; no key may come twice. -/
def add? (m : OpenMapping) (node : Value) : Option OpenMapping :=
  if m.key = .unknown then some { m with key := node }
  else if m.entries.any (·.1 = m.key) then none
  else some ⟨m.entries ++ [(m.key, node)], .unknown⟩

end OpenMapping

mutual

/-- The value of a node, and the anchors after it. -/
def valueOf? (anchors : Anchors) : Node → Option (Value × Anchors)
  | .alias name => (anchors.find? name).map (·, anchors)
  | .scalar props plain text =>
    let (anchors, number) := anchors.enter props
    let value := scalarValue props.tag plain text
    some (value, anchors.leave number value)
  | .sequence props items => do
    let (anchors, number) := anchors.enter props
    let (items, anchors) ← itemsOf? anchors items
    let value := .sequence items
    return (value, anchors.leave number value)
  | .mapping props entries => do
    let (anchors, number) := anchors.enter props
    let (m, anchors) ← entriesOf? anchors ⟨[], .unknown⟩ entries
    let value := .mapping m.entries
    return (value, anchors.leave number value)

def itemsOf? (anchors : Anchors) : List Node → Option (List Value × Anchors)
  | [] => some ([], anchors)
  | x :: xs => do
    let (x, anchors) ← valueOf? anchors x
    let (xs, anchors) ← itemsOf? anchors xs
    return (x :: xs, anchors)

def entriesOf? (anchors : Anchors) (m : OpenMapping) :
    List (Node × Node) → Option (OpenMapping × Anchors)
  | [] => some (m, anchors)
  | (k, v) :: es => do
    let (k, anchors) ← valueOf? anchors k
    let (v, anchors) ← valueOf? anchors v
    entriesOf? anchors (← (← m.add? k).add? v) es

end

/-- All documents of a text. -/
def documents? (s : List Char) : Option (List Value) := do
  let nodes ← Node.ofTokens? .plain (← tokens? s)
  nodes.mapM fun node => (valueOf? .none node).map Prod.fst

/-- The document that a text holds, null if it holds none. -/
def parse (s : List Char) : Except Error Tree :=
  match documents? s with
  | none => .error (.conversion .yaml .malformed)
  | some [] => .ok .null
  | some [document] => .ok document.toTree
  | some documents => .error (.conversion .yaml (.manyDocuments documents.length))

end TreeEdit.Yaml.Plain
