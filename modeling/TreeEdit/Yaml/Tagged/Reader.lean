import TreeEdit.Tree.Same
import TreeEdit.Yaml.Node
import TreeEdit.Yaml.Tagged.Scalar
import TreeEdit.Yaml.Tagged.Tokens

/-!
# Reading the tagged dialect

A text holds at most one document. Its nodes become a tree in two steps. First every anchor gets a
number, the count of the anchor names known before it, and every alias takes the number that its
name has at that point of the text. Then an alias stands for the last node of the text with its
number.

A name that is used again can so give its new node a number that a later name gets also; the later
node then stands for both. Aliases may be followed a hundred times as often as there are nodes, and
collections be nested 128 deep.
-/

namespace TreeEdit.Yaml.Tagged

/-! ## Anchors get numbers -/

/-- A node whose aliases are numbers. -/
inductive Linked where
  | alias (number : Nat)
  | scalar (tag : Option TagText) (plain : Bool) (text : List Char)
  | sequence (tag : Option TagText) (items : List Linked)
  | mapping (tag : Option TagText) (entries : List (Linked × Linked))
  deriving Inhabited

/-- Anchor names with their numbers, the last one first. -/
abbrev Names := List (List Char × Nat)

/-- How many different names there are. -/
def Names.distinct (names : Names) : Nat := (names.map Prod.fst).eraseDups.length

/-- The nodes that have numbers, in the order in which they begin. -/
abbrev Numbered := List (Nat × Linked)

/-- Names after a node with some properties begins, and the number that it has. -/
def Names.define (names : Names) (properties : Properties) : Names × Option Nat :=
  match properties.anchor with
  | none => (names, none)
  | some name => ((name, names.distinct) :: names, some names.distinct)

/-- A node under its number, if it has one. -/
def numbered (number : Option Nat) (node : Linked) : Numbered :=
  number.toList.map (·, node)

/-- A part of a document with numbers: the part, the names after it, and the numbered nodes. -/
structure Link (α : Type) where
  part : α
  names : Names
  numbered : Numbered

mutual

/-- A node with numbers for its anchors and aliases; the name of an alias must be known. -/
def link? (names : Names) : Node → Option (Link Linked)
  | .alias name => (names.lookup name).map fun number => ⟨.alias number, names, []⟩
  | .scalar props plain text =>
    let (names, number) := names.define props
    let node := .scalar props.tag plain text
    some ⟨node, names, Tagged.numbered number node⟩
  | .sequence props items => do
    let (names, number) := names.define props
    let items ← linkItems? names items
    let node := .sequence props.tag items.part
    return ⟨node, items.names, Tagged.numbered number node ++ items.numbered⟩
  | .mapping props entries => do
    let (names, number) := names.define props
    let entries ← linkEntries? names entries
    let node := .mapping props.tag entries.part
    return ⟨node, entries.names, Tagged.numbered number node ++ entries.numbered⟩

def linkItems? (names : Names) : List Node → Option (Link (List Linked))
  | [] => some ⟨[], names, []⟩
  | x :: xs => do
    let x ← link? names x
    let xs ← linkItems? x.names xs
    return ⟨x.part :: xs.part, xs.names, x.numbered ++ xs.numbered⟩

def linkEntries? (names : Names) : List (Node × Node) → Option (Link (List (Linked × Linked)))
  | [] => some ⟨[], names, []⟩
  | (k, v) :: es => do
    let k ← link? names k
    let v ← link? k.names v
    let es ← linkEntries? v.names es
    return ⟨(k.part, v.part) :: es.part, es.names, k.numbered ++ v.numbered ++ es.numbered⟩

end

mutual

/-- How often a node is entered and left, scalars and aliases counting once. -/
def Linked.size : Linked → Nat
  | .alias _ | .scalar _ _ _ => 1
  | .sequence _ items => 2 + sizeItems items
  | .mapping _ entries => 2 + sizeEntries entries

def Linked.sizeItems : List Linked → Nat
  | [] => 0
  | x :: xs => x.size + sizeItems xs

def Linked.sizeEntries : List (Linked × Linked) → Nat
  | [] => 0
  | (k, v) :: es => k.size + v.size + sizeEntries es

end

/-! ## Values -/

/-- The tag of the document's own that is written before a node. -/
def localTag? (tag : Option TagText) : Option Tag :=
  tag.bind fun t =>
    match t.handle ++ t.suffix with
    | '!' :: rest =>
      if !t.legible then none
      else some (if rest.isEmpty then ⟨"!"⟩ else Tag.ofText (String.ofList rest))
    | _ => none

/-- What a scalar stands for under its tag. -/
def scalarValue? (tag : Option TagText) (plain : Bool) (text : List Char) : Option Tree :=
  let value? := if plain then plainValue? text else some (.string (String.ofList text))
  match tag.map fun t => t.handle ++ t.suffix with
  | none => value?
  | some ('!' :: _) => value?
  | some tag =>
    match Text.dropPrefix? Node.coreTags tag with
    | some name => coreValue? name text
    | none => some (.string (String.ofList text))

/-- A mapping with the entries in order; no two keys may be the same. -/
def mappingOf? (entries : List (Tree × Tree)) : Option Tree :=
  let rec go (taken : Entries) : List (Tree × Tree) → Option Entries
    | [] => some taken
    | (k, v) :: rest =>
      if (taken.find? k).isSome then none else go (taken.insert k v) rest
  (go [] entries).map .mapping

/-- The node that an alias stands for. Following aliases is counted, and the count is limited. -/
def follow? (nodes : Numbered) (limit : Nat) : Linked → StateT Nat Option Linked
  | .alias number => do
    let followed ← modifyGet fun n => (n + 1, n + 1)
    if limit < followed then failure
    else
      match nodes.reverse.lookup number with
      | some node => return node
      | none => failure
  | node => return node

/-- The tree that a node stands for, its collections nested at most `depth` deep. -/
def value? (nodes : Numbered) (limit : Nat) : (depth : Nat) → Linked → StateT Nat Option Tree
  | depth, node => do
    let node ← follow? nodes limit node
    let tagged (tag : Option TagText) (t : Tree) := (localTag? tag).elim t (Tree.tagged · t)
    match depth, node with
    | _, .scalar tag plain text =>
      match scalarValue? tag plain text with
      | some t => return tagged tag t
      | none => failure
    | depth + 1, .sequence tag items =>
      return tagged tag (.sequence (← items.mapM (value? nodes limit depth)))
    | depth + 1, .mapping tag entries => do
      let entries ← entries.mapM fun (k, v) =>
        return (← value? nodes limit depth k, ← value? nodes limit depth v)
      match mappingOf? entries with
      | some t => return tagged tag t
      | none => failure
    | _, _ => failure

/-- The most that collections may be nested. -/
def maxDepth : Nat := 128

/-- The tree of a document. -/
def treeOf? (document : Node) : Option Tree := do
  let linked ← link? [] document
  let limit := 100 * linked.part.size
  return (← (value? linked.numbered limit maxDepth linked.part).run 0).1

/-- The document that a text holds, null if it holds none. -/
def parse? (s : List Char) : Option Tree := do
  match ← Node.ofTokens? .tagged (← tokens? s) with
  | [] => return .null
  | [document] => treeOf? document
  | _ => none

end TreeEdit.Yaml.Tagged
