import TreeEdit.Tree.Same

/-!
# Locations

A location is the list of steps from the root of a document to a node: a key of a mapping or a
position in a sequence. Keys are whole trees, so that finding the entry again is exact. Tags on the
way are looked through and kept.

`get?`, `set?` and `remove?` recurse on the location alone. One step down is `child?`; `setChild`
and `eraseChild` are the matching changes to the parent.
-/

namespace TreeEdit

/-- One step from a node to a child of it. -/
inductive Step where
  | key (key : Tree)
  | index (n : Nat)
  deriving DecidableEq

/-- Steps from the root to a node. -/
abbrev Location := List Step

namespace Step

/-- The text of a step: that of the key, its kind if it has none, or the position in brackets. -/
def text : Step → String
  | .key k =>
    match k.text? with
    | some s => s
    | none => "<" ++ k.kind.name ++ ">"
  | .index n => "[" ++ String.ofList (Text.digitsOf n) ++ "]"

/-- Steps that lead to the same child. -/
def Same : Step → Step → Prop
  | .key a, .key b => a.Same b
  | .index m, .index n => m = n
  | _, _ => False

instance : ∀ a b : Step, Decidable (Same a b)
  | .key a, .key b => inferInstanceAs (Decidable (a.Same b))
  | .index m, .index n => inferInstanceAs (Decidable (m = n))
  | .key _, .index _ | .index _, .key _ => .isFalse id

end Step

namespace Location

/-- The texts of the steps, joined by a delimiter. -/
def label (delimiter : String) (l : Location) : String :=
  Text.joinWith delimiter (l.map Step.text)

/-- Locations that lead to the same node. -/
def Same : Location → Location → Prop
  | [], [] => True
  | a :: l, b :: m => a.Same b ∧ Same l m
  | _, _ => False

instance decSame : (l m : Location) → Decidable (Same l m)
  | [], [] => .isTrue trivial
  | a :: l, b :: m =>
    have := decSame l m
    inferInstanceAs (Decidable (a.Same b ∧ Same l m))
  | [], _ :: _ | _ :: _, [] => .isFalse id

end Location

namespace Tree

/-- The child that a step leads to, tags looked through. -/
def child? (t : Tree) (s : Step) : Option Tree :=
  match t.untag, s with
  | .mapping es, .key k => Entries.find? k es
  | .sequence items, .index n => items[n]?
  | _, _ => none

/-- The parent with another child where the step leads, its tags kept. -/
def setChild (t : Tree) (s : Step) (value : Tree) : Tree :=
  match t.untag, s with
  | .mapping es, .key k => t.retag (.mapping (Entries.insert k value es))
  | .sequence items, .index n => t.retag (.sequence (items.set n value))
  | _, _ => t

/-- The parent without the child where the step leads, its tags kept. -/
def eraseChild (t : Tree) (s : Step) : Tree :=
  match t.untag, s with
  | .mapping es, .key k => t.retag (.mapping (Entries.erase k es))
  | .sequence items, .index n => t.retag (.sequence (items.eraseIdx n))
  | _, _ => t

/-- The node at a location. -/
def get? (t : Tree) : Location → Option Tree
  | [] => some t
  | s :: l => (t.child? s).bind fun c => c.get? l

/-- The tree with another node at a location that exists. -/
def set? (t : Tree) : Location → Tree → Option Tree
  | [], value => some value
  | s :: l, value => (t.child? s).bind fun c => (c.set? l value).map (t.setChild s)

/--
The node at a location and the tree without it. Later items of its sequence move up, and the root
leaves null behind.
-/
def remove? (t : Tree) : Location → Option (Tree × Tree)
  | [] => some (t, .null)
  | [s] => (t.child? s).map fun c => (c, t.eraseChild s)
  | s :: l =>
    (t.child? s).bind fun c => (c.remove? l).map fun (old, c') => (old, t.setChild s c')

/-- A location is reached in parts. -/
theorem get?_append (t : Tree) (l m : Location) :
    t.get? (l ++ m) = (t.get? l).bind fun c => c.get? m := by
  induction l generalizing t with
  | nil => rfl
  | cons s l ih =>
    simp only [List.cons_append, get?]
    cases t.child? s with
    | none => rfl
    | some c => exact ih c

/-- What can be found can be replaced, and nothing else. -/
theorem isSome_set? (t : Tree) (l : Location) (value : Tree) :
    (t.set? l value).isSome = (t.get? l).isSome := by
  induction l generalizing t with
  | nil => rfl
  | cons s l ih =>
    simp only [set?, get?]
    cases t.child? s with
    | none => rfl
    | some c => simpa using ih c

end Tree

end TreeEdit
