import TreeEdit.Number.Basic

/-!
# Documents

A document is a tree: scalars, sequences, mappings whose entries keep their order and whose keys
are trees themselves, and tagged nodes. Almost every operation looks through tags, so `untag` and
its partner `retag`, which puts a new core under the old tags, come first.

`Tree.text?` is the text by which a scalar is matched, printed and substituted; collections have
none.
-/

namespace TreeEdit

/-- A tag, without the exclamation mark that opens its text. -/
structure Tag where
  name : String
  deriving DecidableEq, Inhabited

namespace Tag

/-- The tag that a text names; one exclamation mark before a name is not part of it. -/
def ofText (text : String) : Tag :=
  match text.toList with
  | '!' :: c :: rest => ⟨String.ofList (c :: rest)⟩
  | _ => ⟨text⟩

/-- The text of a tag. -/
def text (t : Tag) : String := "!" ++ t.name

end Tag

/-- A document, or a node of one. -/
inductive Tree where
  | null
  | bool (b : Bool)
  | number (n : Number)
  | string (s : String)
  | sequence (items : List Tree)
  | mapping (entries : List (Tree × Tree))
  | tagged (tag : Tag) (value : Tree)
  deriving Inhabited

namespace Tree

mutual

/-- Trees are equal as data, or not. -/
def decEq : (a b : Tree) → Decidable (a = b)
  | .null, .null => .isTrue rfl
  | .bool a, .bool b =>
    if h : a = b then .isTrue (h ▸ rfl) else .isFalse fun e => h (by injection e)
  | .number a, .number b =>
    if h : a = b then .isTrue (h ▸ rfl) else .isFalse fun e => h (by injection e)
  | .string a, .string b =>
    if h : a = b then .isTrue (h ▸ rfl) else .isFalse fun e => h (by injection e)
  | .sequence xs, .sequence ys =>
    match decEqItems xs ys with
    | .isTrue h => .isTrue (h ▸ rfl)
    | .isFalse h => .isFalse fun e => h (by injection e)
  | .mapping xs, .mapping ys =>
    match decEqEntries xs ys with
    | .isTrue h => .isTrue (h ▸ rfl)
    | .isFalse h => .isFalse fun e => h (by injection e)
  | .tagged t a, .tagged u b =>
    if ht : t = u then
      match decEq a b with
      | .isTrue h => .isTrue (by rw [ht, h])
      | .isFalse h => .isFalse fun e => h (by injection e)
    else .isFalse fun e => ht (by injection e)
  | .null, .bool _ | .null, .number _ | .null, .string _ | .null, .sequence _
  | .null, .mapping _ | .null, .tagged _ _
  | .bool _, .null | .bool _, .number _ | .bool _, .string _ | .bool _, .sequence _
  | .bool _, .mapping _ | .bool _, .tagged _ _
  | .number _, .null | .number _, .bool _ | .number _, .string _ | .number _, .sequence _
  | .number _, .mapping _ | .number _, .tagged _ _
  | .string _, .null | .string _, .bool _ | .string _, .number _ | .string _, .sequence _
  | .string _, .mapping _ | .string _, .tagged _ _
  | .sequence _, .null | .sequence _, .bool _ | .sequence _, .number _ | .sequence _, .string _
  | .sequence _, .mapping _ | .sequence _, .tagged _ _
  | .mapping _, .null | .mapping _, .bool _ | .mapping _, .number _ | .mapping _, .string _
  | .mapping _, .sequence _ | .mapping _, .tagged _ _
  | .tagged _ _, .null | .tagged _ _, .bool _ | .tagged _ _, .number _ | .tagged _ _, .string _
  | .tagged _ _, .sequence _ | .tagged _ _, .mapping _ => .isFalse fun e => by injection e

def decEqItems : (a b : List Tree) → Decidable (a = b)
  | [], [] => .isTrue rfl
  | x :: xs, y :: ys =>
    match decEq x y with
    | .isTrue h =>
      match decEqItems xs ys with
      | .isTrue h' => .isTrue (by rw [h, h'])
      | .isFalse h' => .isFalse fun e => h' (by injection e)
    | .isFalse h => .isFalse fun e => h (by injection e)
  | [], _ :: _ | _ :: _, [] => .isFalse fun e => by injection e

def decEqEntries : (a b : List (Tree × Tree)) → Decidable (a = b)
  | [], [] => .isTrue rfl
  | (k, v) :: xs, (l, w) :: ys =>
    match decEq k l with
    | .isTrue h =>
      match decEq v w with
      | .isTrue h' =>
        match decEqEntries xs ys with
        | .isTrue h'' => .isTrue (by rw [h, h', h''])
        | .isFalse h'' => .isFalse fun e => h'' (by injection e)
      | .isFalse h' => .isFalse fun e => h' (by injection e with e; injection e)
    | .isFalse h => .isFalse fun e => h (by injection e with e; injection e)
  | [], _ :: _ | _ :: _, [] => .isFalse fun e => by injection e

end

instance : DecidableEq Tree := decEq

/-! ## Tags are looked through -/

/-- The node under all the tags. -/
def untag : Tree → Tree
  | .tagged _ value => untag value
  | t => t

/-- The same tags over another core. -/
def retag : Tree → (core : Tree) → Tree
  | .tagged tag value, core => .tagged tag (retag value core)
  | _, core => core

/-- Whether a node is a tagged one. -/
def isTagged : Tree → Bool
  | .tagged _ _ => true
  | _ => false

/-- What is under all the tags is not tagged. -/
theorem isTagged_untag : ∀ t : Tree, t.untag.isTagged = false
  | .tagged _ value => isTagged_untag value
  | .null | .bool _ | .number _ | .string _ | .sequence _ | .mapping _ => rfl

/-- Putting the old core back changes nothing. -/
theorem retag_untag : ∀ t : Tree, t.retag t.untag = t
  | .tagged tag value => congrArg (Tree.tagged tag) (retag_untag value)
  | .null | .bool _ | .number _ | .string _ | .sequence _ | .mapping _ => rfl

/-- The core that was put under the tags is found there. -/
theorem untag_retag : ∀ t core : Tree, (t.retag core).untag = core.untag
  | .tagged _ value, core => untag_retag value core
  | .null, _ | .bool _, _ | .number _, _ | .string _, _ | .sequence _, _ | .mapping _, _ => rfl

/-! ## What a node is -/

/-- The kind of a node. -/
inductive Kind where
  | null | bool | number | string | sequence | mapping | tagged
  deriving DecidableEq

/-- The name of a kind in messages. -/
def Kind.name : Kind → String
  | .null => "Null"
  | .bool => "Bool"
  | .number => "Number"
  | .string => "String"
  | .sequence => "Sequence"
  | .mapping => "Mapping"
  | .tagged => "Tagged"

/-- The kind of a node, its tags not looked through. -/
def kind : Tree → Kind
  | .null => .null
  | .bool _ => .bool
  | .number _ => .number
  | .string _ => .string
  | .sequence _ => .sequence
  | .mapping _ => .mapping
  | .tagged _ _ => .tagged

/-- The text of a scalar, tags looked through. The text of null is empty. -/
def text? : Tree → Option String
  | .null => some ""
  | .bool b => some (if b then "true" else "false")
  | .number n => some n.text
  | .string s => some s
  | .tagged _ value => text? value
  | .sequence _ | .mapping _ => none

/-- Whether a node is a scalar, tags looked through. -/
def isScalar (t : Tree) : Bool :=
  match t.untag with
  | .sequence _ | .mapping _ => false
  | _ => true

/-- Whether a node is an empty place: null, or text of blanks only. -/
def isBlank (t : Tree) : Bool :=
  match t.untag with
  | .null => true
  | .string s => s.toList.all Text.isBlank
  | _ => false

/-- Whether a node is a sequence, tags looked through. -/
def isSequence (t : Tree) : Bool :=
  match t.untag with
  | .sequence _ => true
  | _ => false

/-- A mapping with one entry, whose key is a string. -/
def singleton (key : String) (value : Tree) : Tree := .mapping [(.string key, value)]

/-- Nulls up to a position, and then the value. -/
def padded (n : Nat) (value : Tree) : Tree := .sequence (List.replicate n .null ++ [value])

/-- The text of a tree is that of its core. -/
theorem text?_untag : ∀ t : Tree, t.untag.text? = t.text?
  | .tagged _ value => text?_untag value
  | .null | .bool _ | .number _ | .string _ | .sequence _ | .mapping _ => rfl

/-- Exactly the scalars have a text. -/
theorem isSome_text? : ∀ t : Tree, t.text?.isSome = t.isScalar
  | .tagged _ value => isSome_text? value
  | .null | .bool _ | .number _ | .string _ | .sequence _ | .mapping _ => rfl

end Tree

end TreeEdit
