import TreeEdit.Tree.Basic

/-!
# When two trees are the same key

Keys are compared by value: the order of a mapping's entries does not matter, and the two zeros
are one number. `Tree.canonical` picks one form for every value, with the entries of each mapping
sorted and zeros unsigned, and two trees are the `Same` when their canonical forms are equal. Being
equality of an image, this is an equivalence whatever the order used for sorting.

On it stand the operations on the entries of a mapping:

* `Entries.find?` gives the value under a key;
* `Entries.insert` replaces the value under a key, whose entry keeps its place and its key, or adds
  an entry at the end;
* `Entries.erase` drops the entry of a key.
-/

namespace TreeEdit

/-! ## An order for sorting entries -/

/-- Numbers that tell doubles apart. -/
def Double.code : Double → List Nat
  | .nan => [0]
  | .infinity negative => [1, negative.toNat]
  | .finite negative m => [2, negative.toNat, m.mantissa, m.scale]

/-- Numbers that tell numbers apart. -/
def Number.code : Number → List Nat
  | .whole n => [0, (decide (n.toInt < 0)).toNat, n.toInt.natAbs]
  | .double d => 1 :: d.code

namespace Tree

/-- Numbers that tell texts apart, the length first. -/
def textCode (s : String) : List Nat := s.toList.length :: s.toList.map Char.toNat

mutual

/-- Numbers that tell trees apart: the kind, the size, then the parts. -/
def code : Tree → List Nat
  | .null => [0]
  | .bool b => [1, b.toNat]
  | .number n => 2 :: n.code
  | .string s => 3 :: textCode s
  | .sequence items => 4 :: items.length :: codeItems items
  | .mapping entries => 5 :: entries.length :: codeEntries entries
  | .tagged tag value => 6 :: textCode tag.name ++ code value

def codeItems : List Tree → List Nat
  | [] => []
  | x :: xs => code x ++ codeItems xs

def codeEntries : List (Tree × Tree) → List Nat
  | [] => []
  | (k, v) :: es => code k ++ code v ++ codeEntries es

end

/-- The order of a dictionary, a list coming after those it begins with. -/
def codeLe : List Nat → List Nat → Bool
  | [], _ => true
  | _ :: _, [] => false
  | a :: as, b :: bs => if a < b then true else if b < a then false else codeLe as bs

/-- Puts an entry before the first one with a larger key. -/
def insertSorted (e : Tree × Tree) : List (Tree × Tree) → List (Tree × Tree)
  | [] => [e]
  | f :: fs => if codeLe e.1.code f.1.code then e :: f :: fs else f :: insertSorted e fs

/-! ## Canonical forms -/

mutual

/-- The tree with unsigned zeros and every mapping sorted by its keys. -/
def canonical : Tree → Tree
  | .null => .null
  | .bool b => .bool b
  | .number n => .number n.unsignZero
  | .string s => .string s
  | .sequence items => .sequence (canonicalItems items)
  | .mapping entries => .mapping (canonicalEntries entries)
  | .tagged tag value => .tagged tag (canonical value)

def canonicalItems : List Tree → List Tree
  | [] => []
  | x :: xs => canonical x :: canonicalItems xs

def canonicalEntries : List (Tree × Tree) → List (Tree × Tree)
  | [] => []
  | (k, v) :: es => insertSorted (canonical k, canonical v) (canonicalEntries es)

end

/-- Two trees are one value. -/
def Same (a b : Tree) : Prop := a.canonical = b.canonical

instance (a b : Tree) : Decidable (Same a b) := inferInstanceAs (Decidable (_ = _))

theorem Same.refl (a : Tree) : Same a a := rfl

theorem Same.symm {a b : Tree} (h : Same a b) : Same b a := Eq.symm h

theorem Same.trans {a b c : Tree} (h : Same a b) (h' : Same b c) : Same a c := Eq.trans h h'

/-- A string is the same as itself only. -/
theorem same_string_iff {s : String} {t : Tree} : Same (.string s) t ↔ t = .string s := by
  constructor
  · intro h
    cases t <;> simp_all [Same, canonical]
  · rintro rfl; rfl

/-- Trees of different kinds are never the same. -/
theorem Same.kind_eq {a b : Tree} (h : Same a b) : a.kind = b.kind := by
  cases a <;> cases b <;> simp_all [Same, canonical, kind]

end Tree

/-! ## Entries of a mapping -/

/-- The entries of a mapping, in order. -/
abbrev Entries := List (Tree × Tree)

namespace Entries

/-- The value under a key. -/
def find? (key : Tree) : Entries → Option Tree
  | [] => none
  | (k, v) :: es => if key.Same k then some v else find? key es

/-- The value under a key replaced where the key stands, or a new entry at the end. -/
def insert (key value : Tree) : Entries → Entries
  | [] => [(key, value)]
  | (k, v) :: es => if key.Same k then (k, value) :: es else (k, v) :: insert key value es

/-- The entries without that of a key. -/
def erase (key : Tree) : Entries → Entries
  | [] => []
  | (k, v) :: es => if key.Same k then es else (k, v) :: erase key es

/-- All entries of `new` inserted one after the other. -/
def insertAll (es new : Entries) : Entries := new.foldl (fun es (k, v) => insert k v es) es

/-- No two entries have the same key. -/
def Distinct (es : Entries) : Prop := es.Pairwise fun a b => ¬ a.1.Same b.1

instance (es : Entries) : Decidable es.Distinct :=
  inferInstanceAs (Decidable (List.Pairwise _ _))

/-- The entries of a list of pairs, a later pair replacing the value of an earlier one. -/
def ofList (pairs : List (Tree × Tree)) : Entries := insertAll [] pairs

/-- What was inserted is found, and no other key changes its value. -/
theorem find?_insert (key value other : Tree) (es : Entries) :
    find? other (insert key value es) =
      if other.Same key then some value else find? other es := by
  induction es with
  | nil => rfl
  | cons e es ih =>
    obtain ⟨k, v⟩ := e
    by_cases hk : key.Same k
    · by_cases ho : other.Same key
      · simp [insert, find?, hk, ho, ho.trans hk]
      · have : ¬ other.Same k := fun h => ho (h.trans hk.symm)
        simp [insert, find?, hk, ho, this]
    · by_cases ho : other.Same key
      · have : ¬ other.Same k := fun h => hk (ho.symm.trans h)
        simp [insert, find?, hk, ho, this, ih]
      · simp [insert, find?, hk, ho, ih]

end Entries

end TreeEdit
