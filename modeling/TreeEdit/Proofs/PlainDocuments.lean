import TreeEdit.Proofs.Children
import TreeEdit.Proofs.NumberText
import TreeEdit.Yaml.Plain.Value

/-!
# Which documents the plain dialect keeps

A document that goes to the plain dialect and back is the same document exactly if it has no tags
and each of its numbers, those inside keys included, is kept (`Yaml.Plain.Value.toTree_ofTree_iff`).
A number is kept if it is a whole one that fits a word with a sign, or a binary64 number that is
finite:

* the other whole numbers come back as binary64 numbers, since the dialect holds them as text and
  every text of a number is read as one of those;
* infinities, and what is not a number, come back as strings, since their texts are read as none.

Entries may be lost only where keys come to be one. A mapping that comes back as long as it was had
all its entries put at the end, on the way there and on the way back.
-/

namespace TreeEdit

namespace Tree

/-- The numbers of a document, those inside keys included. -/
def numbers : Tree → List Number
  | .number n => [n]
  | .sequence items => numbersOfItems items
  | .mapping entries => numbersOfEntries entries
  | .tagged _ value => value.numbers
  | .null | .bool _ | .string _ => []
where
  /-- The numbers in the items of a sequence. -/
  numbersOfItems : List Tree → List Number
    | [] => []
    | x :: xs => x.numbers ++ numbersOfItems xs
  /-- The numbers in the entries of a mapping. -/
  numbersOfEntries : List (Tree × Tree) → List Number
    | [] => []
    | (k, v) :: es => k.numbers ++ v.numbers ++ numbersOfEntries es

/-- The entries of every mapping of a document, the mappings inside keys included. -/
def mappings : Tree → List Entries
  | .sequence items => mappingsOfItems items
  | .mapping entries => entries :: mappingsOfEntries entries
  | .tagged _ value => value.mappings
  | .null | .bool _ | .number _ | .string _ => []
where
  /-- The mappings in the items of a sequence. -/
  mappingsOfItems : List Tree → List Entries
    | [] => []
    | x :: xs => x.mappings ++ mappingsOfItems xs
  /-- The mappings in the entries of a mapping. -/
  mappingsOfEntries : List (Tree × Tree) → List Entries
    | [] => []
    | (k, v) :: es => k.mappings ++ v.mappings ++ mappingsOfEntries es

end Tree

namespace Entries

theorem length_insert_le (k v : Tree) (es : Entries) : (insert k v es).length ≤ es.length + 1 := by
  induction es with
  | nil => exact Nat.le_refl _
  | cons e es ih =>
      rw [insert]
      split
      · simp
      · simpa using ih

/-- An entry that makes a mapping longer stands at the end. -/
theorem insert_eq_append {k v : Tree} {es : Entries} (h : (insert k v es).length = es.length + 1) :
    insert k v es = es ++ [(k, v)] := by
  induction es with
  | nil => rfl
  | cons e es ih =>
      rw [insert] at h ⊢
      split
      · rename_i hsame
        rw [if_pos hsame] at h
        simp at h
      · rename_i hsame
        rw [if_neg hsame] at h
        rw [ih (by simpa using h)]
        rfl

theorem length_insertAll_le (es new : Entries) :
    (insertAll es new).length ≤ es.length + new.length := by
  induction new generalizing es with
  | nil => exact Nat.le_refl _
  | cons e new ih =>
      have hone := length_insert_le e.1 e.2 es
      have hrest := ih (insert e.1 e.2 es)
      rw [List.length_cons]
      exact Nat.le_trans hrest (by omega)

/-- Entries that make a mapping longer by as many stand at the end. -/
theorem insertAll_eq_append {es new : Entries}
    (h : (insertAll es new).length = es.length + new.length) : insertAll es new = es ++ new := by
  induction new generalizing es with
  | nil => simp [insertAll]
  | cons e new ih =>
      have hone := length_insert_le e.1 e.2 es
      have hrest := length_insertAll_le (insert e.1 e.2 es) new
      have hstep : insertAll es (e :: new) = insertAll (insert e.1 e.2 es) new := rfl
      rw [hstep, List.length_cons] at h
      rw [hstep, ih (by omega), insert_eq_append (by omega), List.append_assoc]
      rfl

end Entries

namespace Yaml.Plain

/-- Whether the plain dialect gives a number back. -/
def isKept : Number → Bool
  | .whole n => n.toInt < Whole.signedBound
  | .double d => d.isFinite

/-- **A number comes back as itself** exactly if it is kept. -/
theorem Value.ofScalar_ofNumber_iff (n : Number) :
    ofScalar (ofNumber n) = .number n ↔ isKept n = true := by
  cases n with
  | whole n =>
      have hleast := n.min_le
      by_cases hword : n.toInt < Whole.signedBound
      · have hfits : isWord n.toInt = true := by simp [isWord, hleast, hword]
        simp [ofNumber, hfits, ofScalar, Number.ofInt, Whole.ofInt?_toInt, isKept, hword]
      · have hfits : isWord n.toInt = false := by simp [isWord, hword]
        have hne : ofScalar (.real n.text) ≠ .number (.whole n) := by
          intro h
          rw [ofScalar] at h
          split at h
          · cases h
          · cases h
        simp [ofNumber, hfits, hne, isKept, hword]
  | double d =>
      simp only [ofNumber, ofScalar, Number.parse?_text_double, isKept]
      cases d.isFinite <;> simp

namespace Value

/-! ## Entries on their way -/

theorem length_put_le (k v : Value) (es : List (Value × Value)) :
    (put k v es).length ≤ es.length + 1 := by
  have := List.length_filter_le (fun e => decide (e.1 ≠ k)) es
  simpa [put] using this

theorem put_eq_append {k v : Value} {es : List (Value × Value)}
    (h : (put k v es).length = es.length + 1) : put k v es = es ++ [(k, v)] := by
  have hall : (es.filter (·.1 ≠ k)).length = es.length := by simpa [put] using h
  rw [put, List.filter_eq_self.mpr (List.length_filter_eq_length_iff.mp hall)]

/-- The entries of a mapping one by one, none of them dropped. -/
def pairs (es : Entries) : List (Value × Value) := es.map fun e => (ofTree e.1, ofTree e.2)

theorem length_ofEntries_le (before : List (Value × Value)) (es : Entries) :
    (ofEntries before es).length ≤ before.length + es.length := by
  induction es generalizing before with
  | nil => exact Nat.le_refl _
  | cons e es ih =>
      have hone := length_put_le (ofTree e.1) (ofTree e.2) before
      have hrest := ih (put (ofTree e.1) (ofTree e.2) before)
      rw [ofEntries, List.length_cons]
      omega

theorem ofEntries_eq_append {before : List (Value × Value)} {es : Entries}
    (h : (ofEntries before es).length = before.length + es.length) :
    ofEntries before es = before ++ pairs es := by
  induction es generalizing before with
  | nil => simp [ofEntries, pairs]
  | cons e es ih =>
      have hone := length_put_le (ofTree e.1) (ofTree e.2) before
      have hrest := length_ofEntries_le (put (ofTree e.1) (ofTree e.2) before) es
      rw [ofEntries, List.length_cons] at h
      rw [ofEntries, ih (by omega), put_eq_append (by omega), List.append_assoc]
      rfl

/-- Entries whose keys stay apart are all put at the end. -/
theorem ofEntries_of_apart {before : List (Value × Value)} {es : Entries}
    (h : (before ++ pairs es).Pairwise fun a b => a.1 ≠ b.1) :
    ofEntries before es = before ++ pairs es := by
  induction es generalizing before with
  | nil => simp [ofEntries, pairs]
  | cons e es ih =>
      have hapart := (List.pairwise_append.mp h).2.2
      have hput : put (ofTree e.1) (ofTree e.2) before = before ++ [(ofTree e.1, ofTree e.2)] := by
        rw [put, List.filter_eq_self.mpr fun b hb => ?_]
        exact decide_eq_true (hapart b hb _ (List.mem_cons_self ..))
      rw [ofEntries, hput, ih (by simpa [pairs] using h), List.append_assoc]
      rfl

theorem length_toEntries (es : List (Value × Value)) : (toEntries es).length = es.length := by
  induction es with
  | nil => rfl
  | cons e es ih => simp [toEntries, ih]

theorem toEntries_pairs (es : Entries) :
    toEntries (pairs es) = es.map fun e => ((ofTree e.1).toTree, (ofTree e.2).toTree) := by
  induction es with
  | nil => rfl
  | cons e es ih => simpa [pairs, toEntries] using ih

/-- Keys that come back are not made one on their way. -/
theorem eq_of_toEntries_pairs {es : Entries} (h : toEntries (pairs es) = es)
    {e e' : Tree × Tree} (he : e ∈ es) (he' : e' ∈ es) (heq : ofTree e.1 = ofTree e'.1) :
    e.1 = e'.1 := by
  have hself : es.map (fun e => ((ofTree e.1).toTree, (ofTree e.2).toTree)) = es.map id := by
    rw [List.map_id, ← toEntries_pairs, h]
  have hback : ∀ e ∈ es, (ofTree e.1).toTree = e.1 :=
    fun e he => congrArg Prod.fst (List.map_inj_left.mp hself e he)
  rw [← hback e he, heq, hback e' he']

/-- A mapping comes back exactly if each of its entries does. -/
theorem ofList_toEntries_ofEntries_iff {es : Entries} (hd : es.Distinct) :
    Entries.ofList (toEntries (ofEntries [] es)) = es ↔ toEntries (pairs es) = es := by
  constructor
  · intro h
    -- no entry can have been lost on either way
    have hthere := length_ofEntries_le [] es
    have hback := Entries.length_insertAll_le [] (toEntries (ofEntries [] es))
    rw [length_toEntries] at hback
    have hlength : (Entries.insertAll [] (toEntries (ofEntries [] es))).length = es.length :=
      congrArg List.length h
    rw [List.length_nil] at hthere hback
    have hpairs : ofEntries [] es = pairs es := ofEntries_eq_append (by rw [List.length_nil]; omega)
    have hlist : Entries.ofList (toEntries (ofEntries [] es)) = toEntries (ofEntries [] es) :=
      Entries.insertAll_eq_append (by rw [List.length_nil, length_toEntries]; omega)
    rw [← hpairs, ← hlist, h]
  · intro h
    have hapart : (pairs es).Pairwise fun a b => a.1 ≠ b.1 := by
      refine List.pairwise_map.mpr (hd.imp_of_mem fun {e e'} he he' hne heq => hne ?_)
      rw [eq_of_toEntries_pairs h he he' heq]
      exact .refl _
    have hpairs : ofEntries [] es = pairs es := ofEntries_of_apart hapart
    rw [hpairs, h, Entries.ofList_of_distinct hd]

/-! ## Documents on their way -/

mutual

/-- A document without tags comes back exactly if each of its numbers is kept. -/
theorem comesBack_iff : ∀ {t : Tree}, t.tags = [] → (∀ es ∈ t.mappings, es.Distinct) →
    ((ofTree t).toTree = t ↔ ∀ n ∈ t.numbers, isKept n = true)
  | .null, _, _ => by simp [ofTree, toTree, ofScalar, Tree.numbers]
  | .bool b, _, _ => by simp [ofTree, toTree, ofScalar, Tree.numbers]
  | .string s, _, _ => by simp [ofTree, toTree, ofScalar, Tree.numbers]
  | .number n, _, _ => by simp [ofTree, toTree, ofScalar_ofNumber_iff, Tree.numbers]
  | .sequence items, htags, hd => by
      have ih := itemsComeBack_iff htags hd
      simpa [ofTree, toTree, Tree.numbers] using ih
  | .mapping es, htags, hd => by
      have hes := hd es (List.mem_cons_self ..)
      have ih := entriesComeBack_iff htags fun es' h => hd es' (List.mem_cons_of_mem _ h)
      rw [ofTree, toTree, Tree.mapping.injEq, ofList_toEntries_ofEntries_iff hes]
      exact ih
  | .tagged tag value, htags, _ => by cases htags

/-- Items come back exactly if each of their numbers is kept. -/
theorem itemsComeBack_iff : ∀ {xs : List Tree}, Tree.tags.ofItems xs = [] →
    (∀ es ∈ Tree.mappings.mappingsOfItems xs, es.Distinct) →
    (toItems (ofItems xs) = xs ↔ ∀ n ∈ Tree.numbers.numbersOfItems xs, isKept n = true)
  | [], _, _ => by simp [ofItems, toItems, Tree.numbers.numbersOfItems]
  | x :: xs, htags, hd => by
      obtain ⟨hx, hxs⟩ := List.append_eq_nil_iff.mp htags
      have ihx := comesBack_iff hx fun es h => hd es (List.mem_append_left _ h)
      have ihxs := itemsComeBack_iff hxs fun es h => hd es (List.mem_append_right _ h)
      rw [ofItems, toItems, List.cons.injEq, ihx, ihxs, Tree.numbers.numbersOfItems,
        List.forall_mem_append]

/-- Entries come back exactly if each of their numbers is kept. -/
theorem entriesComeBack_iff : ∀ {es : Entries}, Tree.tags.ofEntries es = [] →
    (∀ es' ∈ Tree.mappings.mappingsOfEntries es, es'.Distinct) →
    (toEntries (pairs es) = es ↔ ∀ n ∈ Tree.numbers.numbersOfEntries es, isKept n = true)
  | [], _, _ => by simp [pairs, toEntries, Tree.numbers.numbersOfEntries]
  | (k, v) :: es, htags, hd => by
      obtain ⟨hkv, hes⟩ := List.append_eq_nil_iff.mp htags
      obtain ⟨hk, hv⟩ := List.append_eq_nil_iff.mp hkv
      have ihk := comesBack_iff hk fun es' h =>
        hd es' (List.mem_append_left _ (List.mem_append_left _ h))
      have ihv := comesBack_iff hv fun es' h =>
        hd es' (List.mem_append_left _ (List.mem_append_right _ h))
      have ihes := entriesComeBack_iff hes fun es' h => hd es' (List.mem_append_right _ h)
      rw [pairs, List.map_cons, toEntries, List.cons.injEq, Prod.mk.injEq, ihk, ihv,
        Tree.numbers.numbersOfEntries, List.forall_mem_append, List.forall_mem_append, ← ihes]
      rfl

end

/-- Entries put in a mapping bring their tags and no others. -/
theorem tagsOfEntries_insert {k v : Tree} {es : Entries} (hk : k.tags = [])
    (hv : v.tags = []) (hes : Tree.tags.ofEntries es = []) :
    Tree.tags.ofEntries (es.insert k v) = [] := by
  induction es with
  | nil => simp [Entries.insert, Tree.tags.ofEntries, hk, hv]
  | cons e es ih =>
      simp only [Tree.tags.ofEntries, List.append_eq_nil_iff] at hes
      rw [Entries.insert]
      split
      · simp [Tree.tags.ofEntries, hes, hv]
      · simp [Tree.tags.ofEntries, hes, ih]

theorem tagsOfEntries_insertAll {es new : Entries}
    (hes : Tree.tags.ofEntries es = [])
    (hnew : Tree.tags.ofEntries new = []) :
    Tree.tags.ofEntries (es.insertAll new) = [] := by
  induction new generalizing es with
  | nil => exact hes
  | cons e new ih =>
      simp only [Tree.tags.ofEntries, List.append_eq_nil_iff] at hnew
      exact ih (tagsOfEntries_insert hnew.1.1 hnew.1.2 hes) hnew.2

mutual

/-- What comes back has no tags. -/
theorem tags_toTree : ∀ v : Value, v.toTree.tags = []
  | .unknown => rfl
  | .scalar s => by
      cases s with
      | real text =>
          rw [toTree, ofScalar]
          split
          · rfl
          · rfl
      | null => rfl
      | bool b => rfl
      | integer n => rfl
      | string text => rfl
  | .sequence items => tagsOfItems_toItems items
  | .mapping entries => tagsOfEntries_insertAll rfl (tagsOfEntries_toEntries entries)

theorem tagsOfItems_toItems :
    ∀ items : List Value, Tree.tags.ofItems (toItems items) = []
  | [] => rfl
  | x :: xs => List.append_eq_nil_iff.mpr ⟨tags_toTree x, tagsOfItems_toItems xs⟩

theorem tagsOfEntries_toEntries :
    ∀ entries : List (Value × Value), Tree.tags.ofEntries (toEntries entries) = []
  | [] => rfl
  | (k, v) :: es =>
      List.append_eq_nil_iff.mpr ⟨List.append_eq_nil_iff.mpr
        ⟨tags_toTree k, tags_toTree v⟩, tagsOfEntries_toEntries es⟩

end

/--
**The documents that come back.** They are those without tags whose numbers are all kept: not one
entry is lost, merged or moved, whatever the keys are.
-/
theorem toTree_ofTree_iff {t : Tree} (hd : ∀ es ∈ t.mappings, es.Distinct) :
    (ofTree t).toTree = t ↔ t.tags = [] ∧ ∀ n ∈ t.numbers, isKept n = true := by
  constructor
  · intro h
    have htags : t.tags = [] := h ▸ tags_toTree (ofTree t)
    exact ⟨htags, (comesBack_iff htags hd).mp h⟩
  · rintro ⟨htags, hnumbers⟩
    exact (comesBack_iff htags hd).mpr hnumbers

/-- Numbers as keys and in keys come back, and so does text that looks like a number. -/
theorem toTree_ofTree_numeric_keys :
    (ofTree (.mapping
      [(.number (.whole ⟨-1, by decide, by decide⟩), .sequence [.string ".nan", .null]),
        (.mapping [(.string "zero", .number (.double .zero))], .bool true)])).toTree =
      .mapping
        [(.number (.whole ⟨-1, by decide, by decide⟩), .sequence [.string ".nan", .null]),
          (.mapping [(.string "zero", .number (.double .zero))], .bool true)] :=
  (toTree_ofTree_iff (by decide)).mpr (by decide)

/-- The largest whole number comes back as a binary64 number, and what is no number as a string. -/
theorem toTree_ofTree_largest_and_nan :
    (ofTree (.number (.whole ⟨18446744073709551615, by decide, by decide⟩))).toTree =
        .number (.double (.ofInt 18446744073709551616)) ∧
      (ofTree (.number (.double .nan))).toTree = .string ".nan" := by
  decide +kernel

end Value

end Yaml.Plain

end TreeEdit
