import TreeEdit.Proofs.Children

/-!
# Entries that were inserted one after the other

Inserting an entry keeps the key that is there, or puts a new one at the end. What a series of
insertions comes to can be said without going through it: the keys are the old ones and behind them
the new ones, each where it first appears (`Entries.keys_insertAll`), and the value of a key is the
last one that was inserted, or else the old one (`Entries.find?_insertAll`).
-/

namespace TreeEdit.Entries

/-- The keys of entries, in order. -/
def keys (es : Entries) : List Tree := es.map Prod.fst

/-- The keys of a list, each where it first appears. -/
def firstKeys (ks : List Tree) : List Tree := ks.eraseDupsBy fun k l => decide (k.Same l)

theorem firstKeys_nil : firstKeys [] = [] := List.eraseDupsBy_nil

theorem firstKeys_cons (k : Tree) (ks : List Tree) :
    firstKeys (k :: ks) = k :: firstKeys (ks.filter fun l => ¬ l.Same k) := by
  rw [firstKeys, List.eraseDupsBy_cons]
  refine congrArg (fun ks' => k :: firstKeys ks') (List.filter_congr fun l _ => ?_)
  simp only [decide_eq_false_iff_not]

/-! ## Distinct keys -/

theorem Distinct.insert {es : Entries} (h : es.Distinct) (k v : Tree) :
    (es.insert k v).Distinct := by
  induction es with
  | nil => exact List.pairwise_singleton _ _
  | cons e es ih =>
      obtain ⟨hapart, hes⟩ := List.pairwise_cons.mp h
      by_cases hsame : k.Same e.1
      · simp only [Entries.insert, if_pos hsame]
        exact List.pairwise_cons.mpr ⟨hapart, hes⟩
      · have hnone : find? e.1 (Entries.insert k v es) = none := by
          rw [find?_insert, if_neg fun h => hsame h.symm]
          exact find?_eq_none_iff.mpr hapart
        simp only [Entries.insert, if_neg hsame]
        exact List.pairwise_cons.mpr ⟨find?_eq_none_iff.mp hnone, ih hes⟩

theorem Distinct.insertAll {es : Entries} (h : es.Distinct) (new : Entries) :
    (es.insertAll new).Distinct := by
  induction new generalizing es with
  | nil => exact h
  | cons e new ih => exact ih (h.insert e.1 e.2)

theorem distinct_ofList (pairs : List (Tree × Tree)) : (ofList pairs).Distinct :=
  Distinct.insertAll List.Pairwise.nil pairs

/-! ## Values -/

theorem insertAll_append (es new new' : Entries) :
    es.insertAll (new ++ new') = (es.insertAll new).insertAll new' := List.foldl_append ..

theorem find?_append (k : Tree) (es fs : Entries) :
    find? k (es ++ fs) = (find? k es).or (find? k fs) := by
  rw [find?_eq_lookup?, find?_eq_lookup?, find?_eq_lookup?, lookup?, List.find?_append,
    Option.map_or]
  rfl

/-- A look-up does not tell keys apart that are the same. -/
theorem find?_congr {k l : Tree} (h : k.Same l) (es : Entries) : find? k es = find? l es := by
  rw [find?_eq_lookup?, find?_eq_lookup?, lookup?_congr h]

/-- **Of the values inserted for a key the last one counts, and without any the old one.** -/
theorem find?_insertAll (k : Tree) (es new : Entries) :
    find? k (es.insertAll new) = (find? k new.reverse).or (find? k es) := by
  induction new generalizing es with
  | nil => rfl
  | cons e new ih =>
      calc find? k (es.insertAll (e :: new))
        _ = (find? k new.reverse).or (find? k (Entries.insert e.1 e.2 es)) := ih _
        _ = (find? k new.reverse).or ((find? k [e]).or (find? k es)) := by
            rw [find?_insert, find?, find?]
            split <;> rfl
        _ = (find? k (e :: new).reverse).or (find? k es) := by
            rw [← Option.or_assoc, ← find?_append, List.reverse_cons]

/-- A key that is not inserted keeps its value. -/
theorem find?_insertAll_of_not_same {k : Tree} {new : Entries} (h : ∀ e ∈ new, ¬ k.Same e.1)
    (es : Entries) : find? k (es.insertAll new) = find? k es := by
  have hnone : find? k new.reverse = none :=
    find?_eq_none_iff.mpr fun e he => h e (List.mem_reverse.mp he)
  rw [find?_insertAll, hnone, Option.none_or]

/-- Of entries with the same key the last one gives the value. -/
theorem find?_ofList {k v : Tree} (before : Entries) {after : Entries}
    (h : ∀ e ∈ after, ¬ k.Same e.1) : find? k (ofList (before ++ (k, v) :: after)) = some v := by
  have hsplit : ofList (before ++ (k, v) :: after) =
      insertAll (Entries.insert k v (ofList before)) after := insertAll_append ..
  rw [hsplit, find?_insertAll_of_not_same h, find?_insert, if_pos (Tree.Same.refl k)]

/-- Where keys are distinct it makes no difference from which end a key is looked for. -/
theorem Distinct.find?_reverse {es : Entries} (h : es.Distinct) (k : Tree) :
    find? k es.reverse = find? k es := by
  have hof : ofList es = es := ofList_of_distinct h
  calc find? k es.reverse
    _ = find? k (ofList es) := by rw [ofList, find?_insertAll, find?, Option.or_none]
    _ = find? k es := by rw [hof]

/-! ## Keys -/

theorem keys_insert (k v : Tree) (es : Entries) : (es.insert k v).keys =
    if (find? k es).isSome then es.keys else es.keys ++ [k] := by
  induction es with
  | nil => rfl
  | cons e es ih =>
      by_cases hsame : k.Same e.1
      · simp only [Entries.insert, find?, if_pos hsame]
        rfl
      · simp only [Entries.insert, find?, if_neg hsame]
        rw [keys, List.map_cons, ← keys, ih]
        split <;> rfl

/-- **New keys come behind the old ones, each where it first appears.** -/
theorem keys_insertAll (es new : Entries) : (es.insertAll new).keys =
    es.keys ++ firstKeys (new.keys.filter fun k => (find? k es).isNone) := by
  induction new generalizing es with
  | nil =>
      rw [show keys [] = [] from rfl, List.filter_nil, firstKeys_nil, List.append_nil]
      rfl
  | cons e new ih =>
      have hnext : (es.insertAll (e :: new)).keys = ((es.insert e.1 e.2).insertAll new).keys := rfl
      have hkeys : keys (e :: new) = e.1 :: keys new := rfl
      rw [hnext, ih, keys_insert, hkeys]
      by_cases hold : (find? e.1 es).isSome
      · -- the key is there already, so the same keys count as new before and after
        have hnew : ∀ k, (find? k (es.insert e.1 e.2)).isNone = (find? k es).isNone := by
          intro k
          rw [find?_insert]
          split
          · rename_i hsame
            rw [find?_congr hsame, ← Option.not_isSome, ← Option.not_isSome, hold]
            rfl
          · rfl
        simp only [hold, hnew, if_true]
        rw [List.filter_cons_of_neg (by rw [← Option.not_isSome, hold]; exact Bool.false_ne_true)]
      · have hnew : ∀ k, (find? k (es.insert e.1 e.2)).isNone =
            (decide (¬ k.Same e.1) && (find? k es).isNone) := by
          intro k
          rw [find?_insert]
          by_cases hsame : k.Same e.1 <;> simp [hsame]
        rw [if_neg hold, List.filter_cons_of_pos (by simpa using hold), firstKeys_cons,
          List.filter_filter, List.append_assoc, List.singleton_append]
        simp only [hnew]

end TreeEdit.Entries
