import TreeEdit.Tree.Location

/-!
# Children of a node

Mappings and sequences are walked, searched and changed alike once both are seen as one list of
children, each with the step that leads to it. `Tree.children` is that list, and every statement
about documents in this development goes by induction on it (`Tree.childInduction`).

`Leads t s u` says that the step `s` leads from `t` to `u` and is written exactly as it stands in
`t`: keys can be the same without being equal, and a look-up takes the first that is the same. Where
a step leads, `child?` and `setChild` do what their names say. `Loses t s u rest` is about what a
step finds, however it is written: the child, and what is left of the node around it.
-/

namespace TreeEdit

theorem Step.Same.refl : ∀ s : Step, s.Same s
  | .key k => Tree.Same.refl k
  | .index _ => rfl

theorem Location.Same.refl : ∀ l : Location, Location.Same l l
  | [] => trivial
  | s :: l => ⟨.refl s, Location.Same.refl l⟩

namespace Entries

/-- The entry that a look-up stops at, with the key as it stands there. -/
def lookup? (k : Tree) (es : Entries) : Option (Tree × Tree) := List.find? (fun e => k.Same e.1) es

theorem find?_eq_lookup? (k : Tree) (es : Entries) : find? k es = (lookup? k es).map Prod.snd := by
  induction es with
  | nil => rfl
  | cons e es ih =>
      by_cases he : k.Same e.1
      · simp [find?, lookup?, he]
      · simpa [find?, lookup?, he] using ih

theorem lookup?_eq_some_iff {k u : Tree} {es : Entries} :
    lookup? k es = some (k, u) ↔
      ∃ pre post, es = pre ++ (k, u) :: post ∧ ∀ e ∈ pre, ¬ k.Same e.1 := by
  simp [lookup?, List.find?_eq_some_iff_append, Tree.Same.refl]

/-- Keys that count as the same find the same entry. -/
theorem lookup?_congr {k l : Tree} (h : k.Same l) (es : Entries) : lookup? k es = lookup? l es := by
  unfold lookup?
  congr 1
  funext e
  exact decide_eq_decide.mpr ⟨fun hk => h.symm.trans hk, fun hl => h.trans hl⟩

/-- Looking for another key stops where it did before an insertion. -/
theorem lookup?_insert_of_not_same {k l : Tree} (h : ¬ l.Same k) (v : Tree) (es : Entries)
    (hk : (find? k es).isSome) : lookup? l (insert k v es) = lookup? l es := by
  induction es with
  | nil => simp [find?] at hk
  | cons e es ih =>
      by_cases he : k.Same e.1
      · have hle : ¬ l.Same e.1 := fun hl => h (hl.trans he.symm)
        simp [insert, lookup?, he, hle]
      · simp only [find?, if_neg he] at hk
        have := ih hk
        simp only [lookup?] at this
        simp only [insert, lookup?, if_neg he, List.find?_cons, this]

theorem insert_append_of_not_same {k : Tree} {pre : Entries} (h : ∀ e ∈ pre, ¬ k.Same e.1)
    (v : Tree) (es : Entries) : insert k v (pre ++ es) = pre ++ insert k v es := by
  induction pre with
  | nil => rfl
  | cons e pre ih =>
      have he : ¬ k.Same e.1 := h e (List.mem_cons_self ..)
      have hpre : ∀ e ∈ pre, ¬ k.Same e.1 := fun e' he' => h e' (List.mem_cons_of_mem _ he')
      simp only [List.cons_append, insert, if_neg he]
      exact congrArg _ (ih hpre)

theorem erase_append_of_not_same {k : Tree} {pre : Entries} (h : ∀ e ∈ pre, ¬ k.Same e.1)
    (es : Entries) : erase k (pre ++ es) = pre ++ erase k es := by
  induction pre with
  | nil => rfl
  | cons e pre ih =>
      have he : ¬ k.Same e.1 := h e (List.mem_cons_self ..)
      have hpre : ∀ e ∈ pre, ¬ k.Same e.1 := fun e' he' => h e' (List.mem_cons_of_mem _ he')
      simp only [List.cons_append, erase, if_neg he]
      exact congrArg _ (ih hpre)

theorem find?_eq_none_iff {k : Tree} {es : Entries} :
    find? k es = none ↔ ∀ e ∈ es, ¬ k.Same e.1 := by
  simp [find?_eq_lookup?, lookup?]

/-- A key that is not there yet gets the last place. -/
theorem insert_of_find?_eq_none {k v : Tree} {es : Entries} (h : find? k es = none) :
    insert k v es = es ++ [(k, v)] := by
  have := insert_append_of_not_same (find?_eq_none_iff.mp h) v []
  simpa [insert] using this

/-- Entries with keys of their own are put at the end, in their order. -/
theorem insertAll_of_distinct {es new : Entries} (h : Distinct (es ++ new)) :
    insertAll es new = es ++ new := by
  induction new generalizing es with
  | nil => exact (List.append_nil es).symm
  | cons e new ih =>
      have hapart := (List.pairwise_append.mp h).2.2
      have hnew : insert e.1 e.2 es = es ++ [e] :=
        insert_of_find?_eq_none (find?_eq_none_iff.mpr fun e' he' hsame =>
          hapart e' he' e (List.mem_cons_self ..) hsame.symm)
      calc insertAll es (e :: new) = insertAll (insert e.1 e.2 es) new := rfl
        _ = es ++ [e] ++ new := by rw [hnew, ih (by simpa using h)]
        _ = es ++ e :: new := by rw [List.append_assoc, List.singleton_append]

theorem ofList_of_distinct {es : Entries} (h : es.Distinct) : ofList es = es :=
  insertAll_of_distinct h

/-- What a look-up finds stands behind the first key that is the same. -/
theorem find?_eq_some_iff {k u : Tree} {es : Entries} :
    find? k es = some u ↔ ∃ pre l post, es = pre ++ (l, u) :: post ∧ k.Same l ∧
      ∀ e ∈ pre, ¬ k.Same e.1 := by
  rw [find?_eq_lookup?, lookup?, Option.map_eq_some_iff]
  simp only [List.find?_eq_some_iff_append, decide_eq_true_eq, Bool.not_eq_true',
    decide_eq_false_iff_not]
  constructor
  · rintro ⟨⟨l, u⟩, ⟨hl, pre, post, rfl, hpre⟩, rfl⟩
    exact ⟨pre, l, post, rfl, hl, hpre⟩
  · rintro ⟨pre, l, post, rfl, hl, hpre⟩
    exact ⟨(l, u), ⟨hl, pre, post, rfl, hpre⟩, rfl⟩

/-- The entry that a look-up stops at keeps its place and its key when its value changes. -/
theorem insert_of_find? {k l u v : Tree} {pre post : Entries} (hl : k.Same l)
    (h : ∀ e ∈ pre, ¬ k.Same e.1) :
    insert k v (pre ++ (l, u) :: post) = pre ++ (l, v) :: post := by
  rw [insert_append_of_not_same h]
  simp [insert, hl]

/-- A value takes the place of the one that its key had. -/
theorem insert_of_lookup? {k u v : Tree} {pre post : Entries} (h : ∀ e ∈ pre, ¬ k.Same e.1) :
    insert k v (pre ++ (k, u) :: post) = pre ++ (k, v) :: post :=
  insert_of_find? (.refl k) h

/-- The entry that a look-up stops at is the one that goes. -/
theorem erase_of_find? {k l u : Tree} {pre post : Entries} (hl : k.Same l)
    (h : ∀ e ∈ pre, ¬ k.Same e.1) : erase k (pre ++ (l, u) :: post) = pre ++ post := by
  rw [erase_append_of_not_same h]
  simp [erase, hl]

end Entries

namespace Tree

/-- Items with the steps to them, the first of them at position `i`. -/
def itemSteps : Nat → List Tree → List (Step × Tree)
  | _, [] => []
  | i, t :: items => (.index i, t) :: itemSteps (i + 1) items

/-- Values with the steps to them. -/
def entrySteps (es : Entries) : List (Step × Tree) := es.map fun e => (.key e.1, e.2)

/-- The children of a node in order, each with the step to it; tags are looked through. -/
def children : Tree → List (Step × Tree)
  | .tagged _ t => t.children
  | .mapping es => entrySteps es
  | .sequence items => itemSteps 0 items
  | .null | .bool _ | .number _ | .string _ => []

theorem children_untag : ∀ t : Tree, t.untag.children = t.children
  | .tagged _ t => children_untag t
  | .null | .bool _ | .number _ | .string _ | .sequence _ | .mapping _ => rfl

theorem children_retag (t core : Tree) : (t.retag core).children = core.children := by
  rw [← children_untag, untag_retag, children_untag]

theorem children_of_untag {t core : Tree} (h : t.untag = core) : t.children = core.children := by
  rw [← h, children_untag]

theorem itemSteps_append (i : Nat) (a b : List Tree) :
    itemSteps i (a ++ b) = itemSteps i a ++ itemSteps (i + a.length) b := by
  induction a generalizing i with
  | nil => rfl
  | cons t a ih =>
      simp only [List.cons_append, itemSteps, ih, List.length_cons]
      rw [Nat.add_right_comm, Nat.add_assoc]

/-- The steps to items are their positions. -/
theorem mem_itemSteps {i : Nat} {items : List Tree} {s : Step} {u : Tree} :
    (s, u) ∈ itemSteps i items ↔ ∃ n, s = .index (i + n) ∧ items[n]? = some u := by
  induction items generalizing i with
  | nil => simp [itemSteps]
  | cons t items ih =>
      simp only [itemSteps, List.mem_cons, Prod.mk.injEq, ih]
      constructor
      · rintro (⟨rfl, rfl⟩ | ⟨n, rfl, hn⟩)
        · exact ⟨0, rfl, rfl⟩
        · exact ⟨n + 1, by rw [Nat.add_right_comm, Nat.add_assoc], hn⟩
      · rintro ⟨n, rfl, hn⟩
        cases n with
        | zero => left; simpa using hn.symm
        | succ n => right; exact ⟨n, by rw [Nat.add_right_comm, Nat.add_assoc], hn⟩

theorem mem_entrySteps {es : Entries} {s : Step} {u : Tree} :
    (s, u) ∈ entrySteps es ↔ ∃ k, s = .key k ∧ (k, u) ∈ es := by
  simp only [entrySteps, List.mem_map, Prod.mk.injEq]
  constructor
  · rintro ⟨e, he, rfl, rfl⟩; exact ⟨e.1, rfl, he⟩
  · rintro ⟨k, rfl, h⟩; exact ⟨(k, u), h, rfl, rfl⟩

/-- The tags do not pile up. -/
theorem retag_retag {core : Tree} (u : Tree) : ∀ t : Tree, core.isTagged = false →
    (t.retag core).retag u = t.retag u
  | .tagged _ t, h => congrArg _ (retag_retag u t h)
  | .null, h | .bool _, h | .number _, h | .string _, h | .sequence _, h | .mapping _, h => by
      cases core with
      | tagged => cases h
      | null | bool _ | number _ | string _ | sequence _ | mapping _ => rfl

/-- Under its tags a node is a mapping, a sequence or a scalar. -/
theorem untag_cases (t : Tree) :
    (∃ es, t.untag = .mapping es) ∨ (∃ items, t.untag = .sequence items) ∨ t.isScalar = true := by
  unfold isScalar
  cases t.untag with
  | mapping es => exact .inl ⟨es, rfl⟩
  | sequence items => exact .inr (.inl ⟨items, rfl⟩)
  | null | bool _ | number _ | string _ | tagged _ _ => exact .inr (.inr rfl)

/-- A scalar has no children. -/
theorem children_eq_nil_of_isScalar : ∀ {t : Tree}, t.isScalar = true → t.children = []
  | .tagged _ t, h => children_eq_nil_of_isScalar (t := t) h
  | .null, _ | .bool _, _ | .number _, _ | .string _, _ => rfl
  | .sequence _, h | .mapping _, h => by simp [isScalar, untag] at h

/-- Only collections have children. -/
theorem not_isScalar_of_mem_children {t : Tree} {e : Step × Tree} (h : e ∈ t.children) :
    t.isScalar = false := by
  rw [Bool.eq_false_iff]
  intro ht
  rw [children_eq_nil_of_isScalar ht] at h
  cases h

theorem sizeOf_untag_le : ∀ t : Tree, sizeOf t.untag ≤ sizeOf t
  | .tagged _ t => by
      have := sizeOf_untag_le t
      simp only [untag, tagged.sizeOf_spec]; omega
  | .null | .bool _ | .number _ | .string _ | .sequence _ | .mapping _ => Nat.le_refl _

/-- A child is smaller than its parent. -/
theorem sizeOf_lt_of_mem_children {t u : Tree} {s : Step} (h : (s, u) ∈ t.children) :
    sizeOf u < sizeOf t := by
  have hle := sizeOf_untag_le t
  rcases t.untag_cases with ⟨es, hc⟩ | ⟨items, hc⟩ | hc
  · rw [children_of_untag hc] at h
    obtain ⟨k, -, hk⟩ := mem_entrySteps.mp h
    have := List.sizeOf_lt_of_mem hk
    simp only [hc, Prod.mk.sizeOf_spec, mapping.sizeOf_spec] at this hle
    omega
  · rw [children_of_untag hc] at h
    obtain ⟨n, -, hn⟩ := mem_itemSteps.mp h
    have := List.sizeOf_lt_of_mem (List.mem_of_getElem? hn)
    simp only [hc, sequence.sizeOf_spec] at hle
    omega
  · rw [children_eq_nil_of_isScalar hc] at h
    exact absurd h (List.not_mem_nil)

/-- What holds of a node whenever it holds of its children holds of every node. -/
theorem childInduction {P : Tree → Prop}
    (step : ∀ t, (∀ s u, (s, u) ∈ t.children → P u) → P t) (t : Tree) : P t := by
  induction hn : sizeOf t using Nat.strongRecOn generalizing t with
  | ind n ih =>
    subst hn
    exact step t fun s u h => ih _ (sizeOf_lt_of_mem_children h) u rfl

/-! ## Where a step leads -/

/-- The step, written as it stands in the node, leads to the child. -/
inductive Leads (t : Tree) : Step → Tree → Prop where
  | entry {k u : Tree} {es : Entries} :
      t.untag = .mapping es → es.lookup? k = some (k, u) → Leads t (.key k) u
  | item {u : Tree} {items : List Tree} {n : Nat} :
      t.untag = .sequence items → items[n]? = some u → Leads t (.index n) u

theorem setChild_key {t : Tree} {es : Entries} (h : t.untag = .mapping es) (k v : Tree) :
    t.setChild (.key k) v = t.retag (.mapping (Entries.insert k v es)) := by
  simp [setChild, h]

theorem setChild_index {t : Tree} {items : List Tree} (h : t.untag = .sequence items) (n : Nat)
    (v : Tree) : t.setChild (.index n) v = t.retag (.sequence (items.set n v)) := by
  simp [setChild, h]

theorem Leads.child?_eq {t u : Tree} {s : Step} (h : Leads t s u) : t.child? s = some u := by
  cases h with
  | entry hc hk => simp [child?, hc, Entries.find?_eq_lookup?, hk]
  | item hc hn => simp [child?, hc, hn]

theorem child?_of_mapping {t : Tree} {es : Entries} (h : t.untag = .mapping es) (s : Step) :
    t.child? s = match s with
      | .key k => Entries.find? k es
      | .index _ => none := by
  cases s <;> simp [child?, h]

theorem child?_of_sequence {t : Tree} {items : List Tree} (h : t.untag = .sequence items)
    (s : Step) : t.child? s = match s with
      | .key _ => none
      | .index n => items[n]? := by
  cases s <;> simp [child?, h]

/-- The child that a step finds, and what is left of the node: its tags and the other children. -/
inductive Loses (t : Tree) : (s : Step) → (child rest : Tree) → Prop where
  | entry {k k' u : Tree} {pre post : Entries} : t.untag = .mapping (pre ++ (k', u) :: post) →
      k.Same k' → (∀ e ∈ pre, ¬ k.Same e.1) →
      Loses t (.key k) u (t.retag (.mapping (pre ++ post)))
  | item {u : Tree} {pre post : List Tree} : t.untag = .sequence (pre ++ u :: post) →
      Loses t (.index pre.length) u (t.retag (.sequence (pre ++ post)))

/-- What a step finds can be taken out. -/
theorem loses_of_child? {t u : Tree} {s : Step} (h : t.child? s = some u) :
    t.Loses s u (t.eraseChild s) := by
  unfold child? at h
  unfold eraseChild
  split at h
  · rename_i es k hc
    obtain ⟨pre, k', post, rfl, hk, hpre⟩ := Entries.find?_eq_some_iff.mp h
    rw [Entries.erase_of_find? hk hpre]
    exact .entry hc hk hpre
  · rename_i items n hc
    obtain ⟨hlt, rfl⟩ := List.getElem?_eq_some_iff.mp h
    have hsplit : items = items.take n ++ items[n] :: items.drop (n + 1) := by
      rw [← List.drop_eq_getElem_cons hlt, List.take_append_drop]
    have hlen : (items.take n).length = n := List.length_take_of_le (Nat.le_of_lt hlt)
    have hitem : t.Loses (.index (items.take n).length) items[n] _ :=
      .item (hc.trans (congrArg _ hsplit))
    rw [List.eraseIdx_eq_take_drop_succ]
    rwa [hlen] at hitem
  · cases h

/-- Putting back the child that is there changes nothing. -/
theorem Loses.setChild_self {t u rest : Tree} {s : Step} (h : t.Loses s u rest) :
    t.setChild s u = t := by
  cases h with
  | entry hc hk hpre =>
      rw [setChild_key hc, Entries.insert_of_find? hk hpre, ← hc, retag_untag]
  | item hc =>
      rw [setChild_index hc, List.set_append_right _ _ (Nat.le_refl _), Nat.sub_self,
        List.set_cons_zero, ← hc, retag_untag]

/-- The children around the one that a step leads to stay as they are when it changes. -/
theorem Leads.children_setChild {t u : Tree} {s : Step} (h : Leads t s u) :
    ∃ pre post, t.children = pre ++ (s, u) :: post
      ∧ ∀ v, (t.setChild s v).children = pre ++ (s, v) :: post := by
  cases h with
  | @entry k _ _ hc hk =>
      obtain ⟨pre, post, rfl, hpre⟩ := Entries.lookup?_eq_some_iff.mp hk
      refine ⟨entrySteps pre, entrySteps post, ?_, fun v => ?_⟩
      · rw [children_of_untag hc]; simp [children, entrySteps]
      · rw [setChild_key hc, children_retag, Entries.insert_of_lookup? hpre]
        simp [children, entrySteps]
  | @item _ items n hc hn =>
      obtain ⟨hlt, rfl⟩ := List.getElem?_eq_some_iff.mp hn
      refine ⟨itemSteps 0 (items.take n), itemSteps (n + 1) (items.drop (n + 1)), ?_, fun v => ?_⟩
      · rw [children_of_untag hc]
        have hsplit := List.take_append_drop n items
        rw [List.drop_eq_getElem_cons hlt] at hsplit
        have hsteps := itemSteps_append 0 (items.take n) (items[n] :: items.drop (n + 1))
        rw [hsplit] at hsteps
        simpa [children, itemSteps, Nat.min_eq_left (Nat.le_of_lt hlt)] using hsteps
      · rw [setChild_index hc, children_retag, List.set_eq_take_append_cons_drop, if_pos hlt]
        simp [children, itemSteps_append, itemSteps, Nat.min_eq_left (Nat.le_of_lt hlt)]

theorem Leads.mem_children {t u : Tree} {s : Step} (h : Leads t s u) : (s, u) ∈ t.children := by
  obtain ⟨pre, post, hc, -⟩ := h.children_setChild
  rw [hc]; simp

/-- A child that is put in place is led to by the same step. -/
theorem Leads.setChild {t u : Tree} {s : Step} (h : Leads t s u) (v : Tree) :
    Leads (t.setChild s v) s v := by
  cases h with
  | entry hc hk =>
      obtain ⟨pre, post, rfl, hpre⟩ := Entries.lookup?_eq_some_iff.mp hk
      rw [setChild_key hc, Entries.insert_of_lookup? hpre]
      exact .entry (untag_retag ..) (Entries.lookup?_eq_some_iff.mpr ⟨pre, post, rfl, hpre⟩)
  | @item _ items n hc hn =>
      obtain ⟨hlt, -⟩ := List.getElem?_eq_some_iff.mp hn
      rw [setChild_index hc]
      exact .item (untag_retag ..) (by simp [hlt])

theorem Leads.setChild_self {t u : Tree} {s : Step} (h : Leads t s u) : t.setChild s u = t :=
  (loses_of_child? h.child?_eq).setChild_self

/-- Two steps that lead to the same child, as written, are one. -/
theorem Leads.eq_of_same {t u w : Tree} {r s : Step} (hr : Leads t r w) (hs : Leads t s u)
    (h : r.Same s) : r = s ∧ w = u := by
  cases hr with
  | @entry k _ es hc hk =>
      cases hs with
      | @entry l _ es' hc' hl =>
          have hes : es' = es := by rw [hc] at hc'; exact (Tree.mapping.inj hc').symm
          subst hes
          -- a look-up does not tell the two keys apart, so both stop at one entry
          have hsame := Entries.lookup?_congr (k := k) (l := l) h es'
          rw [hk, hl] at hsame
          simp only [Option.some.injEq, Prod.mk.injEq] at hsame
          exact ⟨congrArg _ hsame.1, hsame.2⟩
      | item => exact h.elim
  | @item _ items m hc hm =>
      cases hs with
      | entry => exact h.elim
      | @item _ items' n hc' hn =>
          have hmn : m = n := h
          subst hmn
          rw [hc] at hc'
          rw [Tree.sequence.inj hc'] at hm
          rw [hm] at hn
          exact ⟨rfl, Option.some.inj hn⟩

/-- Another step leads where it led before. -/
theorem Leads.setChild_of_ne {t u w : Tree} {r s : Step} (hr : Leads t r w) (hs : Leads t s u)
    (hne : r ≠ s) (v : Tree) : Leads (t.setChild s v) r w := by
  -- the same step written otherwise would not lead to `w`
  have hrs : ¬ r.Same s := fun h => hne (hr.eq_of_same hs h).1
  cases hs with
  | @entry k _ es hc hk =>
      cases hr with
      | @entry l _ es' hc' hl =>
          rw [hc] at hc'
          obtain rfl := Tree.mapping.inj hc'
          rw [setChild_key hc]
          refine .entry (untag_retag ..) ?_
          rw [Entries.lookup?_insert_of_not_same hrs v es (by simp [Entries.find?_eq_lookup?, hk])]
          exact hl
      | item hc' => rw [hc] at hc'; cases hc'
  | @item _ items n hc hn =>
      cases hr with
      | entry hc' => rw [hc] at hc'; cases hc'
      | @item _ items' m hc' hm =>
          rw [hc] at hc'
          obtain rfl := Tree.sequence.inj hc'
          rw [setChild_index hc]
          refine .item (untag_retag ..) ?_
          have hmn : n ≠ m := fun h => hrs h.symm
          rw [List.getElem?_set_ne hmn, hm]

end Tree

end TreeEdit
