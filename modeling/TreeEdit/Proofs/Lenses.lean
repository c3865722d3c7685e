import TreeEdit.Edit.Verb
import TreeEdit.Proofs.Nodes

/-!
# Locations as lenses

Finding, changing and removing a node are three recursions on its location, and they agree on where
it leads. A location may be written with other keys than those in the document, as long as they are
the same by value, so whether one location goes on where another one leads is a question of value,
too (`Location.Begins`).

At a single step all three look for one place: the entry that a look-up stops at, or the item at a
position (`Tree.Loses`). From there the laws go down the location:

* a change puts the new node in the place of the old one, and nothing else changes
  (`Tree.exchanged_of_set?`);
* a removal is a change of the parent, which loses one child and keeps the others in their order
  (`Tree.remove?_concat`).

Tags on the way are looked through, and they stay (`Tree.SameFrame`).
-/

namespace TreeEdit

namespace Step

theorem Same.symm : ∀ {s r : Step}, s.Same r → r.Same s
  | .key _, .key _, h => Tree.Same.symm h
  | .index _, .index _, h => Eq.symm h

/-- Where a step led before the child at another step went away: later items have moved up. -/
def origin? (gone : Step) : Step → Option Step
  | .index i =>
    match gone with
    | .index n => some (.index (if i < n then i else i + 1))
    | .key _ => some (.index i)
  | .key k => if gone.Same (.key k) then none else some (.key k)

end Step

namespace Location

/-- The second location goes on where the first one leads. -/
def Begins : Location → Location → Prop
  | [], _ => True
  | s :: l, r :: m => s.Same r ∧ Begins l m
  | _ :: _, [] => False

instance decBegins : (l m : Location) → Decidable (Begins l m)
  | [], _ => .isTrue trivial
  | s :: l, r :: m =>
    have := decBegins l m
    inferInstanceAs (Decidable (s.Same r ∧ Begins l m))
  | _ :: _, [] => .isFalse id

/-- Neither location goes on where the other one leads. -/
def Parted (l m : Location) : Prop := ¬ l.Begins m ∧ ¬ m.Begins l

instance (l m : Location) : Decidable (Parted l m) := inferInstanceAs (Decidable (_ ∧ _))

theorem Parted.symm {l m : Location} (h : l.Parted m) : m.Parted l := ⟨h.2, h.1⟩

theorem begins_iff {l m : Location} : l.Begins m ↔ ∃ n k, m = n ++ k ∧ l.Same n := by
  induction l generalizing m with
  | nil => exact ⟨fun _ => ⟨[], m, rfl, trivial⟩, fun _ => trivial⟩
  | cons s l ih =>
      constructor
      · intro h
        cases m with
        | nil => exact h.elim
        | cons r m =>
            obtain ⟨n, k, rfl, hn⟩ := ih.mp h.2
            exact ⟨r :: n, k, rfl, h.1, hn⟩
      · rintro ⟨n, k, rfl, hn⟩
        cases n with
        | nil => exact hn.elim
        | cons r n => exact ⟨hn.1, ih.mpr ⟨n, k, rfl, hn.2⟩⟩

/-- Two locations that part below one step part there. -/
theorem Parted.of_cons {s r : Step} {l m : Location} (h : Parted (s :: l) (r :: m))
    (hsr : s.Same r) : l.Parted m :=
  ⟨fun hlm => h.1 ⟨hsr, hlm⟩, fun hml => h.2 ⟨hsr.symm, hml⟩⟩

end Location

namespace Tree

variable {t t' u v w : Tree} {s r : Step} {l m : Location}

/-! ## One step -/

namespace Loses

variable {rest : Tree}

theorem child?_eq (h : t.Loses s u rest) : t.child? s = some u := by
  cases h with
  | entry hc hk hpre =>
      rw [child?_of_mapping hc]
      exact Entries.find?_eq_some_iff.mpr ⟨_, _, _, rfl, hk, hpre⟩
  | item hc =>
      rw [child?_of_sequence hc]
      simp

/-- Another child in the same place leaves the same behind. -/
theorem setChild (h : t.Loses s u rest) (v : Tree) : (t.setChild s v).Loses s v rest := by
  cases h with
  | @entry k k' _ pre post hc hk hpre =>
      have hput : t.setChild (.key k) v = t.retag (.mapping (pre ++ (k', v) :: post)) := by
        rw [setChild_key hc, Entries.insert_of_find? hk hpre]
      have hrest := retag_retag (.mapping (pre ++ post)) t
        (rfl : (mapping (pre ++ (k', v) :: post)).isTagged = false)
      rw [hput, ← hrest]
      exact .entry (untag_retag ..) hk hpre
  | @item _ pre post hc =>
      have hput : t.setChild (.index pre.length) v = t.retag (.sequence (pre ++ v :: post)) := by
        rw [setChild_index hc]
        simp
      have hrest := retag_retag (.sequence (pre ++ post)) t
        (rfl : (sequence (pre ++ v :: post)).isTagged = false)
      rw [hput, ← hrest]
      exact .item (untag_retag ..)

/-- The child that was put last is there. -/
theorem setChild_setChild (h : t.Loses s u rest) (v w : Tree) :
    (t.setChild s v).setChild s w = t.setChild s w := by
  cases h with
  | entry hc hk hpre =>
      rw [setChild_key hc, setChild_key hc, setChild_key (untag_retag ..),
        Entries.insert_of_find? hk hpre, Entries.insert_of_find? hk hpre,
        Entries.insert_of_find? hk hpre, retag_retag _ t rfl]
  | item hc =>
      rw [setChild_index hc, setChild_index hc, setChild_index (untag_retag ..),
        retag_retag _ t rfl, List.set_set]

/-- Another step finds what it found before. -/
theorem child?_setChild_of_not_same (h : t.Loses s u rest) (hsr : ¬ s.Same r) (v : Tree) :
    (t.setChild s v).child? r = t.child? r := by
  cases h with
  | @entry k _ _ pre post hc hk hpre =>
      rw [setChild_key hc, child?_of_mapping (untag_retag ..), child?_of_mapping hc]
      cases r with
      | index n => rfl
      | key k₂ =>
          have hne : ¬ k₂.Same k := fun h => hsr h.symm
          dsimp only
          rw [Entries.find?_insert, if_neg hne]
  | @item _ pre post hc =>
      rw [setChild_index hc, child?_of_sequence (untag_retag ..), child?_of_sequence hc]
      cases r with
      | key k => rfl
      | index n =>
          have hne : pre.length ≠ n := hsr
          dsimp only
          rw [List.getElem?_set_ne hne]

/-- Without the child the other steps find the others; later items have moved up. -/
theorem child?_rest (h : t.Loses s u rest) (hd : t.entries.Distinct) (r : Step) :
    rest.child? r = (s.origin? r).bind fun r' => t.child? r' := by
  cases h with
  | @entry k k' _ pre post hc hk hpre =>
      rw [child?_of_mapping (untag_retag ..)]
      cases r with
      | index n => simp [Step.origin?, child?_of_mapping hc]
      | key k₂ =>
          by_cases hsame : k.Same k₂
          · -- the key stood there once, so it is gone
            rw [entries_of_untag hc] at hd
            have hpost := (List.pairwise_cons.mp (List.pairwise_append.mp hd).2.1).1
            have hnone : Entries.find? k₂ (pre ++ post) = none := by
              refine Entries.find?_eq_none_iff.mpr fun e he hk₂ => ?_
              rcases List.mem_append.mp he with he | he
              · exact hpre e he (hsame.trans hk₂)
              · exact hpost e he ((hk.symm.trans hsame).trans hk₂)
            simpa [Step.origin?, Step.Same, hsame] using hnone
          · have hne : ¬ k₂.Same k' := fun h => hsame (hk.trans h.symm)
            have hfind : Entries.find? k₂ (pre ++ (k', u) :: post) =
                Entries.find? k₂ (pre ++ post) := by
              simp [Entries.find?_eq_lookup?, Entries.lookup?, List.find?_append, hne]
            simp [Step.origin?, Step.Same, hsame, child?_of_mapping hc, hfind]
  | @item _ pre post hc =>
      rw [child?_of_sequence (untag_retag ..)]
      cases r with
      | key k => simp [Step.origin?, Step.Same, child?_of_sequence hc]
      | index n =>
          simp only [Step.origin?, Option.bind_some, child?_of_sequence hc]
          by_cases hn : n < pre.length
          · rw [if_pos hn, List.getElem?_append_left hn, List.getElem?_append_left hn]
          · rw [if_neg hn, List.getElem?_append_right (by omega),
              List.getElem?_append_right (by omega), Nat.sub_add_comm (by omega),
              List.getElem?_cons_succ]

theorem mem_children (h : t.Loses s u rest) : ∃ r, (r, u) ∈ t.children := by
  cases h with
  | @entry _ k' _ _ _ hc _ _ =>
      rw [children_of_untag hc]
      exact ⟨.key k', mem_entrySteps.mpr ⟨k', rfl, by simp⟩⟩
  | @item _ pre _ hc =>
      rw [children_of_untag hc]
      exact ⟨.index pre.length, mem_itemSteps.mpr ⟨pre.length, by simp, by simp⟩⟩

end Loses

/-- Steps that are the same find the same. -/
theorem child?_congr (h : s.Same r) (t : Tree) : t.child? s = t.child? r := by
  cases s with
  | key k =>
      cases r with
      | index n => exact h.elim
      | key k₂ =>
          have hfind (es : Entries) : Entries.find? k es = Entries.find? k₂ es := by
            rw [Entries.find?_eq_lookup?, Entries.find?_eq_lookup?, Entries.lookup?_congr h]
          unfold child?
          cases t.untag <;> simp [hfind]
  | index n =>
      cases r with
      | key k => exact h.elim
      | index i =>
          obtain rfl : n = i := h
          rfl

/-! ## A change -/

theorem set?_cons_eq_some_iff : t.set? (s :: l) v = some t' ↔
    ∃ c c', t.child? s = some c ∧ c.set? l v = some c' ∧ t.setChild s c' = t' := by
  rw [set?, Option.bind_eq_some_iff]
  simp only [Option.map_eq_some_iff, ← exists_and_left]

/-- What was put at a location is there. -/
theorem get?_of_set? (h : t.set? l v = some t') : t'.get? l = some v := by
  induction l generalizing t t' with
  | nil => exact h.symm
  | cons s l ih =>
      obtain ⟨c, c', hs, hc, rfl⟩ := set?_cons_eq_some_iff.mp h
      rw [get?, ((loses_of_child? hs).setChild c').child?_eq, Option.bind_some, ih hc]

/-- A second change at a location makes the first one undone. -/
theorem set?_of_set? (h : t.set? l v = some t') (w : Tree) : t'.set? l w = t.set? l w := by
  induction l generalizing t t' with
  | nil => rfl
  | cons s l ih =>
      obtain ⟨c, c', hs, hc, rfl⟩ := set?_cons_eq_some_iff.mp h
      have hloses := loses_of_child? hs
      rw [set?, set?, (hloses.setChild c').child?_eq, hs, Option.bind_some, Option.bind_some, ih hc]
      exact congrArg (Option.map · _) (funext fun c'' => hloses.setChild_setChild c' c'')

/-- Putting the node that is at a location there changes nothing. -/
theorem set?_self (h : t.get? l = some u) : t.set? l u = some t := by
  induction l generalizing t with
  | nil => exact h.symm
  | cons s l ih =>
      obtain ⟨c, hs, hc⟩ := Option.bind_eq_some_iff.mp h
      exact set?_cons_eq_some_iff.mpr ⟨c, c, hs, ih hc, (loses_of_child? hs).setChild_self⟩

/-- A change is not seen from locations that part from it. -/
theorem get?_of_parted (h : t.set? l v = some t') (hm : l.Parted m) : t'.get? m = t.get? m := by
  induction l generalizing t t' m with
  | nil => exact absurd trivial hm.1
  | cons s l ih =>
      obtain ⟨c, c', hs, hc, rfl⟩ := set?_cons_eq_some_iff.mp h
      cases m with
      | nil => exact absurd trivial hm.2
      | cons r m =>
          have hloses := loses_of_child? hs
          rw [get?, get?]
          by_cases hsr : s.Same r
          · -- both go into the same child and part further down
            rw [← child?_congr hsr, ← child?_congr hsr, (hloses.setChild c').child?_eq, hs]
            exact ih hc (hm.of_cons hsr)
          · rw [hloses.child?_setChild_of_not_same hsr]

/-- A change below a node is a change of that node. -/
theorem set?_append (t : Tree) (m l : Location) (v : Tree) :
    t.set? (m ++ l) v = (t.get? m).bind fun w => (w.set? l v).bind fun w' => t.set? m w' := by
  induction m generalizing t with
  | nil => simp [get?, set?]
  | cons s m ih =>
      rw [List.cons_append, set?, get?]
      cases hs : t.child? s with
      | none => rfl
      | some c =>
          simp only [Option.bind_some, ih c, Option.map_bind, Function.comp_def, set?, hs]

/-- A change below a node keeps its tags and its keys or its length. -/
theorem sameFrame_of_set? (h : t.set? l v = some t') (hl : l ≠ []) : t.SameFrame t' := by
  cases l with
  | nil => exact absurd rfl hl
  | cons s l =>
      obtain ⟨c, c', hs, -, rfl⟩ := set?_cons_eq_some_iff.mp h
      exact (loses_of_child? hs).sameFrame_setChild c'

/--
One tree has `u` at a location where the other one has `v`, and nothing else is different: above the
location stand the same tags over the same keys or as many items, with the change inside.
-/
structure Exchanged (t t' : Tree) (l : Location) (u v : Tree) : Prop where
  before : t.get? l = some u
  after : t'.get? l = some v
  parted : ∀ m, l.Parted m → t'.get? m = t.get? m
  above : ∀ m n, l = m ++ n → n ≠ [] → ∃ w w', t.get? m = some w ∧ t'.get? m = some w' ∧
    w.SameFrame w' ∧ w.set? n v = some w'

/-- **A change puts one node in the place of another**, which puts the first one back. -/
theorem exchanged_of_set? (h : t.set? l v = some t') :
    ∃ u, t.Exchanged t' l u v ∧ t'.set? l u = some t := by
  have hfound : (t.get? l).isSome = true := by rw [← isSome_set? t l v, h, Option.isSome_some]
  obtain ⟨u, hu⟩ := Option.isSome_iff_exists.mp hfound
  refine ⟨u, ⟨hu, get?_of_set? h, fun m hm => get?_of_parted h hm, ?_⟩, ?_⟩
  · rintro m n rfl hn
    rw [set?_append] at h
    obtain ⟨w, hw, h⟩ := Option.bind_eq_some_iff.mp h
    obtain ⟨w', hw', h⟩ := Option.bind_eq_some_iff.mp h
    exact ⟨w, w', hw, get?_of_set? h, sameFrame_of_set? hw' hn, hw'⟩
  · rw [set?_of_set? h, set?_self hu]

/-! ## A removal -/

/-- A removal is a change of the parent. -/
theorem remove?_concat (t : Tree) (l : Location) (s : Step) :
    t.remove? (l ++ [s]) = (t.get? l).bind fun a => (a.child? s).bind fun u =>
      (t.set? l (a.eraseChild s)).map fun t' => (u, t') := by
  induction l generalizing t with
  | nil =>
      rw [List.nil_append, remove?, get?, Option.bind_some]
      cases t.child? s <;> rfl
  | cons r l ih =>
      obtain ⟨x, xs, hx⟩ : ∃ x xs, l ++ [s] = x :: xs :=
        List.exists_cons_of_ne_nil (List.append_ne_nil_of_right_ne_nil l (List.cons_ne_nil s []))
      rw [List.cons_append, hx, remove?, ← hx, get?]
      cases hr : t.child? r with
      | none => rfl
      | some c =>
          simp only [Option.bind_some, ih c, Option.map_bind, Function.comp_def, set?, hr,
            Option.map_map]
      · exact fun h => absurd h (List.cons_ne_nil x xs)

/-- A removal finds what a look-up finds. -/
theorem map_fst_remove? (t : Tree) (l : Location) : (t.remove? l).map Prod.fst = t.get? l := by
  rcases List.eq_nil_or_concat l with rfl | ⟨l, s, rfl⟩
  · rfl
  · rw [List.concat_eq_append, remove?_concat, get?_append]
    cases ha : t.get? l with
    | none => rfl
    | some a =>
        have hset := isSome_set? t l (a.eraseChild s)
        rw [ha, Option.isSome_some] at hset
        obtain ⟨t', ht'⟩ := Option.isSome_iff_exists.mp hset
        simp only [Option.bind_some, get?, ht']
        cases a.child? s <;> rfl

theorem DistinctKeys.of_get? (hd : t.DistinctKeys) (h : t.get? l = some u) : u.DistinctKeys := by
  induction l generalizing t with
  | nil =>
      obtain rfl := Option.some.inj h
      exact hd
  | cons s l ih =>
      obtain ⟨c, hs, hc⟩ := Option.bind_eq_some_iff.mp h
      obtain ⟨r, hr⟩ := (loses_of_child? hs).mem_children
      exact ih (hd.child hr) hc

/--
One tree is the other one without the child `u` at a step below a node: the node keeps its tags and
its other children in their order, and nothing else changes. Where a child is now one was before,
so a key that went away is not found again.
-/
structure Without (t t' : Tree) (l : Location) (s : Step) (u : Tree) : Prop where
  parent : ∃ a a', t.Exchanged t' l a a' ∧ a.Loses s u a'
  origin : t.DistinctKeys → ∀ r m,
    t'.get? (l ++ r :: m) = (s.origin? r).bind fun r' => t.get? (l ++ r' :: m)

/-- **A removal takes out the child that it finds**, and nothing else. -/
theorem without_of_remove? (h : t.remove? (l ++ [s]) = some (u, t')) : t.Without t' l s u := by
  rw [remove?_concat] at h
  obtain ⟨a, ha, h⟩ := Option.bind_eq_some_iff.mp h
  obtain ⟨u', hu, h⟩ := Option.bind_eq_some_iff.mp h
  obtain ⟨t'', hset, heq⟩ := Option.map_eq_some_iff.mp h
  obtain ⟨rfl, rfl⟩ := Prod.mk.inj heq
  obtain ⟨b, hexchanged, -⟩ := exchanged_of_set? hset
  obtain rfl : b = a := Option.some.inj (hexchanged.before.symm.trans ha)
  have hloses := loses_of_child? hu
  refine ⟨⟨b, _, hexchanged, hloses⟩, fun hd r m => ?_⟩
  rw [get?_append, hexchanged.after, Option.bind_some, get?,
    hloses.child?_rest (hd.of_get? ha).entries]
  cases s.origin? r with
  | none => rfl
  | some r' => rw [Option.bind_some, Option.bind_some, get?_append, ha, Option.bind_some, get?]

/-! ## Tags -/

theorem setChild_tagged (tag : Tag) (t : Tree) (s : Step) (v : Tree) :
    (tagged tag t).setChild s v = tagged tag (t.setChild s v) := by
  simp only [setChild, untag]
  split <;> rfl

theorem eraseChild_tagged (tag : Tag) (t : Tree) (s : Step) :
    (tagged tag t).eraseChild s = tagged tag (t.eraseChild s) := by
  simp only [eraseChild, untag]
  split <;> rfl

theorem get?_tagged (tag : Tag) (t : Tree) (hl : l ≠ []) : (tagged tag t).get? l = t.get? l := by
  obtain ⟨s, l, rfl⟩ := List.exists_cons_of_ne_nil hl
  rfl

theorem set?_tagged (tag : Tag) (t : Tree) (hl : l ≠ []) (v : Tree) :
    (tagged tag t).set? l v = (t.set? l v).map (tagged tag) := by
  obtain ⟨s, l, rfl⟩ := List.exists_cons_of_ne_nil hl
  have hchild : (tagged tag t).child? s = t.child? s := rfl
  have hput : (tagged tag t).setChild s = fun c => tagged tag (t.setChild s c) :=
    funext (setChild_tagged tag t s)
  simp only [set?, hchild, hput, Option.map_bind, Function.comp_def, Option.map_map]

theorem remove?_tagged (tag : Tag) (t : Tree) (hl : l ≠ []) :
    (tagged tag t).remove? l = (t.remove? l).map (Prod.map id (tagged tag)) := by
  obtain ⟨s, l, rfl⟩ := List.exists_cons_of_ne_nil hl
  have hchild : (tagged tag t).child? s = t.child? s := rfl
  cases l with
  | nil => simp [remove?, hchild, eraseChild_tagged, Function.comp_def]
  | cons r l =>
      simp [remove?, hchild, Option.map_bind, setChild_tagged, Function.comp_def]

/--
**Locations are lenses.** A node can be changed where one is found, and only there; the change puts
the new node in the place of the old one and nothing else changes, and changing it back restores the
tree. A removal finds what a look-up finds: it takes that child out of its parent, or it finds
nothing and is passed over. Tags are looked through and stay.
-/
theorem locations_are_lenses (t : Tree) (l : Location) :
    (∀ v, (t.set? l v).isSome = (t.get? l).isSome) ∧
      (∀ v t', t.set? l v = some t' → ∃ u, t.Exchanged t' l u v ∧ t'.set? l u = some t) ∧
      (∀ m s, l = m ++ [s] → (t.remove? l).map Prod.fst = t.get? l ∧
        (∀ u t', t.remove? l = some (u, t') → t.Without t' m s u) ∧
        (t.get? l = none → Verb.removeAll [l] t = (t, 0))) ∧
      (l ≠ [] → ∀ tag, (tagged tag t).get? l = t.get? l ∧
        (∀ v, (tagged tag t).set? l v = (t.set? l v).map (tagged tag)) ∧
        (tagged tag t).remove? l = (t.remove? l).map (Prod.map id (tagged tag))) := by
  refine ⟨isSome_set? t l, fun v t' h => exchanged_of_set? h, ?_, fun hl tag => ?_⟩
  · rintro m s rfl
    refine ⟨map_fst_remove? t _, fun u t' h => without_of_remove? h, fun hnone => ?_⟩
    rw [← map_fst_remove?, Option.map_eq_none_iff] at hnone
    simp [Verb.removeAll, hnone]
  · exact ⟨get?_tagged tag t hl, set?_tagged tag t hl, remove?_tagged tag t hl⟩

/--
An item of a tagged sequence under a key that is written in another order is changed, changed back
and removed; the item behind it moves up.
-/
theorem locations_are_lenses_tagged :
    let k : Tree := .mapping [(.string "p", .null), (.string "q", .null)]
    let k' : Tree := .mapping [(.string "q", .null), (.string "p", .null)]
    let doc (items : List Tree) : Tree :=
      .mapping [(.string "z", .null), (k, .tagged ⟨"t"⟩ (.sequence items))]
    let t := doc [.null, .bool true, .string "s"]
    t.DistinctKeys ∧
      t.set? [.key k', .index 1] (.bool false) = some (doc [.null, .bool false, .string "s"]) ∧
      (doc [.null, .bool false, .string "s"]).set? [.key k', .index 1] (.bool true) = some t ∧
      t.remove? [.key k', .index 1] = some (.bool true, doc [.null, .string "s"]) ∧
      (doc [.null, .string "s"]).get? [.key k', .index 1] = t.get? [.key k', .index 2] := by
  intro k k' doc t
  obtain ⟨-, hset, hremove, -⟩ := locations_are_lenses t [.key k', .index 1]
  have hd : t.DistinctKeys := by decide +kernel
  have hget : t.get? [.key k', .index 1] = some (.bool true) := by decide +kernel
  have hchanged : t.set? [.key k', .index 1] (.bool false) =
      some (doc [.null, .bool false, .string "s"]) := by decide +kernel
  have hremoved : t.remove? [.key k', .index 1] = some (.bool true, doc [.null, .string "s"]) := by
    decide +kernel
  obtain ⟨u, hexchanged, hback⟩ := hset _ _ hchanged
  obtain rfl : u = .bool true := Option.some.inj (hexchanged.before.symm.trans hget)
  obtain ⟨-, hwithout, -⟩ := hremove [.key k'] (.index 1) rfl
  exact ⟨hd, hchanged, hback, hremoved, (hwithout _ _ hremoved).origin hd (.index 1) []⟩

end Tree

end TreeEdit
