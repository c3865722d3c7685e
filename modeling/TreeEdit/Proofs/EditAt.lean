import TreeEdit.Proofs.InsertAtMatches

/-!
# Editing a document at given locations

`Tree.editAt` goes through a document once. At a location for which something is given it puts that
in the place of the node, any number of trees; everywhere else it goes on inside. It knows nothing
of patterns. `Tree.without` and `Tree.withAt` are its two uses: nothing, or one content, in the
place of the nodes at some locations.

A rewrite along a pattern that puts the same trees in the place of every match, and leaves overrun
sequences alone, is such an edit at the locations of the matches (`Pattern.rewrite_fixed`), and so
is serving the matches one by one, the last one first (`Pattern.serve_fixed`). Where one tree is put
in the place of one, locations keep leading where they led (`Tree.Reaches.editAt`).
-/

namespace TreeEdit

namespace Tree

mutual

/-- The document with `f l` in the place of the node at every location `l` below the root. -/
def editAt (f : Location → Option (List Tree)) : Tree → Tree
  | .tagged tag t => .tagged tag (editAt f t)
  | .mapping es => .mapping (editEntries f es)
  | .sequence items => .sequence (editItems f 0 items)
  | .null => .null
  | .bool b => .bool b
  | .number n => .number n
  | .string s => .string s

def editEntries (f : Location → Option (List Tree)) : List (Tree × Tree) → List (Tree × Tree)
  | [] => []
  | (k, v) :: es =>
    let here := match f [.key k] with
      | some vs => vs
      | none => [editAt (fun l => f (.key k :: l)) v]
    here.map (k, ·) ++ editEntries f es

def editItems (f : Location → Option (List Tree)) (i : Nat) : List Tree → List Tree
  | [] => []
  | t :: items =>
    let here := match f [.index i] with
      | some ts => ts
      | none => [editAt (fun l => f (.index i :: l)) t]
    here ++ editItems f (i + 1) items

end

/-- The document without the nodes at some locations; what stays keeps its key and its order. -/
def without (t : Tree) (ls : List Location) : Tree :=
  t.editAt fun l => if l ∈ ls then some [] else none

/-- The document with one content at some locations. -/
def withAt (t : Tree) (ls : List Location) (content : Tree) : Tree :=
  t.editAt fun l => if l ∈ ls then some [content] else none

/-- What stands in the place of a child. -/
def editChild (f : Location → Option (List Tree)) (e : Step × Tree) : List Tree :=
  match f [e.1] with
  | some us => us
  | none => [e.2.editAt fun l => f (e.1 :: l)]

variable {f : Location → Option (List Tree)}

theorem editEntries_eq (f : Location → Option (List Tree)) (es : Entries) :
    editEntries f es = es.flatMap fun e => (editChild f (.key e.1, e.2)).map (e.1, ·) := by
  induction es with
  | nil => rw [editEntries]; rfl
  | cons e es ih =>
      rw [editEntries, ih, List.flatMap_cons]
      rfl

theorem editItems_eq (f : Location → Option (List Tree)) (i : Nat) (items : List Tree) :
    editItems f i items = (itemSteps i items).flatMap (editChild f) := by
  induction items generalizing i with
  | nil => rw [editItems]; rfl
  | cons t items ih =>
      rw [editItems, ih, itemSteps, List.flatMap_cons]
      rfl

theorem editAt_of_mapping {es : Entries} : ∀ {t : Tree}, t.untag = .mapping es →
    t.editAt f = t.retag (.mapping (editEntries f es))
  | .tagged tag t, h => by
      rw [editAt, editAt_of_mapping (t := t) h]
      rfl
  | .mapping _, h => by
      obtain rfl := Tree.mapping.inj h
      rw [editAt]
      rfl
  | .null, h | .bool _, h | .number _, h | .string _, h | .sequence _, h => by cases h

theorem editAt_of_sequence {items : List Tree} : ∀ {t : Tree}, t.untag = .sequence items →
    t.editAt f = t.retag (.sequence (editItems f 0 items))
  | .tagged tag t, h => by
      rw [editAt, editAt_of_sequence (t := t) h]
      rfl
  | .sequence _, h => by
      obtain rfl := Tree.sequence.inj h
      rw [editAt]
      rfl
  | .null, h | .bool _, h | .number _, h | .string _, h | .mapping _, h => by cases h

theorem editAt_of_isScalar : ∀ {t : Tree}, t.isScalar = true → t.editAt f = t
  | .tagged tag t, h => by rw [editAt, editAt_of_isScalar (t := t) h]
  | .null, _ | .bool _, _ | .number _, _ | .string _, _ => by rw [editAt]
  | .sequence _, h | .mapping _, h => by simp [isScalar, untag] at h

theorem collect_eq_flatMap {α β : Type} (g : α → List β) (as : List α) :
    collect (fun a => some (g a)) as = some (as.flatMap g) := by
  induction as with
  | nil => rfl
  | cons a as ih => rw [collect, ih]; rfl

/-- An edit of a node is an edit of its children. -/
theorem rebuild_editChild (f : Location → Option (List Tree)) (t : Tree) :
    t.rebuild (fun e => some (editChild f e)) = some (t.editAt f) := by
  rcases t.untag_cases with ⟨es, hc⟩ | ⟨items, hc⟩ | hc
  · rw [rebuild_of_mapping hc, editAt_of_mapping hc, editEntries_eq]
    have hentry : entryAfter (fun e => some (editChild f e)) =
        fun e => some ((editChild f (.key e.1, e.2)).map (e.1, ·)) := rfl
    rw [hentry, collect_eq_flatMap]
    rfl
  · rw [rebuild_of_sequence hc, editAt_of_sequence hc, editItems_eq, collect_eq_flatMap]
    rfl
  · rw [rebuild_of_isScalar hc, editAt_of_isScalar hc]

/-- Where nothing is given nothing changes. -/
theorem editAt_none (t : Tree) : t.editAt (fun _ => none) = t := by
  induction t using childInduction with
  | step t ih =>
    refine Option.some.inj ?_
    rw [← rebuild_editChild, ← rebuild_self t]
    refine rebuild_congr fun e he => ?_
    rw [editChild, ih e.1 e.2 he]

theorem withAt_nil (t content : Tree) : t.withAt [] content = t := by
  simpa [withAt] using t.editAt_none

/-! ## One tree in the place of one -/

/-- What is given is one tree each time. -/
def OneForOne (f : Location → Option (List Tree)) : Prop := ∀ l us, f l = some us → ∃ u, us = [u]

/-- The child after an edit that gives one tree each time. -/
def editedChild (f : Location → Option (List Tree)) (e : Step × Tree) : Tree :=
  match f [e.1] with
  | some us => us.headD e.2
  | none => e.2.editAt fun l => f (e.1 :: l)

theorem OneForOne.below (h : OneForOne f) (s : Step) : OneForOne fun l => f (s :: l) :=
  fun l => h (s :: l)

theorem OneForOne.editChild_eq (h : OneForOne f) (e : Step × Tree) :
    editChild f e = [editedChild f e] := by
  unfold editChild editedChild
  cases hf : f [e.1] with
  | none => rfl
  | some us =>
      obtain ⟨u, rfl⟩ := h _ _ hf
      rfl

theorem OneForOne.editEntries_eq (h : OneForOne f) (es : Entries) :
    editEntries f es = es.map fun e => (e.1, editedChild f (.key e.1, e.2)) := by
  rw [Tree.editEntries_eq, List.map_eq_flatMap]
  refine List.flatMap_congr fun e _ => ?_
  rw [h.editChild_eq]
  rfl

theorem OneForOne.editItems_eq (h : OneForOne f) (i : Nat) (items : List Tree) :
    editItems f i items = (itemSteps i items).map (editedChild f) := by
  rw [Tree.editItems_eq, List.map_eq_flatMap]
  exact List.flatMap_congr fun e _ => h.editChild_eq e

theorem getElem?_itemSteps (i n : Nat) (items : List Tree) :
    (itemSteps i items)[n]? = items[n]?.map fun t => (.index (i + n), t) := by
  induction items generalizing i n with
  | nil => rfl
  | cons t items ih =>
      cases n with
      | zero => rfl
      | succ n => simpa [itemSteps, Nat.add_right_comm, Nat.add_assoc] using ih (i + 1) n

theorem length_itemSteps (i : Nat) (items : List Tree) :
    (itemSteps i items).length = items.length := by
  induction items generalizing i with
  | nil => rfl
  | cons t items ih => simp [itemSteps, ih]

/-- A step leads to what the edit made of its child. -/
theorem Leads.editAt (h : OneForOne f) {t u : Tree} {s : Step} (hs : t.Leads s u) :
    (t.editAt f).Leads s (editedChild f (s, u)) := by
  cases hs with
  | @entry k _ es hc hk =>
      rw [editAt_of_mapping hc, h.editEntries_eq]
      refine .entry (untag_retag ..) ?_
      rw [Entries.lookup?, List.find?_map]
      exact congrArg (Option.map fun e => (e.1, editedChild f (.key e.1, e.2))) hk
  | @item _ items n hc hn =>
      rw [editAt_of_sequence hc]
      refine .item (untag_retag ..) ?_
      rw [h.editItems_eq, List.getElem?_map, getElem?_itemSteps, hn, Nat.zero_add]
      rfl

/-- **A location that no edit is above leads to what the edit made of its node.** -/
theorem Reaches.editAt (h : OneForOne f) {t u : Tree} {l : Location} (hl : Reaches t l u)
    (hf : ∀ m, m ≠ [] → m <+: l → f m = none) :
    Reaches (t.editAt f) l (u.editAt fun m => f (l ++ m)) := by
  induction hl generalizing f with
  | here => exact .here
  | @down t c u s l hs hl ih =>
      have hnone : f [s] = none :=
        hf [s] (List.cons_ne_nil s []) (List.cons_prefix_cons.mpr ⟨rfl, List.nil_prefix⟩)
      have hchild : editedChild f (s, c) = c.editAt fun m => f (s :: m) := by
        rw [editedChild, hnone]
      have hlead := hs.editAt h
      rw [hchild] at hlead
      refine .down hlead (ih (h.below s) fun m _ hm => ?_)
      exact hf (s :: m) (List.cons_ne_nil s m) (List.cons_prefix_cons.mpr ⟨rfl, hm⟩)

/-- Where the edit puts a tree, that tree is found. -/
theorem Reaches.editAt_self (h : OneForOne f) {t u v : Tree} {l : Location} {s : Step}
    (hl : Reaches t (l ++ [s]) u) (hf : ∀ m, m ≠ [] → m <+: l → f m = none)
    (hv : f (l ++ [s]) = some [v]) : Reaches (t.editAt f) (l ++ [s]) v := by
  obtain ⟨parent, hparent, hchild⟩ := hl.of_append
  cases hchild with
  | @down _ c _ _ _ hs hc =>
      have hput : editedChild (fun m => f (l ++ m)) (s, c) = v := by
        rw [editedChild, hv]
        rfl
      have hlead := hs.editAt (f := fun m => f (l ++ m)) fun m => h (l ++ m)
      rw [hput] at hlead
      exact (hparent.editAt h hf).append (.down hlead .here)

/-- A node with a child keeps its tags and its keys or its length. -/
theorem Leads.sameFrame_editAt (h : OneForOne f) {t u : Tree} {s : Step} (hs : t.Leads s u) :
    t.SameFrame (t.editAt f) := by
  cases hs with
  | entry hc _ =>
      refine .mapping hc (editAt_of_mapping hc) ?_
      rw [h.editEntries_eq, List.map_map]
      rfl
  | item hc _ =>
      refine .sequence hc (editAt_of_sequence hc) ?_
      rw [h.editItems_eq, List.length_map, length_itemSteps]

/-! ## One content at locations of which none is above another -/

/-- None of the locations is above another, and none is the root. -/
structure Scattered (ls : List Location) : Prop where
  ne_nil : ∀ l ∈ ls, l ≠ []
  eq_of_prefix : ∀ l ∈ ls, ∀ m ∈ ls, l <+: m → l = m

variable {ls : List Location} {t u content : Tree} {l : Location}

theorem oneForOne_withAt (ls : List Location) (content : Tree) :
    OneForOne fun l => if l ∈ ls then some [content] else none := by
  intro l us h
  by_cases hl : l ∈ ls
  · exact ⟨content, by simpa [hl] using h.symm⟩
  · simp [hl] at h

/-- The content is at each of the locations. -/
theorem Reaches.withAt_self (hs : Scattered ls) (hl : Reaches t l u) (hmem : l ∈ ls) :
    Reaches (t.withAt ls content) l content := by
  obtain ⟨m, s, rfl⟩ : ∃ m s, l = m ++ [s] :=
    ⟨_, _, (List.dropLast_append_getLast (hs.ne_nil l hmem)).symm⟩
  refine hl.editAt_self (oneForOne_withAt ls content) (fun k _ hk => ?_) (if_pos hmem)
  refine if_neg fun hkls => ?_
  have heq := hs.eq_of_prefix k hkls _ hmem (hk.trans (List.prefix_append ..))
  have hlen := hk.length_le
  rw [heq, List.length_append, List.length_singleton] at hlen
  omega

/-- A node apart from the locations stays as it is. -/
theorem Reaches.withAt_apart (hl : Reaches t l u) (h : ∀ m ∈ ls, ¬ l <+: m ∧ ¬ m <+: l) :
    Reaches (t.withAt ls content) l u := by
  have hedit := hl.editAt (oneForOne_withAt ls content) fun m _ hm =>
    if_neg fun hmem => (h m hmem).2 hm
  have hnone : (fun m => if l ++ m ∈ ls then some [content] else none) = fun _ => none :=
    funext fun m => if_neg fun hmem => (h _ hmem).1 (List.prefix_append l m)
  rw [hnone, editAt_none] at hedit
  exact hedit

/-- A node above one of the locations keeps its tags and its keys or its length. -/
theorem Reaches.withAt_above (hs : Scattered ls) (hl : Reaches t l u) {m : Location} {v : Tree}
    (hm : Reaches t m v) (hmem : m ∈ ls) (hlm : l <+: m) (hne : l ≠ m) :
    ∃ u', Reaches (t.withAt ls content) l u' ∧ u.SameFrame u' := by
  obtain ⟨k, rfl⟩ := hlm
  obtain ⟨w, hw, hbelow⟩ := hm.of_append
  obtain rfl := hl.unique hw
  have hone := oneForOne_withAt ls content
  refine ⟨_, hl.editAt hone fun j _ hj => if_neg fun hjls => ?_, ?_⟩
  · have heq := hs.eq_of_prefix j hjls _ hmem (hj.trans (List.prefix_append ..))
    have hlen := hj.length_le
    rw [heq, List.length_append] at hlen
    have hk : k = [] := List.eq_nil_of_length_eq_zero (by omega)
    exact hne (by rw [hk, List.append_nil])
  · cases hbelow with
    | here => exact absurd (List.append_nil l).symm hne
    | down hlead _ => exact hlead.sameFrame_editAt fun j => hone (l ++ j)

end Tree

/-! ## A rewrite that gives the same at every match -/

/-- The edit that puts the same trees in the place of every match, and nothing else. -/
def Edit.fixed (us : List Tree) : Edit where
  matched _ _ := some us
  overrun _ _ items := some items

namespace Pattern

variable {p : Pattern} {us : List Tree}

theorem ne_nil_of_mem_targets {c : Cursor} {t : Tree} {l : Location} (h : l ∈ p.targets c t) :
    l ≠ [] := by
  obtain ⟨v, hv, rfl⟩ := List.mem_map.mp h
  exact Tree.ne_nil_of_mem_descendants (p.mem_visits.mp (List.mem_filter.mp hv).1).1

theorem exists_cons_of_mem_targetsOfChild {c : Cursor} {e : Step × Tree} {l : Location}
    (h : l ∈ p.targetsOfChild c e) : ∃ m, l = e.1 :: m := by
  unfold targetsOfChild at h
  split at h
  · exact absurd h (List.not_mem_nil)
  · split at h
    · exact ⟨[], List.mem_singleton.mp h⟩
    · obtain ⟨m, -, rfl⟩ := List.mem_map.mp h
      exact ⟨m, rfl⟩

/-- Where keys are distinct, the matches behind a step are those of its child. -/
theorem mem_targets_cons {t : Tree} (hd : t.DistinctKeys) (c : Cursor) {e : Step × Tree}
    (he : e ∈ t.children) (m : Location) :
    e.1 :: m ∈ p.targets c t ↔ e.1 :: m ∈ p.targetsOfChild c e := by
  rw [targets_eq, List.mem_flatMap]
  constructor
  · rintro ⟨e', he', h⟩
    obtain ⟨m', hm'⟩ := exists_cons_of_mem_targetsOfChild h
    have heq : e = e' := List.inj_on_of_nodup_map hd.nodup_steps he he' (List.cons.inj hm').1
    rw [heq]
    rwa [← heq] at h ⊢
  · exact fun h => ⟨e, he, h⟩

/-- What stands in the place of a child, once that is known of what is below it. -/
theorem rewriteChild_fixed {t : Tree} (hd : t.DistinctKeys) (c : Cursor) {e : Step × Tree}
    (he : e ∈ t.children)
    (ih : ∀ c', p.rewrite (.fixed us) c' e.2 =
      some (e.2.editAt fun l => if l ∈ p.targets c' e.2 then some us else none)) :
    p.rewriteChild (.fixed us) c e =
      some (Tree.editChild (fun l => if l ∈ p.targets c t then some us else none) e) := by
  have hmem := mem_targets_cons (p := p) hd c he
  simp only [Tree.editChild, hmem]
  unfold rewriteChild targetsOfChild
  cases p.step? c e.1 with
  | none => simp [Tree.editAt_none]
  | some c' =>
      simp only
      split
      · simp [Edit.fixed]
      · have hnil : [] ∉ p.targets c' e.2 := fun h => ne_nil_of_mem_targets h rfl
        simp [ih c', hnil]

/-- **A rewrite that gives the same at every match is an edit at their locations.** -/
theorem rewrite_fixed {t : Tree} (hd : t.DistinctKeys) (c : Cursor) :
    p.rewrite (.fixed us) c t =
      some (t.editAt fun l => if l ∈ p.targets c t then some us else none) := by
  induction t using Tree.childInduction generalizing c with
  | step t ih =>
    cases hover : p.overruns ⟨[], t, c⟩ with
    | true =>
        obtain ⟨items, n, hc, hpast⟩ := p.exists_past_of_overruns hover
        rw [p.rewrite_of_past _ c hpast hc, targets_of_overruns hover]
        simp [Edit.fixed, Tree.editAt_none, ← hc, Tree.retag_untag]
    | false =>
        rw [p.rewrite_eq_rebuild _ c (by simp [hover]), ← Tree.rebuild_editChild]
        exact Tree.rebuild_congr fun e he =>
          rewriteChild_fixed hd c he fun c' => ih e.1 e.2 he (hd.child he) c'

/-- Such a rewrite extends no sequence. -/
theorem rewrite_extending_fixed (c : Cursor) (t : Tree) :
    p.rewrite (Edit.fixed us).extending c t = some t := by
  induction t using Tree.childInduction generalizing c with
  | step t ih =>
    cases hover : p.overruns ⟨[], t, c⟩ with
    | true =>
        obtain ⟨items, n, hc, hpast⟩ := p.exists_past_of_overruns hover
        rw [p.rewrite_of_past _ c hpast hc]
        simp [Edit.fixed, Edit.extending, ← hc, Tree.retag_untag]
    | false =>
        rw [p.rewrite_eq_rebuild _ c (by simp [hover]), ← Tree.rebuild_self t]
        refine Tree.rebuild_congr fun e he => ?_
        rw [rewriteChild_extending, extendChild]
        cases p.step? c e.1 with
        | none => rfl
        | some c' =>
            simp only
            split
            · rfl
            · rw [ih e.1 e.2 he c']
              rfl

/-- **So is serving the matches from the last to the first.** -/
theorem serve_fixed {f : Tree → Location → Option Tree} (hf : (Edit.fixed us).Serves f) {t : Tree}
    (hd : t.DistinctKeys) (c : Cursor) : (p.targets c t).reverse.foldlM f t =
      some (t.editAt fun l => if l ∈ p.targets c t then some us else none) := by
  rw [← rewrite_fixed hd c, ← serve_eq_rewrite hf hd c, rewrite_extending_fixed, Option.bind_some]

end Pattern

end TreeEdit
