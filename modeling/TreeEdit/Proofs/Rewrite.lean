import TreeEdit.Proofs.Reading

/-!
# Rewriting a document in one pass

`Pattern.rewrite` goes through a document once, along the run of a cursor. An `Edit` says what
stands in the place of a child that is matched and what becomes of a sequence that a position
overran; everything else stays where it is, tags, keys and order included. An edit may refuse, and
then there is no result.

The verbs that change a document do not work like that: they note locations on a walk and change
the document at one after the other. That this comes to a rewrite is proved in the modules after
this one, which start from two facts: a rewrite of a node is a rewrite of its children
(`rewrite_eq_rebuild`), and it fails exactly if the edit refuses at some place that the run reaches
(`rewrite_eq_none_iff`).
-/

namespace TreeEdit

/-- What is done at the places where a document is to be changed. -/
structure Edit where
  /-- what stands in the place of a matched child -/
  matched : (s : Step) → (child : Tree) → Option (List Tree)
  /-- the items of a sequence that position `n` overran, with `rest` the segments after it -/
  overrun : (n : Nat) → (rest : List Segment) → (items : List Tree) → Option (List Tree)

/-- What stands in the places of some things, put together. -/
def collect {α β : Type} (f : α → Option (List β)) : List α → Option (List β)
  | [] => some []
  | a :: as => (f a).bind fun bs => (collect f as).map (bs ++ ·)

theorem collect_eq_none_iff {α β : Type} {f : α → Option (List β)} {as : List α} :
    collect f as = none ↔ ∃ a ∈ as, f a = none := by
  induction as with
  | nil => simp [collect]
  | cons a as ih =>
      cases hf : f a with
      | none => simp [collect, hf]
      | some bs => simp [collect, hf, ih]

theorem collect_congr {α β : Type} {f g : α → Option (List β)} {as : List α}
    (h : ∀ a ∈ as, f a = g a) : collect f as = collect g as := by
  induction as with
  | nil => rfl
  | cons a as ih =>
      rw [collect, collect, h a (List.mem_cons_self ..),
        ih fun a' ha' => h a' (List.mem_cons_of_mem _ ha')]

theorem collect_singletons {α β : Type} (g : α → β) (as : List α) :
    collect (fun a => some [g a]) as = some (as.map g) := by
  induction as with
  | nil => rfl
  | cons a as ih => simp [collect, ih]

namespace Tree

/-- What stands in the place of an entry. -/
def entryAfter (after : Step × Tree → Option (List Tree)) (e : Tree × Tree) : Option Entries :=
  (after (.key e.1, e.2)).map fun vs => vs.map (e.1, ·)

/-- The node with others in the places of its children; tags, keys and order stay. -/
def rebuild (after : Step × Tree → Option (List Tree)) (t : Tree) : Option Tree :=
  match t.untag with
  | .mapping es => (collect (entryAfter after) es).map fun es' => t.retag (.mapping es')
  | .sequence items =>
    (collect after (itemSteps 0 items)).map fun items' => t.retag (.sequence items')
  | _ => some t

theorem rebuild_of_mapping {after : Step × Tree → Option (List Tree)} {t : Tree} {es : Entries}
    (h : t.untag = .mapping es) : t.rebuild after =
      (collect (entryAfter after) es).map fun es' => t.retag (.mapping es') := by
  rw [rebuild, h]

theorem rebuild_of_sequence {after : Step × Tree → Option (List Tree)} {t : Tree}
    {items : List Tree} (h : t.untag = .sequence items) : t.rebuild after =
      (collect after (itemSteps 0 items)).map fun items' => t.retag (.sequence items') := by
  rw [rebuild, h]

theorem rebuild_of_isScalar {after : Step × Tree → Option (List Tree)} {t : Tree}
    (h : t.isScalar = true) : t.rebuild after = some t := by
  unfold rebuild
  unfold isScalar at h
  split <;> rename_i hc <;> simp [hc] at h ⊢

/-- A node can be rebuilt exactly if something stands in the place of every child. -/
theorem rebuild_eq_none_iff {after : Step × Tree → Option (List Tree)} {t : Tree} :
    t.rebuild after = none ↔ ∃ e ∈ t.children, after e = none := by
  rcases t.untag_cases with ⟨es, hc⟩ | ⟨items, hc⟩ | hc
  · rw [rebuild_of_mapping hc, children_of_untag hc, Option.map_eq_none_iff, collect_eq_none_iff]
    simp only [entryAfter, Option.map_eq_none_iff, children, entrySteps, List.mem_map]
    constructor
    · rintro ⟨e, he, h⟩
      exact ⟨_, ⟨e, he, rfl⟩, h⟩
    · rintro ⟨_, ⟨e, he, rfl⟩, h⟩
      exact ⟨e, he, h⟩
  · rw [rebuild_of_sequence hc, children_of_untag hc, Option.map_eq_none_iff, collect_eq_none_iff,
      children]
  · simp [rebuild_of_isScalar hc, children_eq_nil_of_isScalar hc]

theorem rebuild_congr {f g : Step × Tree → Option (List Tree)} {t : Tree}
    (h : ∀ e ∈ t.children, f e = g e) : t.rebuild f = t.rebuild g := by
  rcases t.untag_cases with ⟨es, hc⟩ | ⟨items, hc⟩ | hc
  · rw [rebuild_of_mapping hc, rebuild_of_mapping hc]
    refine congrArg _ (collect_congr fun e he => ?_)
    rw [children_of_untag hc] at h
    rw [entryAfter, entryAfter, h _ (mem_entrySteps.mpr ⟨e.1, rfl, he⟩)]
  · rw [rebuild_of_sequence hc, rebuild_of_sequence hc]
    rw [children_of_untag hc] at h
    exact congrArg _ (collect_congr h)
  · rw [rebuild_of_isScalar hc, rebuild_of_isScalar hc]

end Tree

namespace Pattern

/-- The position past the end of a sequence that comes next, if no `**` is pending. -/
def past? (p : Pattern) (c : Cursor) (length : Nat) : Option Nat :=
  match p.segment? c with
  | some (.index n) => if length ≤ n && !c.greedy then some n else none
  | _ => none

variable (p : Pattern) (ed : Edit)

mutual

/-- The node with an edit made at every place below it that asks for one. -/
def rewrite (c : Cursor) : Tree → Option Tree
  | .tagged tag t => (rewrite c t).map (.tagged tag)
  | .mapping es => (rewriteEntries c es).map .mapping
  | .sequence items =>
    match p.past? c items.length with
    | some n => (ed.overrun n (p.segments.drop (c.pos + 1)) items).map .sequence
    | none => (rewriteItems c 0 items).map .sequence
  | .null => some .null
  | .bool b => some (.bool b)
  | .number n => some (.number n)
  | .string s => some (.string s)

def rewriteEntries (c : Cursor) : List (Tree × Tree) → Option (List (Tree × Tree))
  | [] => some []
  | (k, v) :: es =>
    let here := match p.step? c (.key k) with
      | none => some [v]
      | some c' => if p.hits ⟨[], v, c'⟩ then ed.matched (.key k) v else (rewrite c' v).map ([·])
    here.bind fun vs => (rewriteEntries c es).map (vs.map (k, ·) ++ ·)

def rewriteItems (c : Cursor) (i : Nat) : List Tree → Option (List Tree)
  | [] => some []
  | t :: items =>
    let here := match p.step? c (.index i) with
      | none => some [t]
      | some c' => if p.hits ⟨[], t, c'⟩ then ed.matched (.index i) t else (rewrite c' t).map ([·])
    here.bind fun ts => (rewriteItems c (i + 1) items).map (ts ++ ·)

end

/-- What stands in the place of a child. -/
def rewriteChild (c : Cursor) (e : Step × Tree) : Option (List Tree) :=
  match p.step? c e.1 with
  | none => some [e.2]
  | some c' =>
    if p.hits ⟨[], e.2, c'⟩ then ed.matched e.1 e.2 else (p.rewrite ed c' e.2).map ([·])

theorem rewriteEntries_eq (c : Cursor) (es : Entries) :
    p.rewriteEntries ed c es = collect (Tree.entryAfter (p.rewriteChild ed c)) es := by
  induction es with
  | nil => rw [rewriteEntries]; rfl
  | cons e es ih =>
      obtain ⟨k, v⟩ := e
      rw [rewriteEntries, ih, collect, Tree.entryAfter, Option.bind_map]
      rfl

theorem rewriteItems_eq (c : Cursor) (i : Nat) (items : List Tree) :
    p.rewriteItems ed c i items = collect (p.rewriteChild ed c) (Tree.itemSteps i items) := by
  induction items generalizing i with
  | nil => rw [rewriteItems]; rfl
  | cons t items ih =>
      rw [rewriteItems, ih, Tree.itemSteps, collect]
      rfl

theorem past?_eq_some_iff {c : Cursor} {length n : Nat} :
    p.past? c length = some n ↔
      p.segment? c = some (.index n) ∧ length ≤ n ∧ c.greedy = false := by
  unfold past?
  constructor
  · intro h
    split at h
    · rename_i m hseg
      split at h
      · rename_i hle
        obtain rfl := Option.some.inj h
        rw [Bool.and_eq_true, decide_eq_true_eq, Bool.not_eq_true'] at hle
        exact ⟨hseg, hle⟩
      · cases h
    · cases h
  · rintro ⟨hseg, hle, hg⟩
    simp [hseg, hle, hg]

/-- A sequence is overrun by the position that comes next. -/
theorem overruns_eq_isSome_past? {v : Visit} {items : List Tree}
    (h : v.node.untag = .sequence items) :
    p.overruns v = (p.past? v.cursor items.length).isSome := by
  unfold overruns past?
  rw [h]
  cases p.segment? v.cursor with
  | none => rfl
  | some seg =>
      cases seg with
      | index n =>
          simp only
          split <;> rename_i hle
          · rw [hle]; rfl
          · rw [Bool.eq_false_iff.mpr hle]; rfl
      | literal _ _ | wildcard | greedy => rfl

theorem rebuild_tagged (after : Step × Tree → Option (List Tree)) (tag : Tag) (t : Tree) :
    (Tree.tagged tag t).rebuild after = (t.rebuild after).map (.tagged tag) := by
  unfold Tree.rebuild
  rw [Tree.untag]
  split <;> simp [Tree.retag, Function.comp_def]

/-- **A rewrite of a node is a rewrite of its children**, but for a sequence that is overrun. -/
theorem rewrite_eq_rebuild (c : Cursor) : ∀ {t : Tree}, ¬ p.overruns ⟨[], t, c⟩ = true →
    p.rewrite ed c t = t.rebuild (p.rewriteChild ed c)
  | .tagged tag t, h => by
      rw [rewrite, rewrite_eq_rebuild c (t := t) h, rebuild_tagged]
  | .mapping es, _ => by
      rw [rewrite, rewriteEntries_eq]
      rfl
  | .sequence items, h => by
      have hc : (Tree.sequence items).untag = .sequence items := rfl
      rw [p.overruns_eq_isSome_past? hc, Option.not_isSome_iff_eq_none] at h
      rw [rewrite, h, rewriteItems_eq]
      rfl
  | .null, _ | .bool _, _ | .number _, _ | .string _, _ => by
      rw [rewrite]
      rfl

theorem rewrite_of_past (c : Cursor) {items : List Tree} {n : Nat}
    (hpast : p.past? c items.length = some n) : ∀ {t : Tree}, t.untag = .sequence items →
    p.rewrite ed c t = (ed.overrun n (p.segments.drop (c.pos + 1)) items).map fun items' =>
      t.retag (.sequence items')
  | .tagged tag t, h => by
      rw [rewrite, rewrite_of_past c hpast (t := t) h, Option.map_map]
      rfl
  | .sequence items', h => by
      obtain rfl := Tree.sequence.inj h
      rw [rewrite, hpast]
      rfl
  | .null, h | .bool _, h | .number _, h | .string _, h | .mapping _, h => by cases h

/-- An overrun sequence and the position past its end. -/
theorem exists_past_of_overruns {v : Visit} (h : p.overruns v = true) : ∃ items n,
    v.node.untag = .sequence items ∧ p.past? v.cursor items.length = some n := by
  obtain ⟨items, n, hc, hseg, hle, hg⟩ := p.overruns_iff.mp h
  exact ⟨items, n, hc, p.past?_eq_some_iff.mpr ⟨hseg, hle, hg⟩⟩

/-! ## When a rewrite fails -/

/-- The edit refuses a match, or a sequence that is overrun. -/
def Refuses (v : Visit) : Prop :=
  (∃ s, v.location.getLast? = some s ∧ p.hits v = true ∧ ed.matched s v.node = none) ∨
    ∃ items n, v.node.untag = .sequence items ∧ p.past? v.cursor items.length = some n ∧
      ed.overrun n (p.segments.drop (v.cursor.pos + 1)) items = none

/-- Nothing lies below a match. -/
theorem visits_descendants_of_hits {v : Visit} (h : p.hits v = true) :
    p.visits v.cursor v.node.descendants = [] := by
  rw [hits, Bool.or_eq_true] at h
  rw [visits_descendants, List.flatMap_eq_nil_iff]
  intro e he
  rcases h with hx | hself
  · rw [visitsOfChild, p.step?_of_exhausted hx]
  · rw [p.selfMatch_of_not_isScalar (Tree.not_isScalar_of_mem_children he)] at hself
    cases hself

/-- A match is no sequence that is overrun. -/
theorem past?_of_hits {v : Visit} {items : List Tree} (h : p.hits v = true)
    (hc : v.node.untag = .sequence items) : p.past? v.cursor items.length = none := by
  rw [hits, Bool.or_eq_true] at h
  rcases h with hx | hself
  · rw [past?, p.segment?_eq_none_iff.mpr hx]
  · rw [p.selfMatch_of_not_isScalar (by simp [Tree.isScalar, hc])] at hself
    cases hself

theorem refuses_under_iff {v : Visit} (h : v.location ≠ []) (s : Step) :
    p.Refuses ed (v.under s) ↔ p.Refuses ed v := by
  have hlast : (v.under s).location.getLast? = v.location.getLast? :=
    List.getLast?_cons_of_ne_nil h
  unfold Refuses
  rw [hlast]
  rfl

/-- What stands in the place of a child is refused at the child or below it. -/
theorem rewriteChild_eq_none_iff {c : Cursor} {e : Step × Tree}
    (ih : ∀ c', p.rewrite ed c' e.2 = none ↔ ∃ v ∈ p.visits c' e.2.nodes, p.Refuses ed v) :
    p.rewriteChild ed c e = none ↔ ∃ v ∈ p.visitsOfChild c e, p.Refuses ed v := by
  unfold rewriteChild visitsOfChild
  cases p.step? c e.1 with
  | none => simp
  | some c' =>
      simp only [visits_nodes, List.map_cons, List.mem_cons, List.mem_map, exists_eq_or_imp]
      split
      · -- a match is the only place there
        rename_i hhit
        have hnone : p.visits c' e.2.descendants = [] := p.visits_descendants_of_hits hhit
        have hpast : ∀ items, e.2.untag = .sequence items → p.past? c' items.length = none :=
          fun items hc => p.past?_of_hits hhit hc
        simp only [hnone, List.not_mem_nil, false_and, exists_false, or_false]
        constructor
        · intro hmatched
          exact .inl ⟨e.1, rfl, hhit, hmatched⟩
        · rintro (⟨s, hs, -, hmatched⟩ | ⟨items, n, hc, hn, -⟩)
          · obtain rfl := Option.some.inj hs
            exact hmatched
          · have := hpast items hc
            rw [show p.past? c' items.length = some n from hn] at this
            cases this
      · rename_i hhit
        have hself : p.Refuses ed (Visit.under e.1 ⟨[], e.2, c'⟩) ↔ p.Refuses ed ⟨[], e.2, c'⟩ := by
          refine or_congr (iff_of_false ?_ ?_) Iff.rfl
          · rintro ⟨s, -, hhit', -⟩
            exact hhit hhit'
          · rintro ⟨s, hs, -⟩
            cases hs
        rw [Option.map_eq_none_iff, ih c', visits_nodes]
        simp only [List.mem_cons, exists_eq_or_imp, hself]
        have hunder : ∀ v ∈ p.visits c' e.2.descendants,
            (p.Refuses ed (v.under e.1) ↔ p.Refuses ed v) := fun v hv =>
          p.refuses_under_iff ed (Tree.ne_nil_of_mem_descendants (p.mem_visits.mp hv).1) e.1
        refine or_congr Iff.rfl ?_
        constructor
        · rintro ⟨v, hv, hr⟩
          exact ⟨_, ⟨v, hv, rfl⟩, (hunder v hv).mpr hr⟩
        · rintro ⟨_, ⟨v, hv, rfl⟩, hr⟩
          exact ⟨v, hv, (hunder v hv).mp hr⟩

/-- **A rewrite fails exactly if the edit refuses at a place that the run reaches.** -/
theorem rewrite_eq_none_iff (c : Cursor) (t : Tree) :
    p.rewrite ed c t = none ↔ ∃ v ∈ p.visits c t.nodes, p.Refuses ed v := by
  induction t using Tree.childInduction generalizing c with
  | step t ih =>
    have hself : p.Refuses ed ⟨[], t, c⟩ ↔ ∃ items n, t.untag = .sequence items ∧
        p.past? c items.length = some n ∧
          ed.overrun n (p.segments.drop (c.pos + 1)) items = none := by
      simp [Refuses]
    have hchild : ∀ e ∈ t.children, (p.rewriteChild ed c e = none ↔
        ∃ v ∈ p.visitsOfChild c e, p.Refuses ed v) :=
      fun e he => p.rewriteChild_eq_none_iff ed fun c' => ih e.1 e.2 he c'
    have hbelow : (∃ v ∈ p.visits c t.descendants, p.Refuses ed v) ↔
        ∃ e ∈ t.children, p.rewriteChild ed c e = none := by
      rw [visits_descendants]
      simp only [List.mem_flatMap]
      constructor
      · rintro ⟨v, ⟨e, he, hv⟩, hr⟩
        exact ⟨e, he, (hchild e he).mpr ⟨v, hv, hr⟩⟩
      · rintro ⟨e, he, hr⟩
        obtain ⟨v, hv, hr⟩ := (hchild e he).mp hr
        exact ⟨v, ⟨e, he, hv⟩, hr⟩
    rw [visits_nodes]
    simp only [List.mem_cons, exists_eq_or_imp, hself, hbelow]
    cases hover : p.overruns ⟨[], t, c⟩ with
    | false =>
        have hno : ¬ ∃ items n, t.untag = .sequence items ∧ p.past? c items.length = some n ∧
            ed.overrun n (p.segments.drop (c.pos + 1)) items = none := by
          rintro ⟨items, n, hc, hpast, -⟩
          rw [p.overruns_eq_isSome_past? hc, hpast] at hover
          cases hover
        rw [p.rewrite_eq_rebuild ed c (by simp [hover]), Tree.rebuild_eq_none_iff]
        simp only [hno, false_or]
    | true =>
        obtain ⟨items, n, hc, hpast⟩ := p.exists_past_of_overruns hover
        -- no child of an overrun sequence is entered
        have hdead : ∀ e ∈ t.children, p.rewriteChild ed c e ≠ none := by
          intro e he
          simp [rewriteChild, p.step?_of_overruns hover he]
        rw [p.rewrite_of_past ed c hpast hc, Option.map_eq_none_iff]
        constructor
        · intro h
          exact .inl ⟨items, n, hc, hpast, h⟩
        · rintro (⟨items', n', hc', hpast', h⟩ | ⟨e, he, h⟩)
          · rw [hc] at hc'
            obtain rfl := Tree.sequence.inj hc'
            rw [hpast] at hpast'
            obtain rfl := Option.some.inj hpast'
            exact h
          · exact absurd h (hdead e he)

end Pattern

end TreeEdit
