import TreeEdit.Proofs.Cleared
import TreeEdit.Proofs.ReplaceAtMatches

/-!
# What was put in the place of matches is read back

Replacement and reading obey the laws of a lens, as long as every match uses the pattern up. They
would fail at a scalar that matches itself: there a literal is left, and the content that takes the
place of the scalar need not match it.

The walk of the new document takes the steps that the walk of the old one took. What stands apart
from the matches has not changed; a node above a match is the kind of node that it was; and where
the pattern is used up the walk asks nothing of the node. So the new matches are the old ones with
the content for their node (`Pattern.swapped`), and a second replacement goes to the same places
and covers the first (`Tree.withAt_withAt`).
-/

namespace TreeEdit

namespace Tree

variable {f g : Location → Option (List Tree)}

/-! ## An edit that gives one tree for one, seen from the children -/

theorem itemSteps_map_itemSteps (h : Step × Tree → Tree) (i : Nat) (items : List Tree) :
    itemSteps i ((itemSteps i items).map h) = (itemSteps i items).map fun e => (e.1, h e) := by
  induction items generalizing i with
  | nil => rfl
  | cons t items ih =>
      simp only [itemSteps, List.map_cons]
      rw [ih]

theorem OneForOne.children_editAt (h : OneForOne f) (t : Tree) :
    (t.editAt f).children = t.children.map fun e => (e.1, editedChild f e) := by
  rcases t.untag_cases with ⟨es, hc⟩ | ⟨items, hc⟩ | hc
  · rw [editAt_of_mapping hc, h.editEntries_eq, children_retag, children_of_untag hc]
    simp only [children, entrySteps, List.map_map]
    rfl
  · rw [editAt_of_sequence hc, h.editItems_eq, children_retag, children_of_untag hc]
    exact itemSteps_map_itemSteps _ 0 items
  · rw [editAt_of_isScalar hc, children_eq_nil_of_isScalar hc, List.map_nil]

theorem OneForOne.entries_editAt (h : OneForOne f) (t : Tree) :
    (t.editAt f).entries = t.entries.map fun e => (e.1, editedChild f (.key e.1, e.2)) := by
  rcases t.untag_cases with ⟨es, hc⟩ | ⟨items, hc⟩ | hc
  · rw [editAt_of_mapping hc, h.editEntries_eq, entries_of_untag (untag_retag ..),
      entries_of_untag hc]
  · rw [editAt_of_sequence hc]
    simp only [entries, untag_retag, hc, untag, List.map_nil]
  · rw [editAt_of_isScalar hc, entries_of_isScalar hc, List.map_nil]

/-- Keys stay distinct when they are distinct in everything that is put in. -/
theorem OneForOne.distinctKeys_editAt (h : OneForOne f) {t : Tree} (hd : t.DistinctKeys)
    (hf : ∀ l u, f l = some [u] → u.DistinctKeys) : (t.editAt f).DistinctKeys := by
  induction t using childInduction generalizing f with
  | step t ih =>
    refine distinctKeys_of_children ?_ fun e' he' => ?_
    · rw [h.entries_editAt, Entries.Distinct, List.pairwise_map]
      exact hd.entries
    · rw [h.children_editAt] at he'
      obtain ⟨e, he, rfl⟩ := List.mem_map.mp he'
      unfold editedChild
      cases hput : f [e.1] with
      | none => exact ih e.1 e.2 he (h.below e.1) (hd.child he) fun l u hu => hf (e.1 :: l) u hu
      | some us =>
          obtain ⟨u, rfl⟩ := h _ _ hput
          exact hf _ u hput

/-- A second edit covers the first if it does so at every child. -/
theorem OneForOne.editAt_of_children (hf : OneForOne f) (hg : OneForOne g) {t : Tree}
    (h : ∀ e ∈ t.children, editedChild g (e.1, editedChild f e) = editedChild g e) :
    (t.editAt f).editAt g = t.editAt g := by
  rcases t.untag_cases with ⟨es, hc⟩ | ⟨items, hc⟩ | hc
  · rw [children_of_untag hc] at h
    rw [editAt_of_mapping hc, editAt_of_mapping hc, editAt_of_mapping (untag_retag ..),
      retag_retag _ t rfl, hf.editEntries_eq, hg.editEntries_eq, hg.editEntries_eq, List.map_map]
    refine congrArg (fun es' => t.retag (.mapping es')) (List.map_congr_left fun e he => ?_)
    exact congrArg (Prod.mk e.1) (h _ (mem_entrySteps.mpr ⟨e.1, rfl, he⟩))
  · rw [children_of_untag hc] at h
    rw [editAt_of_sequence hc, editAt_of_sequence hc, editAt_of_sequence (untag_retag ..),
      retag_retag _ t rfl, hf.editItems_eq, hg.editItems_eq, hg.editItems_eq,
      itemSteps_map_itemSteps, List.map_map]
    exact congrArg (fun items' => t.retag (.sequence items')) (List.map_congr_left h)
  · rw [editAt_of_isScalar (f := f) hc]

/-- **The last edit of a place is the one that counts.** -/
theorem OneForOne.editAt_editAt (hf : OneForOne f) (hg : OneForOne g)
    (h : ∀ l, f l = none ↔ g l = none) (t : Tree) : (t.editAt f).editAt g = t.editAt g := by
  induction t using childInduction generalizing f g with
  | step t ih =>
    refine hf.editAt_of_children hg fun e he => ?_
    unfold editedChild
    cases hge : g [e.1] with
    | none =>
        -- neither edit is here, so both are further down
        rw [(h [e.1]).mpr hge]
        exact ih e.1 e.2 he (hf.below e.1) (hg.below e.1) fun l => h (e.1 :: l)
    | some us =>
        obtain ⟨u, rfl⟩ := hg _ _ hge
        rfl

theorem DistinctKeys.withAt {t content : Tree} (hd : t.DistinctKeys)
    (hcontent : content.DistinctKeys) (ls : List Location) : (t.withAt ls content).DistinctKeys := by
  refine (oneForOne_withAt ls content).distinctKeys_editAt hd fun l u hu => ?_
  by_cases hl : l ∈ ls
  · rw [if_pos hl] at hu
    rw [← List.singleton_inj.mp (Option.some.inj hu)]
    exact hcontent
  · rw [if_neg hl] at hu
    cases hu

theorem withAt_withAt (t : Tree) (ls : List Location) (content content₂ : Tree) :
    (t.withAt ls content).withAt ls content₂ = t.withAt ls content₂ := by
  refine (oneForOne_withAt ls content).editAt_editAt (oneForOne_withAt ls content₂) (fun l => ?_) t
  by_cases hl : l ∈ ls <;> simp [hl]

/-- A node above the places is the kind of node that it was, with the text that it had. -/
theorem kind_withAt (t : Tree) (ls : List Location) (content : Tree) :
    (t.withAt ls content).isSequence = t.isSequence ∧
      (t.withAt ls content).text? = t.text? :=
  kind_of_rebuild (rebuild_editChild _ t)

end Tree

/-- The same place with another node there. -/
def Visit.withNode (u : Tree) (v : Visit) : Visit := { v with node := u }

namespace Pattern

variable {p : Pattern} {content : Tree}

/-! ## What a replacement makes of the matches -/

/-- Every match below the node uses the pattern up. -/
def UsesUp (p : Pattern) (c : Cursor) (t : Tree) : Prop :=
  ∀ v ∈ p.finds c t, p.isExhausted v.cursor = true

/-- What a walk refuses depends on the step and on whether a sequence is there. -/
theorem refuses_congr (c : Cursor) (s : Step) {t u : Tree} (h : t.isSequence = u.isSequence) :
    p.refuses c (s, t) = p.refuses c (s, u) := by
  unfold refuses
  rw [h]

/-- A step that uses the pattern up is selected, so nothing there is refused. -/
theorem refuses_of_step?_exhausted {c c' : Cursor} {s : Step} (hstep : p.step? c s = some c')
    (hx : p.isExhausted c' = true) (t : Tree) : p.refuses c (s, t) = false := by
  obtain ⟨seg, hseg, ⟨hm, -⟩ | ⟨-, -, rfl⟩⟩ := p.step?_cases hstep
  · cases s with
    | key k => rfl
    | index i =>
        have hm' : seg.matchesIndex i = true := hm
        simp only [refuses, hseg, hm', Bool.not_true, Bool.false_and]
  · -- a cursor that stays where it is has a segment left
    rw [p.not_exhausted_of_segment? hseg] at hx
    cases hx

theorem free_of_exhausted {c : Cursor} (hx : p.isExhausted c = true) (t : Tree) : p.Free c t := by
  intro v hv
  rw [p.visits_of_exhausted hx, List.mem_singleton] at hv
  subst hv
  exact p.stuck_of_exhausted hx

/-- What the replacement makes of a child. -/
theorem editedChild_targets {t : Tree} (hd : t.DistinctKeys) (c : Cursor) {e : Step × Tree}
    (he : e ∈ t.children) :
    Tree.editedChild (fun l => if l ∈ p.targets c t then some [content] else none) e =
      match p.step? c e.1 with
      | none => e.2
      | some c' =>
        if p.hits ⟨[], e.2, c'⟩ then content else e.2.withAt (p.targets c' e.2) content := by
  have hchild : p.rewriteChild (.fixed [content]) c e = _ :=
    rewriteChild_fixed hd c he fun c' => rewrite_fixed (hd.child he) c'
  have hone := Tree.oneForOne_withAt (p.targets c t) content
  rw [hone.editChild_eq] at hchild
  unfold rewriteChild at hchild
  cases hstep : p.step? c e.1 with
  | none =>
      rw [hstep] at hchild
      exact (List.singleton_inj.mp (Option.some.inj hchild)).symm
  | some c' =>
      rw [hstep] at hchild
      dsimp only at hchild ⊢
      by_cases hhit : p.hits ⟨[], e.2, c'⟩ = true
      · rw [if_pos hhit] at hchild ⊢
        exact (List.singleton_inj.mp (Option.some.inj hchild)).symm
      · rw [if_neg hhit, rewrite_fixed (hd.child he) c'] at hchild
        rw [if_neg hhit]
        exact (List.singleton_inj.mp (Option.some.inj hchild)).symm

/-- The walk of the new node is free, and finds what the old one found, the content in its place. -/
structure Swapped (p : Pattern) (content : Tree) (c : Cursor) (t t' : Tree) : Prop where
  free : p.Free c t'
  finds : p.finds c t' = (p.finds c t).map (Visit.withNode content)

/-- The same of a walk that comes to the new node by the step to the old one. -/
structure SwappedChild (p : Pattern) (content : Tree) (c : Cursor) (e : Step × Tree) (u : Tree) :
    Prop where
  refuses : p.refuses c (e.1, u) = false
  free : ∀ c', p.step? c e.1 = some c' → p.Free c' u
  finds : p.findsOfChild c (e.1, u) = (p.findsOfChild c e).map (Visit.withNode content)

/-- A child that no run comes to stays. -/
theorem SwappedChild.of_dead {c : Cursor} {e : Step × Tree} (hrefuses : p.refuses c e = false)
    (hstep : p.step? c e.1 = none) : p.SwappedChild content c e e.2 where
  refuses := hrefuses
  free c' hc' := by
    rw [hstep] at hc'
    cases hc'
  finds := by
    simp only [findsOfChild, hstep, List.map_nil]

/-- Where the pattern is used up the content is found, whatever it is. -/
theorem SwappedChild.of_exhausted {c c' : Cursor} {e : Step × Tree}
    (hstep : p.step? c e.1 = some c') (hx : p.isExhausted c' = true) :
    p.SwappedChild content c e content where
  refuses := refuses_of_step?_exhausted hstep hx content
  free c'' hc'' := by
    rw [hstep] at hc''
    rw [← Option.some.inj hc'']
    exact free_of_exhausted hx content
  finds := by
    have hhit : ∀ u, p.hits ⟨[], u, c'⟩ = true := by
      intro u
      simp only [hits, hx, Bool.true_or]
    simp only [findsOfChild, hstep, hhit, if_true, List.map_cons, List.map_nil, Visit.withNode]

/-- A child that is passed on the way is the kind of node that it was. -/
theorem SwappedChild.of_passed {c c' : Cursor} {e : Step × Tree} {u : Tree}
    (hrefuses : p.refuses c e = false) (hstep : p.step? c e.1 = some c')
    (hhit : p.hits ⟨[], e.2, c'⟩ = false)
    (hkind : u.isSequence = e.2.isSequence ∧ u.text? = e.2.text?)
    (h : p.Swapped content c' e.2 u) : p.SwappedChild content c e u where
  refuses := by
    rw [refuses_congr c e.1 hkind.1]
    exact hrefuses
  free c'' hc'' := by
    rw [hstep] at hc''
    rw [← Option.some.inj hc'']
    exact h.free
  finds := by
    -- with the text that it had it does not come to match itself
    have hhit' : p.hits ⟨[], u, c'⟩ = false := by
      unfold hits at hhit ⊢
      dsimp only at hhit ⊢
      rw [selfMatch_congr hkind.2]
      exact hhit
    simp only [findsOfChild, hstep, hhit, hhit', Bool.false_eq_true, if_false, h.finds,
      List.map_map]
    rfl

theorem Swapped.of_children {c : Cursor} {t t' : Tree} {after : Step × Tree → Tree}
    (hchildren : t'.children = t.children.map fun e => (e.1, after e))
    (h : ∀ e ∈ t.children, p.SwappedChild content c e (after e)) :
    p.Swapped content c t t' where
  free := by
    rw [p.free_iff, hchildren]
    constructor
    · intro e' he'
      obtain ⟨e, he, rfl⟩ := List.mem_map.mp he'
      exact (h e he).refuses
    · intro e' he'
      obtain ⟨e, he, rfl⟩ := List.mem_map.mp he'
      exact (h e he).free
  finds := by
    rw [p.finds_eq, p.finds_eq, hchildren, List.flatMap_map, List.map_flatMap]
    exact List.flatMap_congr fun e he => (h e he).finds

theorem UsesUp.child {c c' : Cursor} {t : Tree} {e : Step × Tree} (h : p.UsesUp c t)
    (he : e ∈ t.children) (hstep : p.step? c e.1 = some c') :
    if p.hits ⟨[], e.2, c'⟩ then p.isExhausted c' = true else p.UsesUp c' e.2 := by
  have hchild : ∀ v ∈ p.findsOfChild c e, p.isExhausted v.cursor = true := by
    intro v hv
    refine h v ?_
    rw [p.finds_eq]
    exact List.mem_flatMap.mpr ⟨e, he, hv⟩
  unfold findsOfChild at hchild
  rw [hstep] at hchild
  dsimp only at hchild
  split at hchild
  · rename_i hhit
    rw [if_pos hhit]
    exact hchild _ (List.mem_singleton.mpr rfl)
  · rename_i hhit
    rw [if_neg hhit]
    intro v hv
    exact hchild (v.under e.1) (List.mem_map_of_mem hv)

/-- **Putting the content at the matches leaves the matches where they are.** -/
theorem swapped (content : Tree) {c : Cursor} {t : Tree} (hd : t.DistinctKeys) (hfree : p.Free c t)
    (hused : p.UsesUp c t) : p.Swapped content c t (t.withAt (p.targets c t) content) := by
  induction t using Tree.childInduction generalizing c with
  | step t ih =>
    obtain ⟨hrefuses, hbelow⟩ := p.free_iff.mp hfree
    have hone := Tree.oneForOne_withAt (p.targets c t) content
    refine .of_children (hone.children_editAt t) fun e he => ?_
    rw [editedChild_targets hd c he]
    cases hstep : p.step? c e.1 with
    | none => exact .of_dead (hrefuses e he) hstep
    | some c' =>
        have husedChild := hused.child he hstep
        dsimp only
        by_cases hhit : p.hits ⟨[], e.2, c'⟩ = true
        · rw [if_pos hhit] at husedChild ⊢
          exact .of_exhausted hstep husedChild
        · rw [if_neg hhit] at husedChild ⊢
          exact .of_passed (hrefuses e he) hstep (eq_false_of_ne_true hhit)
            (Tree.kind_withAt e.2 _ content)
            (ih e.1 e.2 he (hd.child he) (hbelow e he c' hstep) husedChild)

namespace Swapped

variable {c : Cursor} {t t' : Tree}

theorem targets_eq (h : p.Swapped content c t t') : p.targets c t' = p.targets c t := by
  have hfinds : ∀ t, p.targets c t = (p.finds c t).map Visit.location := fun _ => rfl
  rw [hfinds, hfinds, h.finds, List.map_map]
  rfl

theorem yield_eq (h : p.Swapped content c t t') :
    p.yield c t'.descendants = List.replicate (p.targets c t).length content := by
  have hfinds : p.yield c t'.descendants = (p.finds c t').map Visit.node := rfl
  rw [hfinds, h.finds, List.map_map, targets, List.length_map]
  exact List.map_const' ..

end Swapped

end Pattern

namespace Verb

variable {p : Pattern}

theorem usesUp_start (hp : p.isRoot = false) {d : Tree} (hd : d.DistinctKeys)
    (hwalk : (fullWalk p d).accepted.isSome = true)
    (hused : ∀ l t, d.Reaches l t → p.Matches l t →
      ∃ c, p.run? p.start l = some c ∧ p.isExhausted c = true) : p.UsesUp p.start d := by
  intro v hv
  have hfound : (v.location, v.node) ∈ (fullWalk p d).foundNodes := by
    rw [foundNodes_fullWalk hp hwalk]
    exact List.mem_map.mpr ⟨v, hv, rfl⟩
  obtain ⟨hreaches, hmatches⟩ := (mem_foundNodes_fullWalk hp hd hwalk).mp hfound
  obtain ⟨c, hc, hx⟩ := hused _ _ hreaches hmatches
  have hcursor := (p.mem_visits.mp (List.mem_filter.mp hv).1).2
  rw [hc] at hcursor
  rw [← Option.some.inj hcursor]
  exact hx

/-- Where the walk gets stuck nowhere, listing gives the labels of the matches. -/
theorem list_of_free (hp : p.isRoot = false) (listDelimiter : String) {d : Tree}
    (hfree : p.Free p.start d) : list.apply p listDelimiter d = .ok (.sequence
      ((p.targets p.start d).map fun l => .string (Location.label listDelimiter l.dropLast))) := by
  have hwalk := (isSome_accepted_iff_free hp d).mpr hfree
  have hlocations : (fullWalk p d).foundNodes.map Prod.fst = p.targets p.start d :=
    Plan.targets_ofWalk hp hwalk
  rw [← hlocations, List.map_map]
  simp only [apply, checkWalk, hwalk, if_true, Verb.targets, hp, Bool.false_eq_true, if_false, bind,
    Except.bind, pure, Except.pure, listLabel]
  rfl

theorem replace_of_free {content d : Tree} (hp : p.isRoot = false) (hd : d.DistinctKeys)
    (listDelimiter : String) (hfree : p.Free p.start d) :
    (replace content).apply p listDelimiter d =
      .ok (d.withAt (p.targets p.start d) content) := by
  have hwalk := (isSome_accepted_iff_free hp d).mpr hfree
  simp only [apply, checkWalk, hwalk, if_true, hp, Bool.false_eq_true, if_false, bind, Except.bind,
    Plan.replace_ofWalk hd hp hwalk, ofLocated]

/--
**Replacing and reading obey the laws of a lens.** Where the walk goes through and every match uses
the pattern up, reading after a replacement gives one copy of the content for each match that there
was, the labels of the matches are what they were, and a second replacement gives what it would have
given without the first.
-/
theorem replace_then_read {d content : Tree} (hd : d.DistinctKeys)
    (hcontent : content.DistinctKeys) (hp : p.isRoot = false)
    (hwalk : (fullWalk p d).accepted.isSome = true)
    (hused : ∀ l t, d.Reaches l t → p.Matches l t →
      ∃ c, p.run? p.start l = some c ∧ p.isExhausted c = true)
    (content₂ : Tree) (listDelimiter : String) :
    let ms := (fullWalk p d).foundNodes.map Prod.fst
    (ms.Nodup ∧ ∀ l, l ∈ ms ↔ ∃ t, d.Reaches l t ∧ p.Matches l t) ∧
    ∃ d' d'' labels,
      (replace content).apply p listDelimiter d = .ok d' ∧
      read.apply p listDelimiter d' = .ok (.sequence (List.replicate ms.length content)) ∧
      list.apply p listDelimiter d = .ok labels ∧ list.apply p listDelimiter d' = .ok labels ∧
      (replace content₂).apply p listDelimiter d' = .ok d'' ∧
      (replace content₂).apply p listDelimiter d = .ok d'' := by
  intro ms
  have hms : ms = p.targets p.start d := Plan.targets_ofWalk hp hwalk
  have hfree := (isSome_accepted_iff_free hp d).mp hwalk
  have hswapped := Pattern.swapped content hd hfree (usesUp_start hp hd hwalk hused)
  have hd' := hd.withAt hcontent (p.targets p.start d)
  refine ⟨⟨?_, fun l => ?_⟩, _, _, _, replace_of_free hp hd listDelimiter hfree, ?_,
    list_of_free hp listDelimiter hfree, ?_, ?_, replace_of_free hp hd listDelimiter hfree⟩
  · exact hd.nodup_nodes.sublist ((foundNodes_sublist hp hwalk).map _)
  · simp only [ms, List.mem_map, Prod.exists, exists_and_right, exists_eq_right,
      mem_foundNodes_fullWalk hp hd hwalk]
  · rw [read_eq_ok_iff hp, hswapped.yield_eq, hms]
    exact ⟨hswapped.free, rfl⟩
  · rw [list_of_free hp listDelimiter hswapped.free, hswapped.targets_eq]
  · rw [replace_of_free hp hd' listDelimiter hswapped.free, hswapped.targets_eq, Tree.withAt_withAt]

/--
An item and an entry are replaced. The literal `a` is left for the text `b` beside them, which does
not match, and the contents hold what the pattern would match elsewhere.
-/
theorem replace_then_read_item_and_entry :
    let p : Pattern := ⟨"*.a", ".", [.wildcard, .literal "a" (.chars (.single 'a'))]⟩
    let d : Tree := .mapping [(.string "x", .tagged ⟨"t"⟩ (.mapping [(.string "a", .null),
      (.null, .bool true)])), (.string "y", .string "b"), (.string "z", .mapping [(.string "a",
      .sequence [.sequence []])])]
    let content : Tree := .mapping [(.string "a", .string "a")]
    d.DistinctKeys ∧ content.DistinctKeys ∧ p.isRoot = false ∧
      (fullWalk p d).accepted.isSome = true ∧
      (∀ l t, d.Reaches l t → p.Matches l t →
        ∃ c, p.run? p.start l = some c ∧ p.isExhausted c = true) ∧
      ∃ d' d'', (replace content).apply p "," d = .ok d' ∧
        read.apply p "," d' = .ok (.sequence [content, content]) ∧
        (replace (.string "a")).apply p "," d' = .ok d'' ∧
        (replace (.string "a")).apply p "," d = .ok d'' := by
  intro p d content
  have hd : d.DistinctKeys := by decide +kernel
  have hcontent : content.DistinctKeys := by decide +kernel
  have hp : p.isRoot = false := by decide
  have hwalk : (fullWalk p d).accepted.isSome = true := by decide +kernel
  have hself : ∀ v ∈ p.visits p.start d.nodes, p.selfMatch v.cursor v.node = false := by
    decide +kernel
  have hused : ∀ l t, d.Reaches l t → p.Matches l t →
      ∃ c, p.run? p.start l = some c ∧ p.isExhausted c = true := by
    intro l t hl hmatch
    obtain ⟨c, hc, hx | ⟨-, hself'⟩⟩ := hmatch
    · exact ⟨c, hc, hx⟩
    · have hno := hself ⟨l, t, c⟩ (p.mem_visits.mpr ⟨hl.mem_nodes, hc⟩)
      rw [p.selfMatch_iff.mpr hself'] at hno
      cases hno
  have hcount : ((fullWalk p d).foundNodes.map Prod.fst).length = 2 := by decide +kernel
  obtain ⟨-, d', d'', -, hreplace, hread, -, -, htwice, honce⟩ :=
    replace_then_read hd hcontent hp hwalk hused (.string "a") ","
  rw [hcount] at hread
  exact ⟨hd, hcontent, hp, hwalk, hused, d', d'', hreplace, hread, htwice, honce⟩

end Verb

end TreeEdit
