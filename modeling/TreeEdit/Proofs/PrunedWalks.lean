import TreeEdit.Proofs.Answers

/-!
# What pruning hides

A walk asks whether to go on below a node reached partway, and whether to accept a node found.
`answersBy` answers by two sets of locations: nodes at the pruned ones are not entered, and nodes
found at the rejected ones are not accepted. This module compares the questions of such a walk
(`Walk.calls`) with those of the full walk.

The comparison goes along the two walks side by side. Neither shares anything with the other but
the node and its cursor, so what is compared are two walks with one and the same cursor
(`Walk.Thinned`); at a pruned node the full walk goes on alone, and everything it asks from there on
is hidden (`Pattern.cuts_of_mem_visit`).

While the walks are compared, a scalar that matches itself is told from other nodes found by its
cursor: the run that leads to it has a segment left. In the end that is said without cursors: the
full walk reached the node partway before it found it (`Pattern.partway_of_found`).
-/

namespace TreeEdit

/-- Whether a location is strictly below one of a set. Nothing is asked about the root, so the root
hides nothing. -/
def Location.isBelow (pruned : Location → Bool) (l : Location) : Bool :=
  (List.range l.length).any fun n => decide (0 < n) && pruned (l.take n)

theorem Location.isBelow_iff {pruned : Location → Bool} {l : Location} :
    l.isBelow pruned = true ↔ ∃ m n, m ≠ [] ∧ n ≠ [] ∧ l = m ++ n ∧ pruned m = true := by
  unfold isBelow
  rw [List.any_eq_true]
  constructor
  · intro h
    obtain ⟨n, hn, h⟩ := h
    rw [List.mem_range] at hn
    rw [Bool.and_eq_true, decide_eq_true_eq] at h
    refine ⟨l.take n, l.drop n, ?_, ?_, (List.take_append_drop n l).symm, h.2⟩
    · intro hnil
      have := congrArg List.length hnil
      rw [List.length_take, List.length_nil] at this
      omega
    · intro hnil
      have := congrArg List.length hnil
      rw [List.length_drop, List.length_nil] at this
      omega
  · intro h
    obtain ⟨m, n, hm, hn, rfl, hpruned⟩ := h
    have hm := List.length_pos_iff.mpr hm
    have hn := List.length_pos_iff.mpr hn
    refine ⟨m.length, List.mem_range.mpr (by rw [List.length_append]; omega), ?_⟩
    rw [List.take_left, hpruned]
    simpa using hm

/-- Answers by the set of locations not to go below and the set of locations not to accept. -/
def answersBy (pruned rejected : Location → Bool) : Event → Bool
  | .partway l _ _ => !pruned l
  | .found l _ => !rejected l
  | .deadEnd .. => true

/-- A call asks about the place that it tells of. -/
theorem Event.place_of_question? {e : Event} {n : Location × Tree} {b : Bool}
    (h : e.question? = some (n, b)) : e.place = n := by
  cases e with
  | partway l t c => exact (Prod.mk.inj (Option.some.inj h)).1
  | found l t => exact (Prod.mk.inj (Option.some.inj h)).1
  | deadEnd => cases h

/-- Whether pruning hides a call from what is told: it is made strictly below a pruned location, or
it finds a node at a pruned location that was reached partway. -/
def Event.isHidden (pruned : Location → Bool) (told : List Event) (e : Event) : Bool :=
  e.place.1.isBelow pruned ||
    match e with
    | .found l _ => pruned l && told.any fun
      | .partway m _ _ => m = l
      | _ => false
    | _ => false

namespace Walk

/-- The calls of a walk that are answered: nodes reached partway and nodes found. -/
def calls (w : Walk) : List Event := w.events.filter Event.isQuestion

/-- The second walk makes the calls of the first that are kept, and stops only if the first does. -/
structure Thinned (keep : Event → Bool) (w v : Walk) : Prop where
  /-- It does not stop earlier. -/
  goesOn : w.accepted.isSome = true → v.accepted.isSome = true
  /-- It makes the kept calls in the same order. -/
  calls_eq : w.accepted.isSome = true → v.calls = w.calls.filter keep

theorem calls_append {a b : Walk} (h : a.accepted.isSome = true) :
    (a ++ b).calls = a.calls ++ b.calls := by
  rw [calls, events_append h, List.filter_append]
  rfl

namespace Thinned

variable {keep : Event → Bool}

/-- A walk that calls nothing has nothing to lose. -/
theorem of_calls_eq_nil {w : Walk} (h : w.calls = []) : Thinned keep w w :=
  ⟨fun hw => hw, fun _ => by rw [h, List.filter_nil]⟩

/-- One call that is kept, whatever the answers. -/
theorem one {e : Event} (h : keep e = true) (x y : Bool) :
    Thinned keep (.one e x) (.one e y) := by
  refine ⟨fun _ => rfl, fun _ => ?_⟩
  by_cases hq : e.isQuestion = true
  · simp [calls, Walk.one, hq, h]
  · simp [calls, Walk.one, hq]

theorem append {w v w' v' : Walk} (h : Thinned keep w v) (h' : Thinned keep w' v') :
    Thinned keep (w ++ w') (v ++ v') := by
  constructor
  · intro hsome
    rw [isSome_accepted_append, Bool.and_eq_true] at hsome
    rw [isSome_accepted_append, h.goesOn hsome.1, h'.goesOn hsome.2]
    rfl
  · intro hsome
    rw [isSome_accepted_append, Bool.and_eq_true] at hsome
    rw [calls_append (h.goesOn hsome.1), calls_append hsome.1, List.filter_append,
      h.calls_eq hsome.1, h'.calls_eq hsome.2]

/-- The second walk may end where the first goes on, if nothing of the rest is kept. -/
theorem append_left {w v w' : Walk} (h : Thinned keep w v)
    (h' : ∀ e ∈ w'.calls, keep e = false) : Thinned keep (w ++ w') v := by
  constructor
  · intro hsome
    rw [isSome_accepted_append, Bool.and_eq_true] at hsome
    exact h.goesOn hsome.1
  · intro hsome
    rw [isSome_accepted_append, Bool.and_eq_true] at hsome
    have hnone : w'.calls.filter keep = [] :=
      List.filter_eq_nil_iff.mpr fun e he => by rw [h' e he]; decide
    rw [calls_append hsome.1, List.filter_append, hnone, List.append_nil, h.calls_eq hsome.1]

/-- Closing a node asks nothing. -/
theorem closeNode {w v : Walk} (h : Thinned keep w v) (l : Location) (t : Tree) (c : Cursor) :
    Thinned keep (Pattern.closeNode l t c w) (Pattern.closeNode l t c v) := by
  have hcalls : ∀ w : Walk, (Pattern.closeNode l t c w).calls = w.calls := by
    intro w
    rcases Pattern.closeNode_cases l t c w with ⟨hw, heq⟩ | ⟨-, heq⟩
    · rw [heq, calls_append (by rw [hw]; rfl)]
      exact List.append_nil _
    · rw [heq]
  constructor
  · rw [Pattern.accepted_closeNode, Pattern.accepted_closeNode]
    exact h.goesOn
  · rw [Pattern.accepted_closeNode, hcalls, hcalls]
    exact h.calls_eq

theorem joined {α : Type} {f g : α → Walk} {as : List α}
    (h : ∀ x ∈ as, Thinned keep (f x) (g x)) :
    Thinned keep (joined (as.map f)) (joined (as.map g)) :=
  joined_map (of_calls_eq_nil rfl) append h

end Thinned

end Walk

namespace Pattern

open Walk (joined)

variable (p : Pattern)

/-! ## Where the full walk calls -/

/-- A call is made of the node itself, a scalar under a key or a position that matches itself, or
at or below a child. -/
theorem call_of_mem_visit {answer : Event → Bool} {c : Cursor} {l : Location} {t : Tree}
    {ev : Event} (h : ev ∈ (p.visit answer c l t).events) (hq : ev.isQuestion = true) :
    (ev = .found l t ∧ l ≠ []) ∨
      ∃ e ∈ t.children, ev ∈ (p.childWalk answer c l t e).events := by
  rcases p.exhausted_or_segment? c with hc | ⟨seg, hseg⟩
  · rw [p.visit_of_exhausted hc] at h
    exact absurd h (List.not_mem_nil)
  · rw [visit_eq p answer hseg] at h
    -- the close of the node tells a dead end, which is no question
    have hinner : ev ∈ (p.innerWalk answer c l t t).events := by
      rcases closeNode_cases l t c (p.innerWalk answer c l t t) with ⟨-, hw⟩ | ⟨-, hw⟩
      · rw [hw] at h
        rcases Walk.mem_events_append h with h | h
        · exact h
        · rw [List.mem_singleton.mp h] at hq
          exact absurd hq (by simp [Event.isQuestion, Event.question?])
      · rw [hw] at h
        exact h
    rw [innerWalk] at hinner
    split at hinner
    · rw [matchSelf_eq] at hinner
      split at hinner
      · rename_i hself
        exact .inl ⟨List.mem_singleton.mp hinner, hself.1⟩
      · exact absurd hinner (List.not_mem_nil)
    · obtain ⟨w, hw, hmem⟩ := Walk.mem_events_joined hinner
      obtain ⟨e, he, rfl⟩ := List.mem_map.mp hw
      exact .inr ⟨e, he, hmem⟩

/-- What the full walk tells at or below a child it tells of the node, unless it has to stop. -/
theorem mem_visit_of_mem_childWalk {c : Cursor} {l : Location} {t : Tree} {e : Step × Tree}
    {ev : Event} {seg : Segment} (hseg : p.segment? c = some seg)
    (h : (p.visit yes c l t).accepted.isSome = true) (he : e ∈ t.children)
    (hev : ev ∈ (p.childWalk yes c l t e).events) :
    ev ∈ (p.visit yes c l t).events ∧ (p.childWalk yes c l t e).accepted.isSome = true := by
  have hscalar := Tree.not_isScalar_of_mem_children he
  rw [visit_eq p yes hseg, accepted_closeNode, innerWalk, hscalar, if_neg Bool.false_ne_true] at h
  have hparts := (Walk.isSome_accepted_joined _).mp h
  refine ⟨?_, hparts _ (List.mem_map_of_mem he)⟩
  rw [visit_eq p yes hseg]
  refine (events_prefix_closeNode l t c _).subset ?_
  rw [innerWalk, hscalar, if_neg Bool.false_ne_true, Walk.events_joined h]
  exact List.mem_flatMap.mpr ⟨_, List.mem_map_of_mem he, hev⟩

/-- Where a node is reached partway the run has a segment left. -/
theorem run?_of_partway {c c' : Cursor} {l m : Location} {t u : Tree}
    (h : .partway m u c' ∈ (p.visit yes c l t).events) :
    ∃ n, m = l ++ n ∧ p.run? c n = some c' ∧ p.isExhausted c' = false := by
  induction t using Tree.childInduction generalizing c l with
  | step t ih =>
    rcases p.call_of_mem_visit h rfl with ⟨hself, -⟩ | ⟨e, he, hev⟩
    · cases hself
    · have hcase := p.childCase c l t e
      generalize p.childWalk yes c l t e = w at hcase hev
      generalize p.visitsOfChild c e = vs at hcase
      cases hcase with
      | refused => exact absurd hev (List.not_mem_nil)
      | dead _ _ hw => rcases hw with rfl | rfl <;> simp [Walk.nothing, Walk.one] at hev
      | usedUp => simp [Walk.one] at hev
      | entered _ hs hx =>
          rcases Walk.mem_events_append hev with hev | hev
          · obtain ⟨rfl, rfl, rfl⟩ : m = l ++ [e.1] ∧ u = e.2 ∧ c' = _ := by
              simpa [Walk.one] using hev
            exact ⟨[e.1], rfl, by rw [run?_cons, hs]; rfl, hx⟩
          · obtain ⟨n, rfl, hrun, hx⟩ := ih e.1 e.2 he hev
            exact ⟨e.1 :: n, by simp, by rw [run?_cons, hs]; exact hrun, hx⟩

/-- Where a node is found the pattern is used up, or the node was reached partway before; only the
node that a walk began with may have been reached before the walk. -/
theorem partway_of_found {c : Cursor} {l m : Location} {t u : Tree}
    (hsome : (p.visit yes c l t).accepted.isSome = true)
    (h : .found m u ∈ (p.visit yes c l t).events) :
    ∃ n c', m = l ++ n ∧ p.run? c n = some c' ∧ (p.isExhausted c' = true ∨ (n = [] ∧ l ≠ []) ∨
      ∃ u' c'', .partway m u' c'' ∈ (p.visit yes c l t).events) := by
  induction t using Tree.childInduction generalizing c l with
  | step t ih =>
    rcases p.exhausted_or_segment? c with hc | ⟨seg, hseg⟩
    · rw [p.visit_of_exhausted hc] at h
      exact absurd h (List.not_mem_nil)
    rcases p.call_of_mem_visit h rfl with ⟨hself, hl⟩ | ⟨e, he, hev⟩
    · cases hself
      exact ⟨[], c, by simp, rfl, .inr (.inl ⟨rfl, hl⟩)⟩
    · have hput : ∀ {ev}, ev ∈ (p.childWalk yes c l t e).events →
          ev ∈ (p.visit yes c l t).events :=
        fun hev => (p.mem_visit_of_mem_childWalk hseg hsome he hev).1
      have hchild := (p.mem_visit_of_mem_childWalk hseg hsome he hev).2
      have hcase := p.childCase c l t e
      generalize p.childWalk yes c l t e = w at hcase hev hput hchild
      generalize p.visitsOfChild c e = vs at hcase
      cases hcase with
      | refused => exact absurd hev (List.not_mem_nil)
      | dead _ _ hw => rcases hw with rfl | rfl <;> simp [Walk.nothing, Walk.one] at hev
      | @usedUp c' _ hs hx =>
          obtain ⟨rfl, rfl⟩ : m = l ++ [e.1] ∧ u = e.2 := by simpa [Walk.one] using hev
          exact ⟨[e.1], c', rfl, by rw [run?_cons, hs]; rfl, .inl hx⟩
      | @entered c' _ hs hx =>
          rw [Walk.isSome_accepted_append, Bool.and_eq_true] at hchild
          rw [Walk.events_append rfl] at hev hput
          have hev : .found m u ∈ (p.visit yes c' (l ++ [e.1]) e.2).events := by
            simpa [Walk.one] using hev
          obtain ⟨n, c'', rfl, hrun, hlast⟩ := ih e.1 e.2 he hchild.2 hev
          refine ⟨e.1 :: n, c'', by simp, by rw [run?_cons, hs]; exact hrun, ?_⟩
          rcases hlast with hx | ⟨rfl, -⟩ | ⟨u', c₁, hpart⟩
          · exact .inl hx
          · -- the child itself: it was reached partway when it was entered
            refine .inr (.inr ⟨e.2, c', hput ?_⟩)
            simp [Walk.one]
          · exact .inr (.inr ⟨u', c₁, hput (List.mem_append_right _ hpart)⟩)

/-! ## The walks side by side -/

/-- Whether pruning cuts a call off, said by the cursor that the location has. -/
def cuts (pruned : Location → Bool) (e : Event) : Bool :=
  e.place.1.isBelow pruned ||
    match e with
    | .found l _ => pruned l && (p.run? p.start l).any fun c => !p.isExhausted c
    | _ => false

/-- All calls of the walk from a pruned node are cut off. -/
theorem cuts_of_mem_visit {pruned : Location → Bool} {c : Cursor} {l : Location} {t : Tree}
    (hl : l ≠ []) (hrun : p.run? p.start l = some c) (hc : p.isExhausted c = false)
    (hpruned : pruned l = true) {e : Event} (he : e ∈ (p.visit yes c l t).calls) :
    p.cuts pruned e = true := by
  obtain ⟨he, hq⟩ := List.mem_filter.mp he
  obtain ⟨⟨place, b⟩, hask⟩ := Option.isSome_iff_exists.mp hq
  have hsub := (p.questions_visit_sublist yes c l t).subset
    (List.mem_filterMap.mpr ⟨e, he, hask⟩)
  rcases List.mem_cons.mp hsub with heq | hbelow
  · -- the node itself is found: its run has a segment left
    obtain ⟨rfl, rfl⟩ := Prod.mk.inj heq
    cases e with
    | partway => simp [Event.question?] at hask
    | deadEnd => cases hask
    | found m u =>
        obtain ⟨rfl, rfl⟩ : m = l ∧ u = t := by simpa [Event.question?] using hask
        simp [cuts, hpruned, hrun, hc]
  · -- everything else is strictly below it
    simp only [Tree.askable, List.mem_flatMap] at hbelow
    obtain ⟨n, hn, hb⟩ := hbelow
    obtain ⟨⟨m, u⟩, hdesc, rfl⟩ := List.mem_map.mp hn
    have hplace : e.place = (l ++ m, u) := by
      rw [Event.place_of_question? hask]
      simp only [List.mem_cons, List.not_mem_nil, or_false, Prod.mk.injEq] at hb
      rcases hb with ⟨h, -⟩ | ⟨h, -⟩ <;> exact h
    have hbelow : (l ++ m).isBelow pruned = true :=
      Location.isBelow_iff.mpr ⟨l, m, hl, Tree.ne_nil_of_mem_descendants hdesc, rfl, hpruned⟩
    simp [cuts, hplace, hbelow]

variable (pruned rejected : Location → Bool)

/-- The walks at and below a child, once those from it are compared. -/
theorem thinned_childWalk {c : Cursor} {l : Location} {node : Tree} {e : Step × Tree}
    (hrun : p.run? p.start l = some c) (hopen : ∀ m, m ≠ [] → m <+: l → pruned m = false)
    (ih : ∀ c', p.run? p.start (l ++ [e.1]) = some c' → p.isExhausted c' = false →
      (∀ m, m ≠ [] → m <+: l ++ [e.1] → pruned m = false) →
      Walk.Thinned (fun e => !p.cuts pruned e) (p.visit yes c' (l ++ [e.1]) e.2)
        (p.visit (answersBy pruned rejected) c' (l ++ [e.1]) e.2)) :
    Walk.Thinned (fun e => !p.cuts pruned e) (p.childWalk yes c l node e)
      (p.childWalk (answersBy pruned rejected) c l node e) := by
  -- no location above the child is pruned
  have hbelow : (l ++ [e.1]).isBelow pruned = false := by
    rw [Bool.eq_false_iff]
    intro h
    obtain ⟨m, n, hm, hn, heq, hpruned⟩ := Location.isBelow_iff.mp h
    have hle : m <+: l := by
      rcases List.prefix_concat_iff.mp (⟨n, heq.symm⟩ : m <+: l ++ [e.1]) with h | h
      · rw [h] at heq
        exact absurd (List.append_right_eq_self.mp heq.symm) hn
      · exact h
    rw [hopen m hm hle] at hpruned
    cases hpruned
  unfold childWalk
  split
  · exact ⟨fun h => h, fun h => by cases h⟩
  · cases hs : p.step? c e.1 with
    | none =>
        obtain ⟨s, u⟩ := e
        cases s <;> exact .of_calls_eq_nil rfl
    | some c' =>
        have hrun' : p.run? p.start (l ++ [e.1]) = some c' := by
          rw [run?_append, hrun, Option.bind_some, run?_cons, hs]
          rfl
        cases hx : p.isExhausted c' with
        | true =>
            simp only [enter, hx, if_true]
            exact .one (by simp [cuts, Event.place, hbelow, hrun', hx]) _ _
        | false =>
            have hkept : (!p.cuts pruned (.partway (l ++ [e.1]) e.2 c')) = true := by
              simp [cuts, Event.place, hbelow]
            simp only [enter, hx, Bool.false_eq_true, if_false, if_true]
            cases hpruned : pruned (l ++ [e.1]) with
            | true =>
                -- the full walk goes on alone
                simp only [answersBy, hpruned, Bool.not_true, Bool.false_eq_true, if_false]
                refine (Walk.Thinned.one hkept _ _).append_left fun ev hev => ?_
                rw [p.cuts_of_mem_visit (by simp) hrun' hx hpruned hev]
                rfl
            | false =>
                simp only [answersBy, hpruned, Bool.not_false, if_true]
                refine (Walk.Thinned.one hkept _ _).append (ih c' hrun' hx fun m hm hle => ?_)
                rcases List.prefix_concat_iff.mp hle with rfl | hle
                · exact hpruned
                · exact hopen m hm hle

/-- **From a node with no pruned one above it, the walk makes the calls that are not cut off.** -/
theorem thinned_visit {c : Cursor} {l : Location} (t : Tree) (hrun : p.run? p.start l = some c)
    (hopen : ∀ m, m ≠ [] → m <+: l → pruned m = false) :
    Walk.Thinned (fun e => !p.cuts pruned e) (p.visit yes c l t)
      (p.visit (answersBy pruned rejected) c l t) := by
  induction t using Tree.childInduction generalizing c l with
  | step t ih =>
    rcases p.exhausted_or_segment? c with hc | ⟨seg, hseg⟩
    · rw [p.visit_of_exhausted hc, p.visit_of_exhausted hc]
      exact .of_calls_eq_nil rfl
    · rw [visit_eq p yes hseg, visit_eq p _ hseg]
      refine Walk.Thinned.closeNode ?_ l t c
      unfold innerWalk
      split
      · rw [matchSelf_eq, matchSelf_eq]
        split
        · rename_i hself
          -- neither the scalar's own location is pruned nor one above it
          have hbelow : l.isBelow pruned = false := by
            rw [Bool.eq_false_iff]
            intro h
            obtain ⟨m, n, hm, -, heq, hpruned⟩ := Location.isBelow_iff.mp h
            rw [hopen m hm ⟨n, heq.symm⟩] at hpruned
            cases hpruned
          refine .one ?_ _ _
          simp [cuts, Event.place, hbelow, hopen l hself.1 List.prefix_rfl]
        · exact .of_calls_eq_nil rfl
      · refine .joined fun e he => p.thinned_childWalk pruned rejected hrun hopen ?_
        intro c' hrun' _ hopen'
        exact ih e.1 e.2 he hrun' hopen'

/-- What the full walk calls is cut off exactly if pruning hides it. -/
theorem cuts_eq_isHidden {d : Tree} (h : (p.walk yes d).accepted.isSome = true) {e : Event}
    (he : e ∈ (p.walk yes d).events) :
    p.cuts pruned e = e.isHidden pruned (p.walk yes d).events := by
  cases hroot : p.isRoot with
  | true =>
      rw [walk_eq, hroot] at he
      exact absurd he (List.not_mem_nil)
  | false =>
      rw [walk_eq, hroot] at h he ⊢
      simp only [Bool.false_eq_true, if_false] at h he ⊢
      cases e with
      | partway | deadEnd => rfl
      | found m u =>
          obtain ⟨n, c, hm, hrun, hlast⟩ := p.partway_of_found h he
          rw [List.nil_append] at hm
          subst hm
          unfold cuts Event.isHidden
          simp only [hrun, Option.any_some]
          congr 2
          rw [Bool.eq_iff_iff, List.any_eq_true]
          constructor
          · intro hx
            rcases hlast with hused | ⟨-, hnil⟩ | ⟨u', c', hpart⟩
            · rw [hused] at hx
              exact absurd hx (by decide)
            · exact absurd rfl hnil
            · exact ⟨_, hpart, by simp⟩
          · intro hx
            obtain ⟨ev, hev, heq⟩ := hx
            cases ev with
            | found | deadEnd => cases heq
            | partway m' u' c' =>
                obtain rfl : m' = m := by simpa using heq
                obtain ⟨n', hn', hrun', hx'⟩ := p.run?_of_partway hev
                rw [List.nil_append] at hn'
                rw [← hn', hrun] at hrun'
                rw [Option.some.inj hrun', hx']
                rfl

/-- **Pruning hides subtrees and nothing else.** If the full walk need not stop, neither need a walk
that is answered by a set of pruned and a set of rejected locations, and its calls are those of the
full walk, in their order and with their nodes and cursors, less those that pruning hides. Rejecting
alone hides nothing. -/
theorem calls_of_answersBy {d : Tree} (h : (p.walk yes d).accepted.isSome = true) :
    (p.walk (answersBy pruned rejected) d).accepted.isSome = true ∧
      (p.walk (answersBy pruned rejected) d).calls =
        (p.walk yes d).calls.filter (fun e => !e.isHidden pruned (p.walk yes d).events) ∧
      (p.walk (answersBy (fun _ => false) rejected) d).calls = (p.walk yes d).calls := by
  have hthin : ∀ pruned : Location → Bool, Walk.Thinned (fun e => !p.cuts pruned e) (p.walk yes d)
      (p.walk (answersBy pruned rejected) d) := by
    intro pruned
    rw [walk_eq, walk_eq]
    split
    · exact .of_calls_eq_nil rfl
    · refine p.thinned_visit pruned rejected d rfl fun m hm hle => ?_
      exact absurd (List.prefix_nil.mp hle) hm
  have hcalls : ∀ pruned : Location → Bool, (p.walk (answersBy pruned rejected) d).calls =
      (p.walk yes d).calls.filter (fun e => !e.isHidden pruned (p.walk yes d).events) := by
    intro pruned
    rw [(hthin pruned).calls_eq h]
    refine List.filter_congr fun e he => ?_
    rw [p.cuts_eq_isHidden pruned h (List.mem_of_mem_filter he)]
  refine ⟨(hthin pruned).goesOn h, hcalls pruned, ?_⟩
  -- with no location pruned nothing is hidden
  rw [hcalls fun _ => false, List.filter_eq_self]
  intro e _
  have hbelow : e.place.1.isBelow (fun _ => false) = false := by simp [Location.isBelow]
  cases e <;> simp [Event.isHidden, hbelow]

/-- An item that matches itself and a mapping are pruned, and a match is rejected: one match in the
pruned mapping and the pruned item itself are no longer found, their siblings are. -/
theorem calls_of_answersBy_item_and_mapping :
    let key (s : String) : Step := .key (.string s)
    let below (s : String) : Tree × Tree :=
      (.string s, .mapping [(.string "k", .mapping [(.string "z", .null)])])
    let d : Tree := .mapping [(.string "a", .sequence [.string "z", .string "z"]), below "b",
      below "c"]
    let p : Pattern := ⟨"*.*.z", ".", [.wildcard, .wildcard, .literal "z" (.chars .empty)]⟩
    let pruned : Location → Bool := fun l => [[key "a", .index 0], [key "b"]].contains l
    let rejected : Location → Bool := fun l => [[key "a", .index 1]].contains l
    let walk := p.walk (answersBy pruned rejected) d
    (p.walk yes d).accepted.isSome = true ∧
      walk.foundNodes.map Prod.fst = [[key "a", .index 1], [key "c", key "k", key "z"]] ∧
      walk.accepted.isSome = true ∧
      walk.calls = (p.walk yes d).calls.filter
        (fun e => !e.isHidden pruned (p.walk yes d).events) ∧
      (p.walk (answersBy (fun _ => false) rejected) d).calls = (p.walk yes d).calls := by
  intro key below d p pruned rejected walk
  have hsome : (p.walk yes d).accepted.isSome = true := by decide +kernel
  have hfound : walk.foundNodes.map Prod.fst =
      [[key "a", .index 1], [key "c", key "k", key "z"]] := by decide +kernel
  exact ⟨hsome, hfound, p.calls_of_answersBy pruned rejected hsome⟩

end Pattern

end TreeEdit
