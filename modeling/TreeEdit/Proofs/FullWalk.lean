import TreeEdit.Edit.Verb
import TreeEdit.Proofs.Walks

/-!
# What the full walk of a document tells

A verb answers every event of its walk with yes. This module says what such a walk comes to, in
terms of the places where the run of a cursor lives and of three tests on such a place:

* `Pattern.stuck`: a child of the node is a sequence that the walk cannot enter. The walk stops
  exactly if there is such a place.
* `Pattern.hits`: the pattern is used up there, or the node is a scalar that matches itself. These
  are the nodes found, in preorder.
* `Pattern.overruns`: the node is a sequence and a position past its end is next. These are the
  sequences that an insertion extends, in preorder.

A dead end is told of at every place under which nothing was found, and nowhere else.
-/

namespace TreeEdit

namespace Pattern

open Walk (joined)

variable (p : Pattern)

/-- Yes to every event. -/
abbrev yes : Event → Bool := fun _ => true

/-- Whether a scalar matches itself: one literal is left, no `**` is pending, the text matches. -/
def selfMatch (c : Cursor) (t : Tree) : Bool :=
  !c.greedy &&
    match p.remaining c, t.text? with
    | [.literal text regex], some s => (Segment.literal text regex).matchesText s
    | _, _ => false

/-- Whether the place is a match. -/
def hits (v : Visit) : Bool := p.isExhausted v.cursor || p.selfMatch v.cursor v.node

/-- Whether the walk cannot go on at the place. -/
def stuck (v : Visit) : Bool := v.node.children.any (p.refuses v.cursor)

/-- Whether the place is a sequence that a position overruns, with no `**` pending. -/
def overruns (v : Visit) : Bool :=
  match v.node.untag, p.segment? v.cursor with
  | .sequence items, some (.index n) => items.length ≤ n && !v.cursor.greedy
  | _, _ => false

/-- The place as seen from further up. -/
def found (l : Location) (v : Visit) : Location × Tree := (l ++ v.location, v.node)

/-- The stub at a place as seen from further up. -/
def stub (l : Location) (v : Visit) : Stub := ⟨l ++ v.location, v.cursor⟩

theorem matchSelf_eq (answer : Event → Bool) (c : Cursor) (l : Location) (t : Tree) :
    p.matchSelf answer c l t =
      if l ≠ [] ∧ p.selfMatch c t = true then .one (.found l t) (answer (.found l t))
      else .nothing := by
  cases l with
  | nil => rfl
  | cons s l =>
      unfold matchSelf selfMatch
      split
      · rename_i text regex s' hrem htext
        rename_i hl
        cases hl
        rw [hrem, htext]
        simp
      · rename_i hno
        rw [if_neg]
        rintro ⟨-, h⟩
        rw [Bool.and_eq_true] at h
        obtain ⟨-, h⟩ := h
        split at h
        · rename_i hrem htext
          exact hno _ _ _ _ _ rfl hrem htext
        · exact absurd h (by decide)

theorem selfMatch_of_not_isScalar {c : Cursor} {t : Tree} (h : t.isScalar = false) :
    p.selfMatch c t = false := by
  have ht : t.text? = none := by
    have := t.isSome_text?
    rw [h] at this
    simpa using this
  simp [selfMatch, ht]

theorem enter_of_exhausted {c : Cursor} (h : p.isExhausted c = true) (l : Location) (t : Tree)
    (below : Unit → Walk) : p.enter yes c l t below = .one (.found l t) true := by
  simp [enter, h]

theorem enter_of_not_exhausted {c : Cursor} (h : p.isExhausted c = false) (l : Location) (t : Tree)
    (below : Unit → Walk) :
    p.enter yes c l t below = .one (.partway l t c) false ++ below () := by
  simp [enter, h]

theorem refuses_of_exhausted {c : Cursor} (h : p.isExhausted c = true) (e : Step × Tree) :
    p.refuses c e = false := by
  unfold refuses
  rw [p.segment?_eq_none_iff.mpr h]
  cases e.1 <;> rfl

theorem visit_of_exhausted {c : Cursor} (h : p.isExhausted c = true) (answer : Event → Bool)
    (l : Location) (t : Tree) : p.visit answer c l t = .nothing := by
  unfold visit
  rw [p.segment?_eq_none_iff.mpr h]

theorem stuck_of_exhausted {v : Visit} (h : p.isExhausted v.cursor = true) : p.stuck v = false := by
  simp [stuck, p.refuses_of_exhausted h]

/-- A cursor is used up or stands on a segment. -/
theorem exhausted_or_segment? (c : Cursor) :
    p.isExhausted c = true ∨ ∃ seg, p.segment? c = some seg := by
  cases h : p.segment? c with
  | none => exact .inl (p.segment?_eq_none_iff.mp h)
  | some seg => exact .inr ⟨seg, rfl⟩

theorem not_exhausted_of_segment? {c : Cursor} {seg : Segment} (h : p.segment? c = some seg) :
    p.isExhausted c = false := by
  cases he : p.isExhausted c with
  | false => rfl
  | true => rw [p.segment?_eq_none_iff.mpr he] at h; cases h

/-- Closing a walk adds a dead end at most. -/
theorem closeNode_cases (l : Location) (t : Tree) (c : Cursor) (w : Walk) :
    (w.accepted = some false ∧ closeNode l t c w = w ++ .one (.deadEnd l t c none) false) ∨
      (w.accepted ≠ some false ∧ closeNode l t c w = w) := by
  unfold closeNode
  split
  · rename_i h; exact .inl ⟨h, rfl⟩
  · rename_i h; exact .inr ⟨h, rfl⟩

theorem accepted_closeNode (l : Location) (t : Tree) (c : Cursor) (w : Walk) :
    (closeNode l t c w).accepted = w.accepted := by
  rcases closeNode_cases l t c w with ⟨h, hw⟩ | ⟨-, hw⟩
  · rw [hw, Walk.append_def, Walk.append, h]; rfl
  · rw [hw]

/-- What the full walk does at a child, with the places at and below it where the run lives. -/
inductive ChildCase (c : Cursor) (l : Location) (node : Tree) (e : Step × Tree) :
    Walk → List Visit → Prop where
  | refused {vs : List Visit} : p.refuses c e = true → ChildCase c l node e ⟨[], none⟩ vs
  | dead {w : Walk} : p.refuses c e = false → p.step? c e.1 = none →
      w = .nothing ∨ w = .one (.deadEnd l node c (some e.1)) false → ChildCase c l node e w []
  | usedUp {c' : Cursor} : p.refuses c e = false → p.step? c e.1 = some c' →
      p.isExhausted c' = true →
      ChildCase c l node e (.one (.found (l ++ [e.1]) e.2) true) [⟨[e.1], e.2, c'⟩]
  | entered {c' : Cursor} : p.refuses c e = false → p.step? c e.1 = some c' →
      p.isExhausted c' = false →
      ChildCase c l node e
        (.one (.partway (l ++ [e.1]) e.2 c') false ++ p.visit yes c' (l ++ [e.1]) e.2)
        ((p.visits c' e.2.nodes).map (Visit.under e.1))

theorem childCase (c : Cursor) (l : Location) (node : Tree) (e : Step × Tree) :
    p.ChildCase c l node e (p.childWalk yes c l node e) (p.visitsOfChild c e) := by
  unfold childWalk visitsOfChild
  cases hr : p.refuses c e with
  | true => exact .refused hr
  | false =>
      cases hs : p.step? c e.1 with
      | none =>
          refine .dead hr hs ?_
          obtain ⟨s, u⟩ := e
          cases s with
          | key k => exact .inr rfl
          | index i => exact .inl rfl
      | some c' =>
          simp only [Bool.false_eq_true, if_false]
          cases hx : p.isExhausted c' with
          | true =>
              rw [p.enter_of_exhausted hx, p.visits_of_exhausted hx]
              exact .usedUp hr hs hx
          | false =>
              rw [p.enter_of_not_exhausted hx]
              exact .entered hr hs hx

theorem isSome_accepted_matchSelf (c : Cursor) (l : Location) (t : Tree) :
    (p.matchSelf yes c l t).accepted.isSome = true := by
  rw [matchSelf_eq]
  split <;> rfl

/-! ## When the walk stops -/

/-- **The full walk of a node stops exactly if it gets stuck somewhere.** -/
theorem isSome_accepted_visit (c : Cursor) (l : Location) (t : Tree) :
    (p.visit yes c l t).accepted.isSome = true ↔
      ∀ v ∈ p.visits c t.nodes, p.stuck v = false := by
  induction t using Tree.childInduction generalizing c l with
  | step t ih =>
    rcases p.exhausted_or_segment? c with hc | ⟨seg, hseg⟩
    · rw [p.visit_of_exhausted hc, p.visits_of_exhausted hc]
      simp [Walk.nothing, p.stuck_of_exhausted (v := ⟨[], t, c⟩) hc]
    · rw [visit_eq p yes hseg, accepted_closeNode, visits_nodes, visits_descendants, innerWalk]
      have hchild : ∀ e ∈ t.children, (p.childWalk yes c l t e).accepted.isSome = true ↔
          p.refuses c e = false ∧ ∀ v ∈ p.visitsOfChild c e, p.stuck v = false := by
        intro e he
        have hcase := p.childCase c l t e
        generalize p.childWalk yes c l t e = w at hcase ⊢
        generalize p.visitsOfChild c e = vs at hcase ⊢
        cases hcase with
        | refused hr => simp [hr]
        | dead hr _ hw => rcases hw with rfl | rfl <;> simp [hr, Walk.nothing, Walk.one]
        | @usedUp c' hr _ hx =>
            simp [hr, Walk.one, p.stuck_of_exhausted (v := ⟨[e.1], e.2, c'⟩) hx]
        | entered hr hs hx =>
            rw [Walk.isSome_accepted_append]
            simp only [Walk.one, Option.isSome_some, Bool.true_and, ih e.1 e.2 he, hr, true_and,
              List.mem_map, forall_exists_index, and_imp, forall_apply_eq_imp_iff₂]
            rfl
      cases hscalar : t.isScalar with
      | true =>
          have hnil := Tree.children_eq_nil_of_isScalar hscalar
          simp [isSome_accepted_matchSelf, hnil, stuck]
      | false =>
          simp only [Bool.false_eq_true, if_false, Walk.isSome_accepted_joined, List.mem_map,
            forall_exists_index, and_imp, forall_apply_eq_imp_iff₂, List.mem_cons, forall_eq_or_imp,
            List.mem_flatMap]
          constructor
          · intro h
            refine ⟨?_, fun v e he hv => ((hchild e he).mp (h e he)).2 v hv⟩
            simp only [stuck, List.any_eq_false]
            exact fun e he => by simp [((hchild e he).mp (h e he)).1]
          · rintro ⟨hself, hbelow⟩ e he
            simp only [stuck, List.any_eq_false] at hself
            exact (hchild e he).mpr ⟨by simpa using hself e he, fun v hv => hbelow v e he hv⟩

/-! ## What the walk finds -/

theorem foundNodes_closeNode (l : Location) (t : Tree) (c : Cursor) (w : Walk) :
    (closeNode l t c w).foundNodes = w.foundNodes := by
  rcases closeNode_cases l t c w with ⟨h, hw⟩ | ⟨-, hw⟩
  · rw [hw, Walk.foundNodes, Walk.events_append (by rw [h]; rfl), List.filterMap_append]
    simp [Walk.foundNodes, Walk.one]
  · rw [hw]

theorem foundNodes_joined {ws : List Walk} (h : (joined ws).accepted.isSome = true) :
    (joined ws).foundNodes = ws.flatMap Walk.foundNodes := by
  rw [Walk.foundNodes, Walk.events_joined h, List.filterMap_flatMap]
  rfl

/-- Places below a child are hits seen from the child exactly if they are seen from its parent. -/
theorem hits_under (s : Step) (vs : List Visit) (l : Location) :
    ((vs.map (Visit.under s)).filter p.hits).map (found l)
      = (vs.filter p.hits).map (found (l ++ [s])) := by
  rw [List.filter_map, List.map_map]
  have hfilter : p.hits ∘ Visit.under s = p.hits := rfl
  have hfound : found l ∘ Visit.under s = found (l ++ [s]) := by
    funext v
    simp [found, Visit.under]
  rw [hfilter, hfound]

/-- The nodes found at and below a child, once those of a walk from it are known. -/
theorem foundNodes_childWalk {c : Cursor} {l : Location} {node : Tree} {e : Step × Tree}
    (ih : ∀ {c' : Cursor} {seg : Segment} {m : Location}, p.segment? c' = some seg → m ≠ [] →
      (p.visit yes c' m e.2).accepted.isSome = true →
      (p.visit yes c' m e.2).foundNodes = ((p.visits c' e.2.nodes).filter p.hits).map (found m))
    (h : (p.childWalk yes c l node e).accepted.isSome = true) :
    (p.childWalk yes c l node e).foundNodes =
      ((p.visitsOfChild c e).filter p.hits).map (found l) := by
  have hcase := p.childCase c l node e
  generalize p.childWalk yes c l node e = w at hcase h ⊢
  generalize p.visitsOfChild c e = vs at hcase ⊢
  cases hcase with
  | refused => exact absurd h (by simp)
  | dead _ _ hw => rcases hw with rfl | rfl <;> rfl
  | usedUp _ _ hx => simp [Walk.foundNodes, Walk.one, hits, hx, found]
  | @entered c' _ _ hx =>
      rw [Walk.isSome_accepted_append, Bool.and_eq_true] at h
      obtain ⟨seg, hseg⟩ := (p.exhausted_or_segment? c').resolve_left (by simp [hx])
      rw [Walk.foundNodes, Walk.events_append rfl, List.filterMap_append, hits_under]
      exact ih hseg (by simp) h.2

/-- The nodes found at a place and below it; the root of a document is never found. -/
theorem foundNodes_visit {c : Cursor} {seg : Segment} (hseg : p.segment? c = some seg)
    (l : Location) (t : Tree) (h : (p.visit yes c l t).accepted.isSome = true) :
    (p.visit yes c l t).foundNodes =
      ((p.visits c (if l = [] then t.descendants else t.nodes)).filter p.hits).map (found l) := by
  induction t using Tree.childInduction generalizing c l seg with
  | step t ih =>
    rw [visit_eq p yes hseg, accepted_closeNode, innerWalk] at h
    rw [visit_eq p yes hseg, foundNodes_closeNode, innerWalk]
    have hx := p.not_exhausted_of_segment? hseg
    cases hscalar : t.isScalar with
    | true =>
        -- a scalar is found if it matches itself, which the root never does
        have hnone : p.visits c t.descendants = [] := by
          simp [visits_descendants, Tree.children_eq_nil_of_isScalar hscalar]
        rw [if_pos rfl, matchSelf_eq]
        by_cases hl : l = []
        · simp [hl, hnone, Walk.foundNodes, Walk.nothing]
        · by_cases hm : p.selfMatch c t = true
          · simp [hl, hm, hits, visits_nodes, hnone, Walk.foundNodes, Walk.one, found]
          · simp [hl, hm, hx, hits, visits_nodes, hnone, Walk.foundNodes, Walk.nothing]
    | false =>
        simp only [hscalar, Bool.false_eq_true, if_false] at h ⊢
        have hown : (p.visits c (if l = [] then t.descendants else t.nodes)).filter p.hits
            = (p.visits c t.descendants).filter p.hits := by
          split
          · rfl
          · simp [visits_nodes, hits, hx, p.selfMatch_of_not_isScalar hscalar]
        rw [foundNodes_joined h, hown, visits_descendants, List.filter_flatMap, List.map_flatMap,
          List.flatMap_map]
        rw [Walk.isSome_accepted_joined] at h
        refine List.flatMap_congr fun e he => ?_
        refine p.foundNodes_childWalk (fun hseg' hm hsome => ?_) (h _ (List.mem_map_of_mem he))
        have := ih e.1 e.2 he hseg' _ hsome
        rwa [if_neg hm] at this

/-- Nothing is accepted on a full walk exactly if nothing is found. -/
theorem rejected_iff_foundNodes (c : Cursor) (l : Location) (t : Tree)
    (h : (p.visit yes c l t).accepted.isSome = true) :
    (p.visit yes c l t).accepted = some false ↔ (p.visit yes c l t).foundNodes = [] := by
  induction t using Tree.childInduction generalizing c l with
  | step t ih =>
    rcases p.exhausted_or_segment? c with hc | ⟨seg, hseg⟩
    · rw [p.visit_of_exhausted hc]
      simp [Walk.nothing, Walk.foundNodes]
    · rw [visit_eq p yes hseg, accepted_closeNode, innerWalk] at h ⊢
      rw [foundNodes_closeNode]
      cases hscalar : t.isScalar with
      | true =>
          simp only [if_true, matchSelf_eq]
          split <;> simp [Walk.one, Walk.nothing, Walk.foundNodes]
      | false =>
          simp only [hscalar, Bool.false_eq_true, if_false] at h ⊢
          rw [foundNodes_joined h, Walk.joined_rejected_iff, List.flatMap_eq_nil_iff]
          rw [Walk.isSome_accepted_joined] at h
          refine forall₂_congr fun w hw => ?_
          obtain ⟨e, he, rfl⟩ := List.mem_map.mp hw
          have hsome := h _ hw
          have hcase := p.childCase c l t e
          generalize p.childWalk yes c l t e = w at hcase hsome ⊢
          generalize p.visitsOfChild c e = vs at hcase ⊢
          cases hcase with
          | refused => exact absurd hsome (by simp)
          | dead _ _ hw =>
              rcases hw with rfl | rfl <;> simp [Walk.foundNodes, Walk.nothing, Walk.one]
          | usedUp _ _ hx' => simp [Walk.foundNodes, Walk.one]
          | @entered c' _ _ hx' =>
              rw [Walk.isSome_accepted_append, Bool.and_eq_true] at hsome
              rw [Walk.foundNodes, Walk.events_append rfl, List.filterMap_append]
              have := ih e.1 e.2 he c' (l ++ [e.1]) hsome.2
              simpa [Walk.append_def, Walk.append, Walk.one, Walk.foundNodes] using this

/-! ## Overrun sequences -/

theorem overruns_iff {v : Visit} :
    p.overruns v = true ↔ ∃ items n, v.node.untag = .sequence items ∧
      p.segment? v.cursor = some (.index n) ∧ items.length ≤ n ∧ v.cursor.greedy = false := by
  unfold overruns
  constructor
  · intro h
    split at h
    · rename_i items n hc hseg
      rw [Bool.and_eq_true, decide_eq_true_eq, Bool.not_eq_true'] at h
      exact ⟨items, n, hc, hseg, h.1, h.2⟩
    · exact absurd h (by decide)
  · rintro ⟨items, n, hc, hseg, hle, hg⟩
    simp [hc, hseg, hle, hg]

/-- No step into an overrun sequence lives on. -/
theorem step?_of_overruns {v : Visit} (h : p.overruns v = true) {s : Step} {u : Tree}
    (hu : (s, u) ∈ v.node.children) : p.step? v.cursor s = none := by
  obtain ⟨items, n, hc, hseg, hle, hg⟩ := p.overruns_iff.mp h
  rw [Tree.children_of_untag hc] at hu
  obtain ⟨i, rfl, hi⟩ := Tree.mem_itemSteps.mp hu
  refine (p.step?_eq_none_iff hseg).mpr ⟨?_, hg⟩
  have hlt : i < items.length := (List.getElem?_eq_some_iff.mp hi).1
  simp only [Segment.matchesStep, Segment.matchesIndex, decide_eq_false_iff_not]
  omega

theorem extension?_deadEnd (l : Location) (v : Visit) :
    Plan.extension? p (.deadEnd (l ++ v.location) v.node v.cursor none)
      = if p.overruns v then some (stub l v) else none := by
  unfold Plan.extension? overruns
  dsimp only
  cases v.node.untag with
  | sequence items =>
      cases p.segment? v.cursor with
      | none => rfl
      | some seg => cases seg <;> rfl
  | null | bool _ | number _ | string _ | mapping _ | tagged _ _ => rfl

theorem overruns_under (s : Step) (vs : List Visit) (l : Location) :
    ((vs.map (Visit.under s)).filter p.overruns).map (stub l)
      = (vs.filter p.overruns).map (stub (l ++ [s])) := by
  rw [List.filter_map, List.map_map]
  have hfilter : p.overruns ∘ Visit.under s = p.overruns := rfl
  have hstub : stub l ∘ Visit.under s = stub (l ++ [s]) := by
    funext v
    simp [stub, Visit.under]
  rw [hfilter, hstub]

theorem filterMap_events_closeNode {β : Type} (f : Event → Option β) (l : Location) (t : Tree)
    (c : Cursor) (w : Walk) :
    (closeNode l t c w).events.filterMap f = w.events.filterMap f ++
      if w.accepted = some false then (f (.deadEnd l t c none)).toList else [] := by
  rcases closeNode_cases l t c w with ⟨h, hw⟩ | ⟨h, hw⟩
  · rw [hw, Walk.events_append (by rw [h]; rfl), List.filterMap_append, if_pos h]
    cases hf : f (.deadEnd l t c none) <;> simp [Walk.one, hf]
  · rw [hw, if_neg h, List.append_nil]

theorem not_refuses_of_overruns {v : Visit} (h : p.overruns v = true) (e : Step × Tree) :
    p.refuses v.cursor e = false := by
  obtain ⟨items, n, -, hseg, -, hg⟩ := p.overruns_iff.mp h
  unfold refuses
  rw [hseg, hg]
  cases e.1 <;> simp

/-- Nothing is accepted in an overrun sequence. -/
theorem rejected_of_overruns {v : Visit} (h : p.overruns v = true) (l : Location) (node : Tree) :
    (joined (v.node.children.map (p.childWalk yes v.cursor l node))).accepted = some false := by
  refine Walk.joined_rejected_iff.mpr fun w hw => ?_
  obtain ⟨e, he, rfl⟩ := List.mem_map.mp hw
  have hs := p.step?_of_overruns h he
  have hcase := p.childCase v.cursor l node e
  generalize p.childWalk yes v.cursor l node e = w at hcase ⊢
  generalize p.visitsOfChild v.cursor e = vs at hcase
  cases hcase with
  | refused hr => rw [p.not_refuses_of_overruns h] at hr; cases hr
  | dead _ _ hw => rcases hw with rfl | rfl <;> rfl
  | usedUp _ hs' => rw [hs] at hs'; cases hs'
  | entered _ hs' => rw [hs] at hs'; cases hs'

/-- The sequences overrun at and below a child, once those of a walk from it are known. -/
theorem extensions_childWalk {c : Cursor} {l : Location} {node : Tree} {e : Step × Tree}
    (ih : ∀ {c' : Cursor} {seg : Segment} {m : Location}, p.segment? c' = some seg →
      (p.visit yes c' m e.2).accepted.isSome = true →
      (p.visit yes c' m e.2).events.filterMap (Plan.extension? p) =
        ((p.visits c' e.2.nodes).filter p.overruns).map (stub m))
    (h : (p.childWalk yes c l node e).accepted.isSome = true) :
    (p.childWalk yes c l node e).events.filterMap (Plan.extension? p) =
      ((p.visitsOfChild c e).filter p.overruns).map (stub l) := by
  have hcase := p.childCase c l node e
  generalize p.childWalk yes c l node e = w at hcase h ⊢
  generalize p.visitsOfChild c e = vs at hcase ⊢
  cases hcase with
  | refused => exact absurd h (by simp)
  | dead _ _ hw => rcases hw with rfl | rfl <;> rfl
  | @usedUp c' _ _ hx =>
      have hno : p.overruns ⟨[e.1], e.2, c'⟩ = false := by
        simp [overruns, p.segment?_eq_none_iff.mpr hx]
      simp [Walk.one, hno, Plan.extension?]
  | @entered c' _ _ hx =>
      rw [Walk.isSome_accepted_append, Bool.and_eq_true] at h
      obtain ⟨seg, hseg⟩ := (p.exhausted_or_segment? c').resolve_left (by simp [hx])
      rw [Walk.events_append rfl, List.filterMap_append, overruns_under]
      exact ih hseg h.2

/-- The run goes no further than an overrun sequence. -/
theorem visits_descendants_of_overruns {v : Visit} (h : p.overruns v = true) :
    p.visits v.cursor v.node.descendants = [] := by
  rw [visits_descendants, List.flatMap_eq_nil_iff]
  intro e he
  rw [visitsOfChild, p.step?_of_overruns h he]

/-- The sequences at and below a place that the walk says were overrun. -/
theorem extensions_visit {c : Cursor} {seg : Segment} (hseg : p.segment? c = some seg)
    (l : Location) (t : Tree) (h : (p.visit yes c l t).accepted.isSome = true) :
    (p.visit yes c l t).events.filterMap (Plan.extension? p) =
      ((p.visits c t.nodes).filter p.overruns).map (stub l) := by
  induction t using Tree.childInduction generalizing c l seg with
  | step t ih =>
    rw [visit_eq p yes hseg, accepted_closeNode] at h
    rw [visit_eq p yes hseg, filterMap_events_closeNode, visits_nodes]
    have hext := p.extension?_deadEnd l ⟨[], t, c⟩
    rw [List.append_nil] at hext
    have hinner : (p.innerWalk yes c l t t).events.filterMap (Plan.extension? p)
        = ((p.visits c t.descendants).filter p.overruns).map (stub l) := by
      rw [innerWalk] at h ⊢
      rw [visits_descendants]
      cases hscalar : t.isScalar with
      | true =>
          rw [if_pos rfl, Tree.children_eq_nil_of_isScalar hscalar, matchSelf_eq]
          split <;> rfl
      | false =>
          simp only [hscalar, Bool.false_eq_true, if_false] at h ⊢
          rw [Walk.events_joined h, List.filterMap_flatMap, List.flatMap_map, List.filter_flatMap,
            List.map_flatMap]
          rw [Walk.isSome_accepted_joined] at h
          refine List.flatMap_congr fun e he => ?_
          refine p.extensions_childWalk (fun hseg' hsome => ?_) (h _ (List.mem_map_of_mem he))
          exact ih e.1 e.2 he hseg' _ hsome
    rw [hinner]
    cases hover : p.overruns ⟨[], t, c⟩ with
    | false => simp [hext, hover]
    | true =>
        -- the dead end that closes the sequence is the only event that counts
        have hnone : p.visits c t.descendants = [] := p.visits_descendants_of_overruns hover
        have hscalar : t.isScalar = false := by
          obtain ⟨items, n, hc, -⟩ := p.overruns_iff.mp hover
          simp only at hc
          simp [Tree.isScalar, hc]
        have hrej : (p.innerWalk yes c l t t).accepted = some false := by
          simpa [innerWalk, hscalar] using p.rejected_of_overruns hover l t
        simp [hnone, hrej, hext, hover, stub]

/-! ## Dead ends -/

/-- A dead end told of at or below a child, or at its parent because the child did not match. -/
theorem deadEnd_of_mem_childWalk {c : Cursor} {l m : Location} {node t : Tree} {e : Step × Tree}
    {c' : Cursor} {um : Option Step}
    (ih : ∀ {c₁ : Cursor} {l₁ : Location}, .deadEnd m node c' um ∈ (p.visit yes c₁ l₁ e.2).events →
      ∃ v ∈ p.visits c₁ e.2.nodes, stub l₁ v = ⟨m, c'⟩ ∧ p.isExhausted v.cursor = false)
    (h : .deadEnd m node c' um ∈ (p.childWalk yes c l t e).events) :
    (m = l ∧ c' = c) ∨
      ∃ v ∈ p.visitsOfChild c e, stub l v = ⟨m, c'⟩ ∧ p.isExhausted v.cursor = false := by
  have hcase := p.childCase c l t e
  generalize p.childWalk yes c l t e = w at hcase h
  generalize p.visitsOfChild c e = vs at hcase ⊢
  cases hcase with
  | refused => exact absurd h (List.not_mem_nil)
  | dead _ _ hw =>
      rcases hw with rfl | rfl
      · exact absurd h (List.not_mem_nil)
      · simp only [Walk.one, List.mem_singleton, Event.deadEnd.injEq] at h
        exact .inl ⟨h.1, h.2.2.1⟩
  | usedUp => simp [Walk.one] at h
  | entered =>
      rcases Walk.mem_events_append h with h | h
      · simp [Walk.one] at h
      · obtain ⟨v, hv, hstub, hx⟩ := ih h
        refine .inr ⟨v.under e.1, List.mem_map_of_mem hv, ?_, hx⟩
        rw [← hstub]
        simp [stub, Visit.under]

/-- A dead end is told of at a place that the run reaches with a segment left. -/
theorem deadEnd_of_mem_visit {c : Cursor} {l m : Location} {t node : Tree} {c' : Cursor}
    {um : Option Step} (h : .deadEnd m node c' um ∈ (p.visit yes c l t).events) :
    ∃ v ∈ p.visits c t.nodes, stub l v = ⟨m, c'⟩ ∧ p.isExhausted v.cursor = false := by
  induction t using Tree.childInduction generalizing c l with
  | step t ih =>
    rcases p.exhausted_or_segment? c with hc | ⟨seg, hseg⟩
    · rw [p.visit_of_exhausted hc] at h
      exact absurd h (List.not_mem_nil)
    · rw [visit_eq p yes hseg] at h
      rw [visits_nodes]
      have hself : m = l ∧ c' = c → ∃ v ∈ (⟨[], t, c⟩ : Visit) :: p.visits c t.descendants,
          stub l v = ⟨m, c'⟩ ∧ p.isExhausted v.cursor = false := by
        rintro ⟨rfl, rfl⟩
        exact ⟨_, List.mem_cons_self .., by simp [stub], p.not_exhausted_of_segment? hseg⟩
      have hinner : .deadEnd m node c' um ∈ (p.innerWalk yes c l t t).events ∨
          (m = l ∧ c' = c) := by
        rcases closeNode_cases l t c (p.innerWalk yes c l t t) with ⟨-, hw⟩ | ⟨-, hw⟩
        · rw [hw] at h
          rcases Walk.mem_events_append h with h | h
          · exact .inl h
          · simp only [Walk.one, List.mem_singleton, Event.deadEnd.injEq] at h
            exact .inr ⟨h.1, h.2.2.1⟩
        · rw [hw] at h
          exact .inl h
      rcases hinner with h | h
      · rw [innerWalk] at h
        split at h
        · rw [matchSelf_eq] at h
          split at h <;> simp [Walk.one, Walk.nothing] at h
        · obtain ⟨w, hw, h⟩ := Walk.mem_events_joined h
          obtain ⟨e, he, rfl⟩ := List.mem_map.mp hw
          rcases p.deadEnd_of_mem_childWalk (fun h => ih e.1 e.2 he h) h with h | ⟨v, hv, hstub⟩
          · exact hself h
          · refine ⟨v, List.mem_cons_of_mem _ ?_, hstub⟩
            rw [visits_descendants]
            exact List.mem_flatMap.mpr ⟨e, he, hv⟩
      · exact hself h

/-- Where nothing was accepted at or below a child, every place there is told of. -/
theorem mem_childWalk_of_rejected {c : Cursor} {l : Location} {node : Tree} {e : Step × Tree}
    (ih : ∀ {c' : Cursor} {m : Location}, (p.visit yes c' m e.2).accepted = some false →
      ∀ v ∈ p.visits c' e.2.nodes, p.isExhausted v.cursor = false →
        .deadEnd (m ++ v.location) v.node v.cursor none ∈ (p.visit yes c' m e.2).events)
    (h : (p.childWalk yes c l node e).accepted = some false) {v : Visit}
    (hv : v ∈ p.visitsOfChild c e) (hx : p.isExhausted v.cursor = false) :
    .deadEnd (l ++ v.location) v.node v.cursor none ∈ (p.childWalk yes c l node e).events := by
  have hcase := p.childCase c l node e
  generalize p.childWalk yes c l node e = w at hcase h ⊢
  generalize p.visitsOfChild c e = vs at hcase hv
  cases hcase with
  | refused => cases h
  | dead => cases hv
  | usedUp => cases h
  | @entered c' =>
      obtain ⟨v', hv', rfl⟩ := List.mem_map.mp hv
      have hrej : (p.visit yes c' (l ++ [e.1]) e.2).accepted = some false := by
        obtain ⟨y, z, hy, hz, hyz⟩ := Walk.accepted_append h
        obtain ⟨-, rfl⟩ : y = false ∧ z = false := by simpa using hyz.symm
        exact hz
      have := ih hrej v' hv' hx
      rw [Walk.events_append rfl]
      refine List.mem_append_right _ ?_
      simpa [Visit.under] using this

/-- Where nothing was accepted a dead end is told of at every place with a segment left. -/
theorem mem_visit_of_rejected {c : Cursor} {l : Location} {t : Tree}
    (h : (p.visit yes c l t).accepted = some false) {v : Visit} (hv : v ∈ p.visits c t.nodes)
    (hx : p.isExhausted v.cursor = false) :
    .deadEnd (l ++ v.location) v.node v.cursor none ∈ (p.visit yes c l t).events := by
  induction t using Tree.childInduction generalizing c l v with
  | step t ih =>
    rcases p.exhausted_or_segment? c with hc | ⟨seg, hseg⟩
    · rw [p.visits_of_exhausted hc, List.mem_singleton] at hv
      subst hv
      rw [hc] at hx
      exact absurd hx (by decide)
    · rw [visit_eq p yes hseg, accepted_closeNode] at h
      have hclose : (closeNode l t c (p.innerWalk yes c l t t)).events
          = (p.innerWalk yes c l t t).events ++ [.deadEnd l t c none] := by
        rw [closeNode, h]
        exact Walk.events_append (by rw [h]; rfl)
      rw [visit_eq p yes hseg, hclose]
      -- the node itself is told of at the close, what is below it inside
      rw [visits_nodes, List.mem_cons, visits_descendants, List.mem_flatMap] at hv
      rcases hv with rfl | ⟨e, he, hv⟩
      · simp
      · refine List.mem_append_left _ ?_
        have hscalar := Tree.not_isScalar_of_mem_children he
        simp only [innerWalk, hscalar, Bool.false_eq_true, if_false] at h ⊢
        rw [Walk.events_joined (by rw [h]; rfl)]
        have hrej := Walk.joined_rejected_iff.mp h _ (List.mem_map_of_mem he)
        refine List.mem_flatMap.mpr ⟨_, List.mem_map_of_mem he, ?_⟩
        exact p.mem_childWalk_of_rejected (fun h v hv hx => ih e.1 e.2 he h hv hx) hrej hv hx

end Pattern

end TreeEdit
