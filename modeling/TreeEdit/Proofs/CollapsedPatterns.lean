import Mathlib.Data.List.Forall2
import TreeEdit.Proofs.Reading

/-!
# Patterns that repeat `**`

A `**` right after another one asks for nothing more. Two patterns whose segments are the same once
every run of `**` is made one (`Pattern.collapsed`) are walked along in step. The cursors differ in
their positions only, and stand in both patterns before the same segments up to repetitions
(`Pattern.Renamed`). This module follows such a pair of cursors through a walk: the events come out
one for one, with the cursors in them renamed (`Pattern.renamed_fullWalk`).

Positions are compared when an insertion chooses the stubs that got furthest. They are renamed
monotonically (`Pattern.Renamed.pos_le_iff`), because a position says how many segments other than
`**` are left, and those are the same ones in both patterns.
-/

namespace TreeEdit

theorem Segment.eq_greedy {s : Segment} (h : s.isGreedy = true) : s = .greedy := by
  cases s with
  | greedy => rfl
  | literal _ _ | wildcard | index _ => cases h

namespace Pattern

/-! ## Runs of `**` made one -/

/-- The segments with every run of `**` made one: a `**` with another one behind it is left out. -/
def collapsed : List Segment → List Segment
  | [] => []
  | s :: rest =>
    if s.isGreedy && rest.head?.any Segment.isGreedy then collapsed rest else s :: collapsed rest

theorem collapsed_sublist (segments : List Segment) : (collapsed segments).Sublist segments := by
  induction segments with
  | nil => exact .slnil
  | cons s rest ih =>
      rw [collapsed]
      split
      · exact .cons _ ih
      · exact .cons_cons _ ih

/-- A segment that is not greedy is kept, whatever stands around it. -/
theorem collapsed_cons {s : Segment} (h : s.isGreedy = false) (rest : List Segment) :
    collapsed (s :: rest) = s :: collapsed rest := by
  simp [collapsed, h]

/-- What the left out `**` stands before. -/
theorem eq_greedy_cons {s : Segment} {rest : List Segment}
    (h : (s.isGreedy && rest.head?.any Segment.isGreedy) = true) :
    s = .greedy ∧ ∃ rest', rest = .greedy :: rest' := by
  rw [Bool.and_eq_true] at h
  refine ⟨Segment.eq_greedy h.1, ?_⟩
  cases rest with
  | nil => exact absurd h.2 (by decide)
  | cons s' rest' => exact ⟨rest', by rw [Segment.eq_greedy (s := s') (by simpa using h.2)]⟩

/-- Collapsing never touches the first segment. -/
theorem head?_collapsed (segments : List Segment) :
    (collapsed segments).head? = segments.head? := by
  induction segments with
  | nil => rfl
  | cons s rest ih =>
      rw [collapsed]
      split
      · rename_i h
        obtain ⟨rfl, rest', rfl⟩ := eq_greedy_cons h
        exact ih
      · rfl

theorem collapsed_eq_nil_iff {segments : List Segment} :
    collapsed segments = [] ↔ segments = [] := by
  rw [← List.head?_eq_none_iff, head?_collapsed, List.head?_eq_none_iff]

/-- A run of `**` at the front is passed in one go, repeated or not. -/
theorem collapsed_dropWhile (segments : List Segment) :
    collapsed (segments.dropWhile Segment.isGreedy)
      = (collapsed segments).dropWhile Segment.isGreedy := by
  induction segments with
  | nil => rfl
  | cons s rest ih =>
      cases hs : s.isGreedy with
      | false => rw [collapsed_cons hs, List.dropWhile_cons, List.dropWhile_cons, hs,
          if_neg Bool.false_ne_true, if_neg Bool.false_ne_true, collapsed_cons hs]
      | true =>
          rw [List.dropWhile_cons, hs, if_pos rfl, ih, collapsed]
          split
          · rfl
          · rw [List.dropWhile_cons, hs, if_pos rfl]

/-- No segment other than `**` gets lost. -/
theorem filter_collapsed (segments : List Segment) :
    (collapsed segments).filter (!·.isGreedy) = segments.filter (!·.isGreedy) := by
  induction segments with
  | nil => rfl
  | cons s rest ih =>
      rw [collapsed]
      split
      · rename_i h
        rw [Bool.and_eq_true] at h
        rw [ih, List.filter_cons_of_neg (by simp [h.1])]
      · rw [List.filter_cons, List.filter_cons, ih]

theorem all_isGreedy_iff {segments : List Segment} :
    segments.all Segment.isGreedy = true ↔ segments.filter (!·.isGreedy) = [] := by
  simp

/-! ## Cursors that rest on no `**` -/

/-- The cursor at a position, moved over the `**` there. -/
def restAt (p : Pattern) (n : Nat) : Cursor := skipGreedy ⟨n, false⟩ (p.segments.drop n)

/-- The cursor is within the segments and rests on no `**`. -/
structure Rests (p : Pattern) (c : Cursor) : Prop where
  le : c.pos ≤ p.segments.length
  bare : ∀ {seg : Segment}, p.segment? c = some seg → seg.isGreedy = false

theorem start_eq (p : Pattern) : p.start = p.restAt 0 := rfl

theorem advance_eq (p : Pattern) (c : Cursor) : p.advance c = p.restAt (c.pos + 1) := rfl

theorem skipGreedy_eq (c : Cursor) (segments : List Segment) :
    skipGreedy c segments = ⟨c.pos + (segments.takeWhile Segment.isGreedy).length,
      c.greedy || segments.head?.any Segment.isGreedy⟩ := by
  induction segments generalizing c with
  | nil => simp [skipGreedy]
  | cons s rest ih =>
      cases s with
      | greedy =>
          rw [skipGreedy, ih, List.takeWhile_cons_of_pos rfl, List.length_cons]
          simp [Segment.isGreedy, Nat.add_assoc, Nat.add_comm 1]
      | literal _ _ | wildcard | index _ => simp [skipGreedy, Segment.isGreedy]

variable {p q : Pattern} {c d c' d' : Cursor}

/-- The flag of a rest tells whether a greedy segment stands before it. -/
theorem greedy_restAt (n : Nat) :
    (p.restAt n).greedy = (p.segments.drop n).head?.any Segment.isGreedy := by
  rw [restAt, skipGreedy_eq, Bool.false_or]

theorem remaining_restAt (n : Nat) :
    p.remaining (p.restAt n) = (p.segments.drop n).dropWhile Segment.isGreedy := by
  have hcut := List.takeWhile_append_dropWhile (p := Segment.isGreedy) (l := p.segments.drop n)
  rw [remaining, restAt, skipGreedy_eq, ← List.drop_drop]
  calc (p.segments.drop n).drop ((p.segments.drop n).takeWhile Segment.isGreedy).length
      = List.drop ((p.segments.drop n).takeWhile Segment.isGreedy).length
          ((p.segments.drop n).takeWhile Segment.isGreedy
            ++ (p.segments.drop n).dropWhile Segment.isGreedy) := by rw [hcut]
    _ = (p.segments.drop n).dropWhile Segment.isGreedy := List.drop_left

theorem rests_restAt {n : Nat} (h : n ≤ p.segments.length) : p.Rests (p.restAt n) := by
  constructor
  · have hlen := ((p.segments.drop n).takeWhile_sublist Segment.isGreedy).length_le
    rw [List.length_drop] at hlen
    rw [restAt, skipGreedy_eq]
    show n + _ ≤ _
    omega
  · intro seg hseg
    have hrem := p.remaining_eq_cons_iff.mpr ⟨hseg, rfl⟩
    rw [remaining_restAt] at hrem
    have := List.head?_dropWhile_not Segment.isGreedy (p.segments.drop n)
    rw [hrem] at this
    simpa using this

/-! ## Cursors of two patterns -/

/-- Cursors at one place of two patterns that are the same but for repeated `**`. -/
structure Renamed (p q : Pattern) (c d : Cursor) : Prop where
  left : p.Rests c
  right : q.Rests d
  greedy : c.greedy = d.greedy
  remaining : collapsed (p.remaining c) = collapsed (q.remaining d)

/-- Rests of two patterns that collapse alike are names for each other. -/
theorem Renamed.of_drop {m n : Nat} (hm : m ≤ p.segments.length) (hn : n ≤ q.segments.length)
    (h : collapsed (p.segments.drop m) = collapsed (q.segments.drop n)) :
    Renamed p q (p.restAt m) (q.restAt n) where
  left := rests_restAt hm
  right := rests_restAt hn
  greedy := by rw [greedy_restAt, greedy_restAt, ← head?_collapsed, h, head?_collapsed]
  remaining := by
    rw [remaining_restAt, remaining_restAt, collapsed_dropWhile, h, collapsed_dropWhile]

theorem renamed_start (h : collapsed p.segments = collapsed q.segments) :
    Renamed p q p.start q.start := by
  rw [start_eq, start_eq]
  exact .of_drop (Nat.zero_le _) (Nat.zero_le _) h

namespace Renamed

/-- Both are used up, or stand on one segment with the same behind it up to repetitions. -/
theorem remaining_cases (h : Renamed p q c d) :
    (p.remaining c = [] ∧ q.remaining d = []) ∨
      ∃ seg rest rest', p.remaining c = seg :: rest ∧ q.remaining d = seg :: rest' ∧
        seg.isGreedy = false ∧ collapsed rest = collapsed rest' := by
  have hrem := h.remaining
  cases hp : p.remaining c with
  | nil =>
      rw [hp] at hrem
      exact .inl ⟨rfl, collapsed_eq_nil_iff.mp hrem.symm⟩
  | cons seg rest =>
      have hseg := h.left.bare (p.remaining_eq_cons_iff.mp hp).1
      rw [hp, collapsed_cons hseg] at hrem
      have hhead := head?_collapsed (q.remaining d)
      rw [← hrem, List.head?_cons] at hhead
      obtain ⟨rest', hq⟩ := List.head?_eq_some_iff.mp hhead.symm
      rw [hq, collapsed_cons hseg] at hrem
      exact .inr ⟨seg, rest, rest', rfl, hq, hseg, (List.cons.inj hrem).2⟩

/-- Cursors that are names for each other stand before the same segment. -/
theorem segment?_eq (h : Renamed p q c d) : p.segment? c = q.segment? d := by
  rcases h.remaining_cases with ⟨hp, hq⟩ | ⟨seg, rest, rest', hp, hq, -, -⟩
  · rw [p.segment?_eq_none_iff.mpr (p.remaining_eq_nil_iff.mp hp),
      q.segment?_eq_none_iff.mpr (q.remaining_eq_nil_iff.mp hq)]
  · rw [(p.remaining_eq_cons_iff.mp hp).1, (q.remaining_eq_cons_iff.mp hq).1]

theorem isExhausted_eq (h : Renamed p q c d) : p.isExhausted c = q.isExhausted d := by
  rw [Bool.eq_iff_iff, ← p.segment?_eq_none_iff, ← q.segment?_eq_none_iff, h.segment?_eq]

/-- Cursors that have moved on from one segment stand at one place again. -/
theorem advance (h : Renamed p q c d) {seg : Segment} (hseg : p.segment? c = some seg) :
    Renamed p q (p.advance c) (q.advance d) := by
  rcases h.remaining_cases with ⟨hp, -⟩ | ⟨seg', rest, rest', hp, hq, -, hrest⟩
  · rw [p.segment?_eq_none_iff.mpr (p.remaining_eq_nil_iff.mp hp)] at hseg
    cases hseg
  · obtain ⟨hsegp, rfl⟩ := p.remaining_eq_cons_iff.mp hp
    obtain ⟨hsegq, rfl⟩ := q.remaining_eq_cons_iff.mp hq
    rw [advance_eq, advance_eq]
    refine .of_drop ?_ ?_ hrest
    · exact (List.getElem?_eq_some_iff.mp hsegp).1
    · exact (List.getElem?_eq_some_iff.mp hsegq).1

/-- **A step is taken in both patterns or in neither**, and leads to one place. -/
theorem step? (h : Renamed p q c d) (s : Step) :
    Option.Rel (Renamed p q) (p.step? c s) (q.step? d s) := by
  unfold Pattern.step?
  rw [← h.segment?_eq, ← h.greedy]
  cases hseg : p.segment? c with
  | none => exact .none
  | some seg =>
      simp only
      split
      · exact .some (h.advance hseg)
      · split
        · exact .some h
        · exact .none

theorem refuses_eq (h : Renamed p q c d) (e : Step × Tree) : p.refuses c e = q.refuses d e := by
  unfold refuses
  rw [h.segment?_eq, h.greedy]

theorem selfMatch_eq (h : Renamed p q c d) (t : Tree) : p.selfMatch c t = q.selfMatch d t := by
  unfold selfMatch
  rw [h.greedy]
  rcases h.remaining_cases with ⟨hp, hq⟩ | ⟨seg, rest, rest', hp, hq, -, hrest⟩
  · rw [hp, hq]
  · rw [hp, hq]
    cases rest with
    | nil => rw [collapsed_eq_nil_iff.mp hrest.symm]
    | cons s rest =>
        have hne : rest' ≠ [] := by
          intro hnil
          rw [hnil] at hrest
          exact absurd (collapsed_eq_nil_iff.mp hrest) (List.cons_ne_nil _ _)
        obtain ⟨s', rest'', rfl⟩ := List.exists_cons_of_ne_nil hne
        cases seg <;> rfl

end Renamed

/-! ## Positions -/

/-- The segments other than `**` that are left. -/
def leftOver (p : Pattern) (c : Cursor) : List Segment :=
  (p.remaining c).filter (!·.isGreedy)

theorem leftOver_of_segment? {seg : Segment} (h : p.segment? c = some seg)
    (hseg : seg.isGreedy = false) :
    (p.leftOver c).length
      = ((p.segments.drop (c.pos + 1)).filter (!·.isGreedy)).length + 1 := by
  rw [leftOver, p.remaining_eq_cons_iff.mpr ⟨h, rfl⟩, List.filter_cons_of_pos (by simp [hseg]),
    List.length_cons]

/-- A cursor that rests is further along the fewer segments are left. -/
theorem Rests.pos_le_iff (h : p.Rests c) (h' : p.Rests c') :
    c.pos ≤ c'.pos ↔ (p.leftOver c').length ≤ (p.leftOver c).length := by
  have hmono : ∀ {m n : Nat}, m ≤ n → ((p.segments.drop n).filter (!·.isGreedy)).length
      ≤ ((p.segments.drop m).filter (!·.isGreedy)).length := fun hmn =>
    ((List.drop_sublist_drop_left p.segments hmn).filter _).length_le
  constructor
  · exact hmono
  · intro hle
    by_contra hlt
    -- the segment under the cursor that is behind is left there, but not at the other one
    have hpos : c'.pos < p.segments.length := by have := h.le; omega
    have hseg : p.segment? c' = some p.segments[c'.pos] := List.getElem?_eq_getElem hpos
    have hcount := leftOver_of_segment? hseg (h'.bare hseg)
    have hle' := hmono (show c'.pos + 1 ≤ c.pos by omega)
    change (p.leftOver c).length ≤ _ at hle'
    omega

namespace Renamed

/-- **Positions are renamed monotonically.** -/
theorem pos_le_iff (h : Renamed p q c d) (h' : Renamed p q c' d') :
    c.pos ≤ c'.pos ↔ d.pos ≤ d'.pos := by
  have hleft : ∀ {c d}, Renamed p q c d → p.leftOver c = q.leftOver d := by
    intro c d h
    rw [leftOver, leftOver, ← filter_collapsed, h.remaining, filter_collapsed]
  rw [h.left.pos_le_iff h'.left, h.right.pos_le_iff h'.right, hleft h, hleft h']

/-- The renaming is one to one, so it keeps which cursors are equal. -/
theorem pos_eq_iff (h : Renamed p q c d) (h' : Renamed p q c' d') :
    c.pos = c'.pos ↔ d.pos = d'.pos := by
  have := h.pos_le_iff h'
  have := h'.pos_le_iff h
  omega

end Renamed

end Pattern

/-! ## Walks -/

/-- Events that tell the same of one node, with renamed cursors. -/
inductive Event.Renamed (p q : Pattern) : Event → Event → Prop where
  | partway {l : Location} {t : Tree} {c d : Cursor} :
      p.Renamed q c d → Renamed p q (.partway l t c) (.partway l t d)
  | found {l : Location} {t : Tree} : Renamed p q (.found l t) (.found l t)
  | deadEnd {l : Location} {t : Tree} {c d : Cursor} {um : Option Step} :
      p.Renamed q c d → Renamed p q (.deadEnd l t c um) (.deadEnd l t d um)

/-- Walks that tell the same event for event, with renamed cursors. -/
structure Walk.Renamed (p q : Pattern) (w v : Walk) : Prop where
  accepted : w.accepted = v.accepted
  events : List.Forall₂ (Event.Renamed p q) w.events v.events

namespace Walk.Renamed

variable {p q : Pattern} {w v w' v' : Walk}

theorem nothing : Renamed p q .nothing .nothing := ⟨rfl, .nil⟩

theorem one {e f : Event} (h : Event.Renamed p q e f) (x : Bool) :
    Renamed p q (.one e x) (.one f x) := ⟨rfl, .cons h .nil⟩

theorem append (h : Renamed p q w v) (h' : Renamed p q w' v') :
    Renamed p q (w ++ w') (v ++ v') := by
  rw [append_def, append_def, Walk.append, Walk.append, ← h.accepted]
  cases w.accepted with
  | none => exact h
  | some x => exact ⟨by simp only [h'.accepted], List.rel_append h.events h'.events⟩

theorem joined {α : Type} {f g : α → Walk} {as : List α}
    (h : ∀ x ∈ as, Renamed p q (f x) (g x)) :
    Renamed p q (joined (as.map f)) (joined (as.map g)) :=
  joined_map nothing append h

/-- A node under which nothing was found is reported in both walks. -/
theorem closeNode (h : Renamed p q w v) {c d : Cursor} (hc : p.Renamed q c d) (l : Location)
    (t : Tree) : Renamed p q (Pattern.closeNode l t c w) (Pattern.closeNode l t d v) := by
  unfold Pattern.closeNode
  rw [← h.accepted]
  split
  · exact h.append (one (.deadEnd hc) false)
  · exact h

/-- The same nodes are found. -/
theorem foundNodes_eq (h : Renamed p q w v) : w.foundNodes = v.foundNodes := by
  rw [← List.forall₂_eq_eq_eq]
  refine List.rel_filterMap (fun e f hef => ?_) h.events
  cases hef with
  | found => exact .some rfl
  | partway | deadEnd => exact .none

end Walk.Renamed

namespace Pattern

variable {p q : Pattern} {c d : Cursor}

/-- One child, the walks below it being renamed already. -/
theorem renamed_childWalk (h : Renamed p q c d) (l : Location) (node : Tree) (e : Step × Tree)
    (ih : ∀ {c' d' : Cursor}, Renamed p q c' d' →
      Walk.Renamed p q (p.visit yes c' (l ++ [e.1]) e.2) (q.visit yes d' (l ++ [e.1]) e.2)) :
    Walk.Renamed p q (p.childWalk yes c l node e) (q.childWalk yes d l node e) := by
  have hstep := h.step? e.1
  unfold childWalk
  rw [← h.refuses_eq]
  split
  · exact ⟨rfl, .nil⟩
  · obtain ⟨s, u⟩ := e
    cases hp : p.step? c s with
    | none =>
        rw [hp] at hstep
        cases hq : q.step? d s with
        | some d' => rw [hq] at hstep; cases hstep
        | none =>
            cases s with
            | key k => exact .one (.deadEnd h) false
            | index i => exact .nothing
    | some c' =>
        rw [hp] at hstep
        cases hq : q.step? d s with
        | none => rw [hq] at hstep; cases hstep
        | some d' =>
            rw [hq] at hstep
            obtain ⟨h'⟩ := hstep
            simp only
            cases hx : p.isExhausted c' with
            | true =>
                rw [p.enter_of_exhausted hx, q.enter_of_exhausted (h'.isExhausted_eq ▸ hx)]
                exact .one .found true
            | false =>
                rw [p.enter_of_not_exhausted hx, q.enter_of_not_exhausted (h'.isExhausted_eq ▸ hx)]
                exact (Walk.Renamed.one (.partway h') false).append (ih h')

/-- **From renamed cursors one walk is told.** -/
theorem renamed_visit (h : Renamed p q c d) (l : Location) (t : Tree) :
    Walk.Renamed p q (p.visit yes c l t) (q.visit yes d l t) := by
  induction t using Tree.childInduction generalizing c d l with
  | step t ih =>
    rcases p.exhausted_or_segment? c with hc | ⟨seg, hseg⟩
    · rw [p.visit_of_exhausted hc, q.visit_of_exhausted (h.isExhausted_eq ▸ hc)]
      exact .nothing
    · rw [visit_eq p yes hseg, visit_eq q yes (h.segment?_eq ▸ hseg)]
      refine Walk.Renamed.closeNode ?_ h l t
      unfold innerWalk
      split
      · rw [matchSelf_eq, matchSelf_eq, ← h.selfMatch_eq]
        split
        · exact .one .found true
        · exact .nothing
      · exact .joined fun e he => renamed_childWalk h l t e fun h' => ih e.1 e.2 he h' _

theorem isRoot_eq (h : collapsed p.segments = collapsed q.segments) : p.isRoot = q.isRoot := by
  rw [Bool.eq_iff_iff, isRoot, isRoot, all_isGreedy_iff, all_isGreedy_iff, ← filter_collapsed, h,
    filter_collapsed]

/-- **Patterns that are the same but for repeated `**` tell one walk of every document.** -/
theorem renamed_fullWalk (h : collapsed p.segments = collapsed q.segments) (document : Tree) :
    Walk.Renamed p q (Verb.fullWalk p document) (Verb.fullWalk q document) := by
  cases hp : p.isRoot with
  | true =>
      have hq : q.isRoot = true := isRoot_eq h ▸ hp
      rw [Verb.fullWalk, Verb.fullWalk, walk, walk, if_pos hp, if_pos hq]
      exact ⟨rfl, .nil⟩
  | false =>
      rw [Verb.fullWalk_eq hp, Verb.fullWalk_eq (isRoot_eq h ▸ hp)]
      exact renamed_visit (renamed_start h) [] document

end Pattern

end TreeEdit
