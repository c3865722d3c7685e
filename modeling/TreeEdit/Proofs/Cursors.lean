import Mathlib.Data.List.TakeWhile
import TreeEdit.Proofs.CollapsedPatterns
import TreeEdit.Proofs.Lenses
import TreeEdit.Proofs.Stubs

/-!
# The cursors of a pattern

A cursor holds a position and a flag, but of the cursors that a pattern ever has the flag says
nothing new: it is raised exactly where a `**` stands right before the position. So a cursor is its
position (`Pattern.Reached.eq_of_pos`), two of them have the same left to match only if they are
one, and every advance takes one segment other than `**` (`Pattern.Settled`).

A run holds its cursor or advances it, so all cursors of a walk are of this kind
(`Pattern.Reached.of_run?`). An insertion compares its stubs by position alone. Those furthest along
share one cursor, and if no `**` is pending there none of them lies below another: on the way down
the cursor would have moved on (`Plan.furthest_eq_of_begins`).
-/

namespace TreeEdit

namespace Pattern

variable {p : Pattern} {a b c c' : Cursor} {m n : Nat}

/-- The cursor comes from the first one by so many advances, each with a segment left. -/
inductive Reached (p : Pattern) : Nat → Cursor → Prop where
  | start : Reached p 0 p.start
  | advance {n : Nat} {c : Cursor} :
      Reached p n c → p.isExhausted c = false → Reached p (n + 1) (p.advance c)

/-- The number of segments other than `**`. -/
def moves (p : Pattern) : Nat := (p.segments.filter (!·.isGreedy)).length

/-- The segment right before a position. -/
def segmentBefore? (p : Pattern) : Nat → Option Segment
  | 0 => none
  | i + 1 => p.segments[i]?

/-- What there is to know of a cursor after so many advances. -/
structure Settled (p : Pattern) (n : Nat) (c : Cursor) : Prop where
  rests : p.Rests c
  greedy : c.greedy = (p.segmentBefore? c.pos).any Segment.isGreedy
  left : n + (p.leftOver c).length = p.moves

/-! ## Cursors that have the same left -/

theorem length_eq_of_sameSegments {as bs : List Segment} (h : sameSegments as bs = true) :
    as.length = bs.length := by
  fun_induction sameSegments as bs with
  | case1 => rfl
  | case2 a as b bs ih =>
      rw [Bool.and_eq_true] at h
      rw [List.length_cons, List.length_cons, ih h.2]
  | case3 => cases h

/-- Cursors of one pattern have the same left to match only at one position. -/
theorem Rests.isEquivalent_iff (ha : p.Rests a) (hb : p.Rests b) :
    p.isEquivalent a b = true ↔ a.greedy = b.greedy ∧ a.pos = b.pos := by
  rw [isEquivalent, Bool.and_eq_true, decide_eq_true_eq]
  refine and_congr_right fun _ => ⟨fun h => ?_, fun h => ?_⟩
  · have hlen := length_eq_of_sameSegments h
    rw [remaining, remaining, List.length_drop, List.length_drop] at hlen
    have := ha.le
    have := hb.le
    omega
  · rw [remaining, remaining, h]
    exact Plan.sameSegments_refl _

/-! ## Every advance takes one segment -/

/-- Moving over a run of `**` raises the flag exactly if there are any. -/
theorem greedy_restAt_eq (h : (p.segmentBefore? m).any Segment.isGreedy = false) :
    (p.restAt m).greedy = (p.segmentBefore? (p.restAt m).pos).any Segment.isGreedy := by
  have hpos : (p.restAt m).pos = m + ((p.segments.drop m).takeWhile Segment.isGreedy).length := by
    rw [restAt, skipGreedy_eq]
  rw [greedy_restAt, hpos]
  cases hdrop : p.segments.drop m with
  | nil => simpa using h.symm
  | cons s rest =>
      cases hs : s.isGreedy with
      | false => simpa [hs] using h.symm
      | true =>
          -- the last of the `**` stands right before the new position
          have hlen : ((s :: rest).takeWhile Segment.isGreedy).length
              = (rest.takeWhile Segment.isGreedy).length + 1 := by
            rw [List.takeWhile_cons_of_pos hs, List.length_cons]
          have hi : (rest.takeWhile Segment.isGreedy).length
              < ((s :: rest).takeWhile Segment.isGreedy).length := by omega
          have hlast : ∃ g, p.segments[m + (rest.takeWhile Segment.isGreedy).length]? = some g
              ∧ g.isGreedy = true := by
            rw [← List.getElem?_drop, hdrop]
            exact ⟨_, List.prefix_iff_getElem?.mp (List.takeWhile_prefix _) _ hi,
              List.mem_takeWhile_imp (List.getElem_mem _)⟩
          obtain ⟨g, hg, hgreedy⟩ := hlast
          rw [hlen, ← Nat.add_assoc, segmentBefore?, hg]
          simp [hs, hgreedy]

theorem length_leftOver_restAt (m : Nat) :
    (p.leftOver (p.restAt m)).length = ((p.segments.drop m).filter (!·.isGreedy)).length := by
  have hcut := List.takeWhile_append_dropWhile (p := Segment.isGreedy) (l := p.segments.drop m)
  have hnone : ((p.segments.drop m).takeWhile Segment.isGreedy).filter (!·.isGreedy) = [] := by
    refine List.filter_eq_nil_iff.mpr fun s hs => ?_
    simp [List.mem_takeWhile_imp hs]
  rw [leftOver, remaining_restAt]
  conv_rhs => rw [← hcut, List.filter_append, hnone, List.nil_append]

theorem settled_start (p : Pattern) : p.Settled 0 p.start where
  rests := rests_restAt (Nat.zero_le _)
  greedy := greedy_restAt_eq rfl
  left := by
    rw [start_eq, length_leftOver_restAt, List.drop_zero, Nat.zero_add, moves]

/-- **An advance goes past the segment under the cursor**, which is no `**`. -/
theorem Settled.advance (h : p.Settled n c) (hx : p.isExhausted c = false) :
    p.Settled (n + 1) (p.advance c) := by
  obtain ⟨seg, hseg⟩ := (p.exhausted_or_segment? c).resolve_left (by simp [hx])
  have hbare := h.rests.bare hseg
  have hlt : c.pos < p.segments.length := (List.getElem?_eq_some_iff.mp hseg).1
  refine ⟨rests_restAt hlt, ?_, ?_⟩
  · rw [advance_eq]
    refine greedy_restAt_eq ?_
    rw [segmentBefore?, show p.segments[c.pos]? = some seg from hseg]
    exact hbare
  · have hleft := h.left
    have hone := leftOver_of_segment? hseg hbare
    rw [advance_eq, length_leftOver_restAt]
    omega

theorem Reached.settled (h : p.Reached n c) : p.Settled n c := by
  induction h with
  | start => exact settled_start p
  | advance _ hx ih => exact ih.advance hx

/-- A cursor is used up once it has been moved past every segment other than `**`. -/
theorem Settled.isExhausted_iff (h : p.Settled n c) : p.isExhausted c = true ↔ n = p.moves := by
  have hleft := h.left
  constructor
  · intro hx
    have hnone : p.leftOver c = [] := by
      rw [leftOver, p.remaining_eq_nil_iff.mpr hx, List.filter_nil]
    rw [hnone] at hleft
    exact hleft
  · intro hn
    refine (p.exhausted_or_segment? c).resolve_right ?_
    rintro ⟨seg, hseg⟩
    have hone := leftOver_of_segment? hseg (h.rests.bare hseg)
    omega

theorem exists_reached (hn : n ≤ p.moves) : ∃ c, p.Reached n c := by
  induction n with
  | zero => exact ⟨p.start, .start⟩
  | succ n ih =>
      obtain ⟨c, hc⟩ := ih (Nat.le_of_succ_le hn)
      refine ⟨p.advance c, hc.advance (Bool.eq_false_iff.mpr fun hx => ?_)⟩
      have := hc.settled.isExhausted_iff.mp hx
      omega

/-- **A cursor is its position.** -/
theorem Reached.eq_of_pos (ha : p.Reached m a) (hb : p.Reached n b) (h : a.pos = b.pos) :
    a = b := by
  have hgreedy : a.greedy = b.greedy := by rw [ha.settled.greedy, hb.settled.greedy, h]
  cases a
  cases b
  simp_all

theorem Reached.isEquivalent_iff (ha : p.Reached m a) (hb : p.Reached n b) :
    p.isEquivalent a b = true ↔ a = b := by
  rw [ha.settled.rests.isEquivalent_iff hb.settled.rests]
  exact ⟨fun h => ha.eq_of_pos hb h.2, fun h => ⟨congrArg _ h, congrArg _ h⟩⟩

/-! ## Cursors of runs -/

/-- A run holds its cursor or advances it. -/
theorem Reached.of_run? {l : Location} (hc : p.Reached n c) (h : p.run? c l = some c') :
    ∃ m, p.Reached m c' := by
  induction l generalizing n c with
  | nil =>
      obtain rfl := Option.some.inj h
      exact ⟨n, hc⟩
  | cons s l ih =>
      rw [run?_cons] at h
      obtain ⟨c₁, hstep, hrun⟩ := Option.bind_eq_some_iff.mp h
      obtain ⟨seg, hseg, ⟨-, rfl⟩ | ⟨-, -, rfl⟩⟩ := p.step?_cases hstep
      · exact ih (hc.advance (p.not_exhausted_of_segment? hseg)) hrun
      · exact ih hc hrun

theorem pos_le_of_run? {l : Location} (h : p.run? c l = some c') : c.pos ≤ c'.pos := by
  induction l generalizing c with
  | nil =>
      obtain rfl := Option.some.inj h
      exact Nat.le_refl _
  | cons s l ih =>
      rw [run?_cons] at h
      obtain ⟨c₁, hstep, hrun⟩ := Option.bind_eq_some_iff.mp h
      obtain ⟨seg, hseg, ⟨-, rfl⟩ | ⟨-, -, rfl⟩⟩ := p.step?_cases hstep
      · exact Nat.le_of_lt (Nat.lt_of_lt_of_le (p.lt_advance c) (ih hrun))
      · exact ih hrun

/-- A run with no `**` pending holds its cursor at no step. -/
theorem eq_nil_of_run?_self {l : Location} (h : p.run? c l = some c) (hg : c.greedy = false) :
    l = [] := by
  cases l with
  | nil => rfl
  | cons s l =>
      rw [run?_cons] at h
      obtain ⟨c₁, hstep, hrun⟩ := Option.bind_eq_some_iff.mp h
      have hlt := p.lt_advance c
      rw [← p.step?_of_not_greedy hstep hg] at hlt
      have := pos_le_of_run? hrun
      omega

end Pattern

/-! ## Stubs of an insertion -/

namespace Plan

variable {p : Pattern} {d : Tree} {a b : Stub}

theorem stubs_of_isRoot (hp : p.isRoot = true) : (ofWalk p (Verb.fullWalk p d)).stubs = [] := by
  simp [ofWalk, Verb.fullWalk, Pattern.walk, hp]

/-- A stub is a node of the document with the cursor of the run to it. -/
theorem visit_of_mem_stubs (ha : a ∈ (ofWalk p (Verb.fullWalk p d)).stubs) :
    p.run? p.start a.location = some a.cursor ∧ ∃ t, (a.location, t) ∈ d.nodes := by
  cases hp : p.isRoot with
  | true =>
      rw [stubs_of_isRoot hp] at ha
      cases ha
  | false =>
      obtain ⟨v, hv, rfl, -⟩ := exists_visit_of_mem_stubs hp ha
      obtain ⟨hnode, hrun⟩ := p.mem_visits.mp hv
      exact ⟨hrun, v.node, hnode⟩

/-- The sequences that were overrun are dead ends. -/
theorem extensions_subset_stubs (w : Walk) : (ofWalk p w).extensions ⊆ (ofWalk p w).stubs := by
  intro s hs
  obtain ⟨e, he, hext⟩ := List.mem_filterMap.mp hs
  refine List.mem_filterMap.mpr ⟨e, he, ?_⟩
  unfold extension? at hext
  split at hext
  · split at hext
    · split at hext
      · exact hext
      · cases hext
    · cases hext
  · cases hext

theorem reached_of_mem_stubs (ha : a ∈ (ofWalk p (Verb.fullWalk p d)).stubs) :
    ∃ n, p.Reached n a.cursor :=
  Pattern.Reached.start.of_run? (visit_of_mem_stubs ha).1

/-- Stubs equally far along have one cursor. -/
theorem cursor_eq_of_pos (ha : a ∈ (ofWalk p (Verb.fullWalk p d)).stubs)
    (hb : b ∈ (ofWalk p (Verb.fullWalk p d)).stubs) (h : a.cursor.pos = b.cursor.pos) :
    a.cursor = b.cursor := by
  obtain ⟨m, hm⟩ := reached_of_mem_stubs ha
  obtain ⟨n, hn⟩ := reached_of_mem_stubs hb
  exact hm.eq_of_pos hn h

/-- **Of the stubs furthest along none lies below another**, unless a `**` is pending. -/
theorem furthest_eq_of_begins (hd : d.DistinctKeys)
    (ha : a ∈ (ofWalk p (Verb.fullWalk p d)).furthest)
    (hb : b ∈ (ofWalk p (Verb.fullWalk p d)).furthest) (hg : a.cursor.greedy = false)
    (h : a.location.Begins b.location) : a.location = b.location := by
  obtain ⟨ha, hapos⟩ := List.mem_filter.mp ha
  obtain ⟨hb, hbpos⟩ := List.mem_filter.mp hb
  obtain ⟨hruna, t, ht⟩ := visit_of_mem_stubs ha
  obtain ⟨hrunb, u, hu⟩ := visit_of_mem_stubs hb
  have hpos : a.cursor.pos = b.cursor.pos :=
    (of_decide_eq_true hapos).trans (of_decide_eq_true hbpos).symm
  obtain ⟨n, k, hnk, hsame⟩ := Location.begins_iff.mp h
  -- the keys are those of the document, so the beginning is written the same
  have hreach := hd.reaches hu
  rw [hnk] at hreach
  obtain ⟨w, hw, -⟩ := hreach.of_append
  obtain rfl : a.location = n := (hd.reaches ht).eq_of_same hw hsame
  rw [hnk, p.run?_append, hruna, Option.bind_some, ← cursor_eq_of_pos ha hb hpos] at hrunb
  rw [hnk, Pattern.eq_nil_of_run?_self hrunb hg, List.append_nil]

/--
**A cursor is its position.** Of the cursors that advances lead to, the flag is raised exactly where
a `**` stands before the position; each stands on a segment other than `**` or at the end, and the
end is reached after as many advances as there are segments other than `**`. So the stubs of an
insertion that are equally far along share one cursor, and of those furthest along none lies below
another, unless a `**` is pending.
-/
theorem cursors_are_positions (p : Pattern) :
    (∀ n c, p.Reached n c →
      c.pos ≤ p.segments.length ∧ (∀ seg, p.segment? c = some seg → seg.isGreedy = false) ∧
      c.greedy = (p.segmentBefore? c.pos).any Segment.isGreedy ∧
      c.pos < (p.advance c).pos ∧ (p.isExhausted c = true ↔ n = p.moves)) ∧
    (∃ c, p.Reached p.moves c) ∧
    (∀ m n a b, p.Reached m a → p.Reached n b → (p.isEquivalent a b = true ↔ a = b)) ∧
    ∀ d : Tree, d.DistinctKeys →
      let plan := ofWalk p (Verb.fullWalk p d)
      plan.extensions ⊆ plan.stubs ∧
      (∀ a ∈ plan.stubs, ∀ b ∈ plan.stubs, a.cursor.pos = b.cursor.pos → a.cursor = b.cursor) ∧
      ∀ a ∈ plan.furthest, ∀ b ∈ plan.furthest, a.cursor.greedy = false →
        a.location.Begins b.location → a.location = b.location := by
  refine ⟨fun n c hc => ?_, Pattern.exists_reached (Nat.le_refl _),
    fun m n a b ha hb => ha.isEquivalent_iff hb, fun d hd => ?_⟩
  · have hsettled := hc.settled
    exact ⟨hsettled.rests.le, fun _ => hsettled.rests.bare, hsettled.greedy, p.lt_advance c,
      hsettled.isExhausted_iff⟩
  · exact ⟨extensions_subset_stubs _, fun a ha b hb => cursor_eq_of_pos ha hb,
      fun a ha b hb => furthest_eq_of_begins hd ha hb⟩

/-- Two sequences that are too short are equally far along, with a `**` passed before them. -/
theorem cursors_are_positions_siblings :
    let p : Pattern := ⟨"**.**.*.[2]", ".", [.greedy, .greedy, .wildcard, .index 2]⟩
    let d : Tree := .mapping [(.string "a", .sequence [.null]), (.string "b", .sequence [])]
    let a : Stub := ⟨[.key (.string "a")], ⟨3, false⟩⟩
    let b : Stub := ⟨[.key (.string "b")], ⟨3, false⟩⟩
    p.Reached 0 ⟨2, true⟩ ∧ p.Reached 1 ⟨3, false⟩ ∧ p.moves = 2 ∧
      p.isExhausted ⟨3, false⟩ = false ∧ p.isEquivalent ⟨2, true⟩ ⟨3, false⟩ = false ∧
      d.DistinctKeys ∧ (ofWalk p (Verb.fullWalk p d)).furthest = [a, b] ∧
      ¬ a.location.Begins b.location := by
  intro p d a b
  obtain ⟨hsettled, -, hequivalent, hstubs⟩ := cursors_are_positions p
  have hstart : p.Reached 0 ⟨2, true⟩ := .start
  have hnext : p.Reached 1 ⟨3, false⟩ := .advance hstart rfl
  have hd : d.DistinctKeys := by decide +kernel
  have hfurthest : (ofWalk p (Verb.fullWalk p d)).furthest = [a, b] := rfl
  obtain ⟨-, -, hbegins⟩ := hstubs d hd
  refine ⟨hstart, hnext, rfl, ?_, ?_, hd, hfurthest, fun h => ?_⟩
  · exact Bool.eq_false_iff.mpr fun hx => absurd ((hsettled 1 _ hnext).2.2.2.2.mp hx) (by decide)
  · exact Bool.eq_false_iff.mpr fun hx => absurd ((hequivalent _ _ _ _ hstart hnext).mp hx)
      (by decide)
  · have heq := hbegins a (by simp [hfurthest]) b (by simp [hfurthest]) rfl h
    exact absurd heq (by decide +kernel)

end Plan

end TreeEdit
