import TreeEdit.Pattern.Basic
import TreeEdit.Proofs.Nodes

/-!
# The run of a cursor along a location

A pattern says of a single location whether it matches, without any walk: the cursor starts at the
first segment and takes the steps of the location one by one. A step that the segment under it
matches moves it on; any other step leaves it where it is if a `**` is pending and ends the run
otherwise. `Pattern.run?` is that run. A location has at most one, and every statement about walks,
matches and changes is about the cursor that a location has.

`Pattern.visits` lists the places of a document where the run lives, in preorder and with their
cursors.
-/

namespace TreeEdit

/-- Whether the segment matches a step. -/
def Segment.matchesStep (seg : Segment) : Step → Bool
  | .key k => seg.matchesKey k
  | .index i => seg.matchesIndex i

/-- A place of a document where a run lives, with its cursor. -/
structure Visit where
  location : Location
  node : Tree
  cursor : Cursor

namespace Visit

/-- The place seen from one step further up. -/
def under (s : Step) (v : Visit) : Visit := { v with location := s :: v.location }

end Visit

namespace Pattern

variable (p : Pattern)

/-- The cursor after one more step, if the run lives on. -/
def step? (c : Cursor) (s : Step) : Option Cursor :=
  match p.segment? c with
  | none => none
  | some seg =>
    if seg.matchesStep s then some (p.advance c) else if c.greedy then some c else none

/-- The cursor after the steps of a location, if the run lives. -/
def run? (c : Cursor) : Location → Option Cursor
  | [] => some c
  | s :: l => (p.step? c s).bind fun c' => run? c' l

/-- The listed nodes where the run from a cursor lives. -/
def visits (c : Cursor) (ns : List (Location × Tree)) : List Visit :=
  ns.filterMap fun n => (p.run? c n.1).map fun c' => ⟨n.1, n.2, c'⟩

/-! ## Cursors move on -/

theorem le_skipGreedy (c : Cursor) (segments : List Segment) :
    c.pos ≤ (skipGreedy c segments).pos := by
  fun_induction skipGreedy c segments with
  | case1 c rest ih => exact Nat.le_trans (Nat.le_succ _) ih
  | case2 => exact Nat.le_refl _

theorem lt_advance (c : Cursor) : c.pos < (p.advance c).pos :=
  le_skipGreedy ⟨c.pos + 1, false⟩ _

/-- Without a `**` in the way a cursor moves on by one. -/
theorem advance_of_not_greedy {c : Cursor}
    (h : ∀ seg, p.segments[c.pos + 1]? = some seg → seg.isGreedy = false) :
    p.advance c = ⟨c.pos + 1, false⟩ := by
  unfold advance
  cases hd : p.segments.drop (c.pos + 1) with
  | nil => rfl
  | cons seg rest =>
      have hseg : p.segments[c.pos + 1]? = some seg := by
        rw [← List.head?_drop, hd, List.head?_cons]
      have := h seg hseg
      cases seg with
      | greedy => exact absurd this (by decide)
      | literal _ _ | wildcard | index _ => rfl

theorem segment?_eq_none_iff {c : Cursor} : p.segment? c = none ↔ p.isExhausted c = true := by
  simp [segment?, isExhausted]

theorem remaining_eq_nil_iff {c : Cursor} : p.remaining c = [] ↔ p.isExhausted c = true := by
  simp [remaining, isExhausted]

/-- The segments left begin with the one under the cursor. -/
theorem remaining_eq_cons_iff {c : Cursor} {seg : Segment} {rest : List Segment} :
    p.remaining c = seg :: rest ↔
      p.segment? c = some seg ∧ p.segments.drop (c.pos + 1) = rest := by
  unfold remaining segment?
  constructor
  · intro h
    refine ⟨?_, ?_⟩
    · rw [← List.head?_drop, h, List.head?_cons]
    · rw [← List.tail_drop, h, List.tail_cons]
  · rintro ⟨h, rfl⟩
    obtain ⟨hlt, rfl⟩ := List.getElem?_eq_some_iff.mp h
    exact List.drop_eq_getElem_cons hlt

/-- A pattern that is not for the whole document has a first segment. -/
theorem exists_segment?_start (h : p.isRoot = false) : ∃ seg, p.segment? p.start = some seg := by
  -- `pre` is what has been skipped already
  have hskip : ∀ (segments pre : List Segment) (g : Bool),
      segments.all Segment.isGreedy = false →
      ∃ seg, (pre ++ segments)[(skipGreedy ⟨pre.length, g⟩ segments).pos]? = some seg := by
    intro segments
    induction segments with
    | nil => intro pre g hall; exact absurd hall (by decide)
    | cons seg rest ih =>
        intro pre g hall
        cases seg with
        | greedy =>
            have hrest : rest.all Segment.isGreedy = false := by simpa [Segment.isGreedy] using hall
            obtain ⟨seg', hseg'⟩ := ih (pre ++ [.greedy]) true hrest
            refine ⟨seg', ?_⟩
            simpa [skipGreedy] using hseg'
        | literal _ _ | wildcard | index _ => exact ⟨_, by simp [skipGreedy]; rfl⟩
  obtain ⟨seg, hseg⟩ := hskip p.segments [] false h
  exact ⟨seg, hseg⟩

/-! ## Steps of a run -/

theorem step?_of_exhausted {c : Cursor} (h : p.isExhausted c = true) (s : Step) :
    p.step? c s = none := by
  unfold step?
  rw [p.segment?_eq_none_iff.mpr h]

/-- A step moves the cursor on, or leaves a greedy one where it is. -/
theorem step?_cases {c c' : Cursor} {s : Step} (h : p.step? c s = some c') :
    ∃ seg, p.segment? c = some seg ∧
      ((seg.matchesStep s = true ∧ c' = p.advance c) ∨
        (seg.matchesStep s = false ∧ c.greedy = true ∧ c' = c)) := by
  unfold step? at h
  split at h
  · cases h
  · rename_i seg hseg
    refine ⟨seg, hseg, ?_⟩
    split at h
    · rename_i hm
      exact .inl ⟨hm, (Option.some.inj h).symm⟩
    · rename_i hm
      split at h
      · rename_i hg
        exact .inr ⟨by simpa using hm, hg, (Option.some.inj h).symm⟩
      · cases h

theorem step?_eq_none_iff {c : Cursor} {seg : Segment} (hseg : p.segment? c = some seg) {s : Step} :
    p.step? c s = none ↔ seg.matchesStep s = false ∧ c.greedy = false := by
  unfold step?
  rw [hseg]
  by_cases hm : seg.matchesStep s = true
  · simp [hm]
  · by_cases hg : c.greedy = true
    · simp [hm, hg]
    · simp [hm, hg]

/-- A cursor with no `**` pending moves on with every step. -/
theorem step?_of_not_greedy {c c' : Cursor} {s : Step} (h : p.step? c s = some c')
    (hg : c.greedy = false) : c' = p.advance c := by
  obtain ⟨seg, -, ⟨-, hc⟩ | ⟨-, hgreedy, -⟩⟩ := p.step?_cases h
  · exact hc
  · rw [hg] at hgreedy; exact absurd hgreedy (by decide)

theorem run?_cons (c : Cursor) (s : Step) (l : Location) :
    p.run? c (s :: l) = (p.step? c s).bind fun c' => p.run? c' l := rfl

theorem run?_append (c : Cursor) (l m : Location) :
    p.run? c (l ++ m) = (p.run? c l).bind fun c' => p.run? c' m := by
  induction l generalizing c with
  | nil => rfl
  | cons s l ih =>
      simp only [List.cons_append, run?_cons]
      cases p.step? c s with
      | none => rfl
      | some c' => exact ih c'

/-- The run ends where the pattern is used up. -/
theorem eq_nil_of_run?_of_exhausted {c c' : Cursor} {l : Location} (h : p.run? c l = some c')
    (hc : p.isExhausted c = true) : l = [] ∧ c' = c := by
  cases l with
  | nil => exact ⟨rfl, (Option.some.inj h).symm⟩
  | cons s l => rw [run?_cons, p.step?_of_exhausted hc] at h; cases h

/-! ## The places where a run lives -/

/-- The places at and below a child. -/
def visitsOfChild (c : Cursor) (e : Step × Tree) : List Visit :=
  match p.step? c e.1 with
  | none => []
  | some c' => (p.visits c' e.2.nodes).map (Visit.under e.1)

theorem visits_under (c : Cursor) (e : Step × Tree) :
    p.visits c (Tree.under e.1 e.2.nodes) = p.visitsOfChild c e := by
  unfold visits visitsOfChild Tree.under
  rw [List.filterMap_map]
  cases hs : p.step? c e.1 with
  | none => simp [run?_cons, hs]
  | some c' =>
      simp only [visits, List.map_filterMap, Option.map_map, Function.comp_def, run?_cons, hs]
      rfl

theorem visits_descendants (c : Cursor) (t : Tree) :
    p.visits c t.descendants = t.children.flatMap (p.visitsOfChild c) := by
  rw [Tree.descendants_eq]
  induction t.children with
  | nil => rfl
  | cons e es ih =>
      rw [List.flatMap_cons, List.flatMap_cons, ← ih, ← visits_under]
      simp [visits]

theorem visits_nodes (c : Cursor) (t : Tree) :
    p.visits c t.nodes = ⟨[], t, c⟩ :: p.visits c t.descendants := rfl

/-- Where the pattern is used up the run goes no further. -/
theorem visits_of_exhausted {c : Cursor} (h : p.isExhausted c = true) (t : Tree) :
    p.visits c t.nodes = [⟨[], t, c⟩] := by
  have hchild : ∀ e, p.visitsOfChild c e = [] := by
    intro e; unfold visitsOfChild; rw [p.step?_of_exhausted h]
  rw [visits_nodes, visits_descendants]
  simp [hchild]

theorem mem_visits {c : Cursor} {ns : List (Location × Tree)} {v : Visit} :
    v ∈ p.visits c ns ↔ (v.location, v.node) ∈ ns ∧ p.run? c v.location = some v.cursor := by
  simp only [visits, List.mem_filterMap, Option.map_eq_some_iff]
  constructor
  · rintro ⟨n, hn, c', hc', rfl⟩; exact ⟨hn, hc'⟩
  · rintro ⟨hn, hc⟩; exact ⟨_, hn, _, hc, rfl⟩

end Pattern

end TreeEdit
