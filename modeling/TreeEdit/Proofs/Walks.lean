import TreeEdit.Pattern.Walk
import TreeEdit.Proofs.Run

/-!
# A walk, node by node

The walk of a node is the walks of its children one after the other, with a dead end at the close
if nothing was accepted (`visit_eq`). Mappings and sequences differ only in what an unmatched child
gives, and scalars have no children.

The next module draws from this one equation, for the walk in which every event is answered yes,

* when it has to stop (`isSome_accepted_visit`),
* what it finds and in which order (`foundNodes_visit`),
* which sequences it says were overrun (`extensions_visit`), and
* where its dead ends are (`deadEnd_of_mem_visit`, `mem_visit_of_rejected`),

each in terms of the places where the run of a cursor lives (`Pattern.visits`).
-/

namespace TreeEdit

namespace Walk

/-- Walks one after the other. -/
def joined : List Walk → Walk
  | [] => .nothing
  | w :: ws => w ++ joined ws

theorem append_def (a b : Walk) : a ++ b = a.append b := rfl

theorem nothing_append (w : Walk) : .nothing ++ w = w := by
  obtain ⟨events, accepted⟩ := w
  cases accepted <;> rfl

theorem isSome_accepted_append (a b : Walk) :
    (a ++ b).accepted.isSome = (a.accepted.isSome && b.accepted.isSome) := by
  rw [append_def, append]
  cases ha : a.accepted with
  | none => simp [ha]
  | some x => simp

/-- After a walk that went through, the next one goes on with its events. -/
theorem events_append {a b : Walk} (h : a.accepted.isSome = true) :
    (a ++ b).events = a.events ++ b.events := by
  rw [append_def, append]
  cases ha : a.accepted with
  | none => rw [ha] at h; exact absurd h (by decide)
  | some x => rfl

theorem accepted_append {a b : Walk} {x : Bool} (h : (a ++ b).accepted = some x) :
    ∃ y z, a.accepted = some y ∧ b.accepted = some z ∧ x = (y || z) := by
  rw [append_def, append] at h
  cases ha : a.accepted with
  | none => rw [ha] at h; rw [ha] at h; cases h
  | some y =>
      rw [ha] at h
      obtain ⟨z, hz, rfl⟩ := Option.map_eq_some_iff.mp h
      exact ⟨y, z, rfl, hz, rfl⟩

/-- Events come from one of the parts, even if the first one had to stop. -/
theorem mem_events_append {a b : Walk} {e : Event} (h : e ∈ (a ++ b).events) :
    e ∈ a.events ∨ e ∈ b.events := by
  rw [append_def, append] at h
  cases ha : a.accepted with
  | none => rw [ha] at h; exact .inl h
  | some x => rw [ha] at h; exact List.mem_append.mp h

/-- A relation that is kept when walks are put behind one another is kept when they are joined. -/
theorem joined_map {α : Type} {R : Walk → Walk → Prop} (hnothing : R .nothing .nothing)
    (happend : ∀ {w v w' v' : Walk}, R w v → R w' v' → R (w ++ w') (v ++ v')) {f g : α → Walk}
    {as : List α} (h : ∀ x ∈ as, R (f x) (g x)) :
    R (joined (as.map f)) (joined (as.map g)) := by
  induction as with
  | nil => exact hnothing
  | cons x as ih =>
      have hrest := ih fun y hy => h y (List.mem_cons_of_mem _ hy)
      exact happend (h x (List.mem_cons_self ..)) hrest

theorem isSome_accepted_joined (ws : List Walk) :
    (joined ws).accepted.isSome = true ↔ ∀ w ∈ ws, w.accepted.isSome = true := by
  induction ws with
  | nil => simp [joined, nothing]
  | cons w ws ih => simp [joined, isSome_accepted_append, ih]

/-- Walks in a row that went through tell the events of each in turn. -/
theorem events_joined {ws : List Walk} (h : (joined ws).accepted.isSome = true) :
    (joined ws).events = ws.flatMap Walk.events := by
  induction ws with
  | nil => rfl
  | cons w ws ih =>
      rw [joined, isSome_accepted_append, Bool.and_eq_true] at h
      rw [joined, events_append h.1, ih h.2, List.flatMap_cons]

theorem mem_events_joined {ws : List Walk} {e : Event} (h : e ∈ (joined ws).events) :
    ∃ w ∈ ws, e ∈ w.events := by
  induction ws with
  | nil => exact absurd h (List.not_mem_nil)
  | cons w ws ih =>
      rcases mem_events_append h with h | h
      · exact ⟨w, List.mem_cons_self .., h⟩
      · obtain ⟨w', hw', he⟩ := ih h
        exact ⟨w', List.mem_cons_of_mem _ hw', he⟩

/-- Nothing was accepted on a joined walk exactly if nothing was on any part of it. -/
theorem joined_rejected_iff {ws : List Walk} :
    (joined ws).accepted = some false ↔ ∀ w ∈ ws, w.accepted = some false := by
  induction ws with
  | nil => simp [joined, nothing]
  | cons w ws ih =>
      rw [joined]
      simp only [List.mem_cons, forall_eq_or_imp, ← ih]
      constructor
      · intro h
        obtain ⟨y, z, hy, hz, hyz⟩ := accepted_append h
        obtain ⟨rfl, rfl⟩ : y = false ∧ z = false := by simpa using hyz.symm
        exact ⟨hy, hz⟩
      · rintro ⟨hw, hws⟩
        simp [append_def, append, hw, hws]

end Walk

namespace Pattern

open Walk (joined)

variable (p : Pattern) (answer : Event → Bool)

/-- The walk from a node that a cursor has reached. -/
def visit (c : Cursor) (l : Location) (t : Tree) : Walk :=
  match p.segment? c with
  | some seg => p.walkNode answer c seg l t t
  | none => .nothing

/-- Whether a child is a sequence in a sequence that a walk with a `**` pending cannot enter. -/
def refuses (c : Cursor) (e : Step × Tree) : Bool :=
  match e.1, p.segment? c with
  | .index i, some seg => !seg.matchesIndex i && c.greedy && e.2.isSequence
  | _, _ => false

/-- The walk at and below a child. -/
def childWalk (c : Cursor) (l : Location) (node : Tree) (e : Step × Tree) : Walk :=
  if p.refuses c e then ⟨[], none⟩
  else match p.step? c e.1, e.1 with
    | some next, _ =>
      p.enter answer next (l ++ [e.1]) e.2 fun _ => p.visit answer next (l ++ [e.1]) e.2
    | none, .key _ => .one (.deadEnd l node c (some e.1)) false
    | none, .index _ => .nothing

/-- The walk of a node before it is closed. -/
def innerWalk (c : Cursor) (l : Location) (node t : Tree) : Walk :=
  if t.isScalar then p.matchSelf answer c l node
  else joined (t.children.map (p.childWalk answer c l node))

theorem walkEntries_eq {c : Cursor} {seg : Segment} (hseg : p.segment? c = some seg)
    (l : Location) (node : Tree) (es : Entries) :
    p.walkEntries answer c seg l node es =
      joined ((Tree.entrySteps es).map (p.childWalk answer c l node)) := by
  induction es with
  | nil => rw [walkEntries]; rfl
  | cons e es ih =>
      obtain ⟨k, v⟩ := e
      rw [walkEntries, ih]
      simp only [Tree.entrySteps, List.map_cons, joined, childWalk, refuses, step?, hseg,
        Segment.matchesStep, Bool.false_eq_true, if_false]
      congr 1
      by_cases hm : seg.matchesKey k = true
      · simp only [hm, if_true]; rfl
      · by_cases hg : c.greedy = true
        · simp [hm, hg, visit, hseg]
        · simp [hm, hg]

theorem walkItems_eq {c : Cursor} {seg : Segment} (hseg : p.segment? c = some seg)
    (l : Location) (node : Tree) (i : Nat) (items : List Tree) :
    p.walkItems answer c seg l i items =
      joined ((Tree.itemSteps i items).map (p.childWalk answer c l node)) := by
  induction items generalizing i with
  | nil => rw [walkItems]; rfl
  | cons t items ih =>
      rw [walkItems, ih]
      simp only [Tree.itemSteps, List.map_cons, joined, childWalk, refuses, step?, hseg,
        Segment.matchesStep]
      congr 1
      by_cases hm : seg.matchesIndex i = true
      · simp only [hm, if_true]; rfl
      · by_cases hg : c.greedy = true
        · by_cases hs : t.isSequence = true
          · simp [hm, hg, hs]
          · simp [hm, hg, hs, visit, hseg]
        · simp [hm, hg]

/-- A sequence that is not gone through would give nothing if it were. -/
theorem joined_itemSteps_eq_nothing {c : Cursor} {seg : Segment} (hseg : p.segment? c = some seg)
    (hg : c.greedy = false) (hm : ∀ i, seg.matchesIndex i = false) (l : Location) (node : Tree)
    (i : Nat) (items : List Tree) :
    joined ((Tree.itemSteps i items).map (p.childWalk answer c l node)) = .nothing := by
  induction items generalizing i with
  | nil => rfl
  | cons t items ih =>
      have hchild : p.childWalk answer c l node (.index i, t) = .nothing := by
        simp [childWalk, refuses, step?, hseg, Segment.matchesStep, hm, hg]
      rw [Tree.itemSteps, List.map_cons, joined, hchild, ih, Walk.nothing_append]

/-- The walk of a node in terms of its children, whatever its tags. -/
theorem walkNode_eq {c : Cursor} {seg : Segment} (hseg : p.segment? c = some seg) (l : Location)
    (node : Tree) : ∀ t : Tree, p.walkNode answer c seg l node t =
      closeNode l node c (p.innerWalk answer c l node t)
  | .tagged _ t => by
      rw [walkNode]
      exact walkNode_eq hseg l node t
  | .mapping es => by
      rw [walkNode, walkEntries_eq p answer hseg]
      rfl
  | .sequence items => by
      unfold walkNode
      simp only [innerWalk, Tree.isScalar, Tree.untag, Bool.false_eq_true, if_false, Tree.children]
      congr 1
      split
      · exact walkItems_eq p answer hseg l node 0 items
      · exact walkItems_eq p answer hseg l node 0 items
      · exact walkItems_eq p answer hseg l node 0 items
      · -- the items are not gone through, but no segment left here matches a position
        rename_i seg' _ _ h1 h2 h3
        have hg : c.greedy = false := by simpa using h3
        refine (joined_itemSteps_eq_nothing p answer hseg hg (fun i => ?_) l node 0 items).symm
        cases seg' with
        | index n => exact absurd rfl (h1 n)
        | wildcard => exact absurd rfl h2
        | literal _ _ | greedy => rfl
  | .null | .bool _ | .number _ | .string _ => by
      rw [walkNode]
      rfl

/-- The walk of a node is what is inside it, closed. -/
theorem visit_eq {c : Cursor} {seg : Segment} (hseg : p.segment? c = some seg) (l : Location)
    (t : Tree) : p.visit answer c l t = closeNode l t c (p.innerWalk answer c l t t) := by
  unfold visit
  rw [hseg]
  exact walkNode_eq p answer hseg l t t

end Pattern

end TreeEdit
