import Mathlib.Data.List.Flatten
import TreeEdit.Proofs.Rewrite
import TreeEdit.Proofs.Stubs

/-!
# A walk, whatever it is answered

The full walk answers yes to every event. This module is about all other answers, and about walks
that had to stop as well.

* Every event is told of a node of the document, with the location that leads to it
  (`Pattern.place_of_mem_visit`).
* What a walk asks about, it asks in document order: of a node at most once whether to go on below
  it, and then at most once whether to accept it (`Pattern.questions_visit_sublist`).
* A node is found only where the pattern matches, so no node found lies below another
  (`Pattern.eq_of_prefix_of_hits`).

Answers are a function of the event here. That a visitor may remember what it was told makes no
difference, since no question is put twice: two walks are one up to the first question that is
answered differently (`Pattern.parts_walk`), and so a walk can be answered as any visitor would,
question by question (`Pattern.exists_answers`).
-/

namespace TreeEdit

namespace Event

/-- The node that an event tells about, with its location. -/
def place : Event → Location × Tree
  | .partway l t _ | .found l t | .deadEnd l t _ _ => (l, t)

/-- What an event asks: whether to go on below a node, or (`true`) whether to accept it. -/
def question? : Event → Option ((Location × Tree) × Bool)
  | .partway l t _ => some ((l, t), false)
  | .found l t => some ((l, t), true)
  | .deadEnd .. => none

/-- Whether the answer to an event counts. Dead ends are only told of. -/
def isQuestion (e : Event) : Bool := e.question?.isSome

end Event

namespace Walk

/-- What a walk asks. -/
def questions (w : Walk) : List ((Location × Tree) × Bool) := w.events.filterMap Event.question?

theorem foundNodes_eq (w : Walk) : w.foundNodes = (w.questions.filter Prod.snd).map Prod.fst := by
  rw [foundNodes, questions]
  induction w.events with
  | nil => rfl
  | cons e events ih =>
      cases e with
      | partway l t c => simpa [Event.question?] using ih
      | found l t => simpa [Event.question?] using ih
      | deadEnd l t c s => exact ih

/-- What came first was told first. -/
theorem events_prefix_append (a b : Walk) : a.events <+: (a ++ b).events := by
  rw [append_def, append]
  cases ha : a.accepted with
  | none => exact List.prefix_rfl
  | some x => exact List.prefix_append ..

theorem questions_append_sublist (a b : Walk) :
    (a ++ b).questions.Sublist (a.questions ++ b.questions) := by
  rw [append_def, append]
  cases ha : a.accepted with
  | none => exact List.sublist_append_left ..
  | some x => simp [questions]

theorem questions_joined_sublist (ws : List Walk) :
    (joined ws).questions.Sublist (ws.flatMap questions) := by
  induction ws with
  | nil => exact .slnil
  | cons w ws ih =>
      rw [joined, List.flatMap_cons]
      exact (questions_append_sublist w (joined ws)).trans (ih.append_left _)

end Walk

namespace Tree

/-- Nodes seen from further up, a location in front of theirs. -/
def seenFrom (l : Location) (ns : List (Location × Tree)) : List (Location × Tree) :=
  ns.map fun n => (l ++ n.1, n.2)

/-- What can be asked of nodes, in order. -/
def askable (ns : List (Location × Tree)) : List ((Location × Tree) × Bool) :=
  ns.flatMap fun n => [(n, false), (n, true)]

theorem seenFrom_under (l : Location) (s : Step) (ns : List (Location × Tree)) :
    seenFrom l (under s ns) = seenFrom (l ++ [s]) ns := by
  simp [seenFrom, under, Function.comp_def]

theorem seenFrom_nodes (l : Location) (t : Tree) :
    seenFrom l t.nodes = (l, t) :: seenFrom l t.descendants := by
  simp [nodes, seenFrom]

theorem askable_seenFrom_descendants (l : Location) (t : Tree) :
    askable (seenFrom l t.descendants) =
      t.children.flatMap fun e => askable (seenFrom (l ++ [e.1]) e.2.nodes) := by
  rw [descendants_eq, askable, seenFrom, List.map_flatMap, List.flatMap_assoc]
  refine List.flatMap_congr fun e _ => ?_
  rw [← seenFrom_under]
  rfl

/-- The nodes that can be accepted are all nodes. -/
theorem filter_askable (ns : List (Location × Tree)) :
    ((askable ns).filter Prod.snd).map Prod.fst = ns := by
  induction ns with
  | nil => rfl
  | cons n ns ih => simpa [askable] using ih

theorem nodup_askable {ns : List (Location × Tree)} (h : ns.Nodup) : (askable ns).Nodup := by
  refine List.nodup_flatMap.mpr ⟨fun n _ => by simp, h.imp fun {a b} hab => ?_⟩
  simp only [Function.onFun, List.disjoint_left]
  rintro x hx hx'
  simp only [List.mem_cons, List.not_mem_nil, or_false] at hx hx'
  rcases hx with rfl | rfl <;> simp_all

/-- The first location comes before the second in document order. -/
def Before (d : Tree) (l m : Location) : Prop := [l, m].Sublist (d.nodes.map Prod.fst)

end Tree

namespace Pattern

open Walk (joined)

variable (p : Pattern) (answer : Event → Bool)

/-- What a walk does at a child. -/
inductive Met (c : Cursor) (l : Location) (node : Tree) (e : Step × Tree) : Walk → Prop where
  | refused : Met c l node e ⟨[], none⟩
  | passed : Met c l node e .nothing
  | dead : Met c l node e (.one (.deadEnd l node c (some e.1)) false)
  | usedUp {c' : Cursor} : p.step? c e.1 = some c' → p.isExhausted c' = true →
      Met c l node e (.one (.found (l ++ [e.1]) e.2) (answer (.found (l ++ [e.1]) e.2)))
  | turned {c' : Cursor} : p.step? c e.1 = some c' →
      Met c l node e (.one (.partway (l ++ [e.1]) e.2 c') false)
  | entered {c' : Cursor} : p.step? c e.1 = some c' →
      Met c l node e
        (.one (.partway (l ++ [e.1]) e.2 c') false ++ p.visit answer c' (l ++ [e.1]) e.2)

theorem met (c : Cursor) (l : Location) (node : Tree) (e : Step × Tree) :
    p.Met answer c l node e (p.childWalk answer c l node e) := by
  unfold childWalk
  split
  · exact .refused
  · cases hs : p.step? c e.1 with
    | none =>
        obtain ⟨s, u⟩ := e
        cases s with
        | key k => exact .dead
        | index i => exact .passed
    | some c' =>
        simp only [enter]
        split
        · rename_i hx
          exact .usedUp hs hx
        · split
          · exact .entered hs
          · exact .turned hs

/-! ## What is asked -/

theorem questions_closeNode (l : Location) (t : Tree) (c : Cursor) (w : Walk) :
    (closeNode l t c w).questions = w.questions := by
  rw [Walk.questions, filterMap_events_closeNode]
  split <;> simp [Event.question?, Walk.questions]

/-- What is asked at and below a child, once that of a walk from it is known. -/
theorem questions_childWalk_sublist {c : Cursor} {l : Location} {node : Tree} {e : Step × Tree}
    (ih : ∀ {c' : Cursor} {m : Location}, (p.visit answer c' m e.2).questions.Sublist
      (((m, e.2), true) :: Tree.askable (Tree.seenFrom m e.2.descendants))) :
    (p.childWalk answer c l node e).questions.Sublist
      (Tree.askable (Tree.seenFrom (l ++ [e.1]) e.2.nodes)) := by
  have hmet := p.met answer c l node e
  generalize p.childWalk answer c l node e = w at hmet ⊢
  rw [Tree.seenFrom_nodes]
  simp only [Tree.askable, List.flatMap_cons, List.cons_append, List.nil_append]
  cases hmet with
  | refused => exact List.nil_sublist _
  | passed => exact List.nil_sublist _
  | dead => exact List.nil_sublist _
  | usedUp => exact .cons _ (.cons_cons _ (List.nil_sublist _))
  | turned => exact .cons_cons _ (List.nil_sublist _)
  | @entered c' =>
      refine (Walk.questions_append_sublist _ _).trans ?_
      exact .cons_cons _ ih

/-- **What a walk asks, it asks in document order**, and each thing once. -/
theorem questions_visit_sublist (c : Cursor) (l : Location) (t : Tree) :
    (p.visit answer c l t).questions.Sublist
      (((l, t), true) :: Tree.askable (Tree.seenFrom l t.descendants)) := by
  induction t using Tree.childInduction generalizing c l with
  | step t ih =>
    rcases p.exhausted_or_segment? c with hc | ⟨seg, hseg⟩
    · rw [p.visit_of_exhausted hc]
      exact List.nil_sublist _
    · rw [visit_eq p answer hseg, questions_closeNode, innerWalk]
      split
      · rw [matchSelf_eq]
        split
        · exact .cons_cons _ (List.nil_sublist _)
        · exact List.nil_sublist _
      · refine .cons _ ((Walk.questions_joined_sublist _).trans ?_)
        rw [Tree.askable_seenFrom_descendants, List.flatMap_map]
        refine List.Sublist.flatMap_right _ fun e he => ?_
        exact p.questions_childWalk_sublist answer fun {c' m} => ih e.1 e.2 he c' m

/-! ## Where events are told of -/

/-- An event at or below a child, or told of its parent, once those of a walk from it are known. -/
theorem place_of_mem_childWalk {c : Cursor} {l : Location} {node : Tree} {e : Step × Tree}
    {ev : Event}
    (ih : ∀ {c' : Cursor} {m : Location}, ev ∈ (p.visit answer c' m e.2).events →
      ∃ v ∈ p.visits c' e.2.nodes, ev.place = found m v ∧
        (∀ m u, ev = .found m u → p.hits v = true))
    (h : ev ∈ (p.childWalk answer c l node e).events) :
    ev = .deadEnd l node c (some e.1) ∨ ∃ v ∈ p.visitsOfChild c e, ev.place = found l v ∧
      (∀ m u, ev = .found m u → p.hits v = true) := by
  have hmet := p.met answer c l node e
  generalize p.childWalk answer c l node e = w at hmet h
  have hself : ∀ {c'}, p.step? c e.1 = some c' →
      ⟨[e.1], e.2, c'⟩ ∈ p.visitsOfChild c e := by
    intro c' hs
    simp [visitsOfChild, hs, visits_nodes, Visit.under]
  cases hmet with
  | refused => exact absurd h (List.not_mem_nil)
  | passed => exact absurd h (List.not_mem_nil)
  | dead => exact .inl (List.mem_singleton.mp h)
  | usedUp hs hx =>
      obtain rfl := List.mem_singleton.mp h
      exact .inr ⟨_, hself hs, rfl, fun _ _ _ => by simp [hits, hx]⟩
  | turned hs =>
      obtain rfl := List.mem_singleton.mp h
      exact .inr ⟨_, hself hs, rfl, fun _ _ hfound => by cases hfound⟩
  | @entered c' hs =>
      rcases Walk.mem_events_append h with h | h
      · obtain rfl := List.mem_singleton.mp h
        exact .inr ⟨_, hself hs, rfl, fun _ _ hfound => by cases hfound⟩
      · obtain ⟨v, hv, hplace, hhit⟩ := ih h
        refine .inr ⟨v.under e.1, ?_, ?_, hhit⟩
        · simp only [visitsOfChild, hs]
          exact List.mem_map_of_mem hv
        · rw [hplace]
          simp [found, Visit.under]

/-- **An event is told of a place where the run lives**, and a node is found only at a match. -/
theorem place_of_mem_visit {c : Cursor} {l : Location} {t : Tree} {ev : Event}
    (h : ev ∈ (p.visit answer c l t).events) :
    ∃ v ∈ p.visits c t.nodes, ev.place = found l v ∧
      (∀ m u, ev = .found m u → p.hits v = true) := by
  induction t using Tree.childInduction generalizing c l with
  | step t ih =>
    rcases p.exhausted_or_segment? c with hc | ⟨seg, hseg⟩
    · rw [p.visit_of_exhausted hc] at h
      exact absurd h (List.not_mem_nil)
    · have hself : ∀ um, ev = .deadEnd l t c um → ∃ v ∈ p.visits c t.nodes,
          ev.place = found l v ∧ (∀ m u, ev = .found m u → p.hits v = true) := by
        rintro um rfl
        exact ⟨⟨[], t, c⟩, List.mem_cons_self .., by simp [found, Event.place],
          fun _ _ hfound => by cases hfound⟩
      have hinner : ev ∈ (p.innerWalk answer c l t t).events ∨ ev = .deadEnd l t c none := by
        rw [visit_eq p answer hseg] at h
        rcases closeNode_cases l t c (p.innerWalk answer c l t t) with ⟨-, hw⟩ | ⟨-, hw⟩
        · rw [hw] at h
          exact (Walk.mem_events_append h).imp_right List.mem_singleton.mp
        · rw [hw] at h
          exact .inl h
      rcases hinner with h | h
      · rw [innerWalk] at h
        split at h
        · -- a scalar that matches itself
          rw [matchSelf_eq] at h
          split at h
          · rename_i hm
            obtain rfl := List.mem_singleton.mp h
            exact ⟨⟨[], t, c⟩, List.mem_cons_self .., by simp [found, Event.place],
              fun _ _ _ => by simp [hits, hm.2]⟩
          · exact absurd h (List.not_mem_nil)
        · obtain ⟨w, hw, h⟩ := Walk.mem_events_joined h
          obtain ⟨e, he, rfl⟩ := List.mem_map.mp hw
          rcases p.place_of_mem_childWalk answer (fun h => ih e.1 e.2 he h) h with
            h | ⟨v, hv, hrest⟩
          · exact hself _ h
          · refine ⟨v, ?_, hrest⟩
            rw [visits_nodes, visits_descendants]
            exact List.mem_cons_of_mem _ (List.mem_flatMap.mpr ⟨e, he, hv⟩)
      · exact hself _ h

/-- Nothing below a match is a place where the run lives. -/
theorem eq_of_prefix_of_hits {d : Tree} (hd : d.DistinctKeys) {c : Cursor} {v w : Visit}
    (hv : v ∈ p.visits c d.nodes) (hhit : p.hits v = true) (hw : w ∈ p.visits c d.nodes)
    (h : v.location <+: w.location) : v.location = w.location := by
  obtain ⟨m, hm⟩ := h
  obtain ⟨hnode, hrun⟩ := p.mem_visits.mp hv
  obtain ⟨hnode', hrun'⟩ := p.mem_visits.mp hw
  cases m with
  | nil => simpa using hm
  | cons s m =>
      rw [← hm] at hnode' hrun'
      rw [p.run?_append, hrun, Option.bind_some] at hrun'
      obtain ⟨t, ht, hbelow⟩ := (hd.reaches hnode').of_append
      obtain rfl := (hd.reaches hnode).unique ht
      have hnone := p.visits_descendants_of_hits hhit
      have hmem : (⟨s :: m, w.node, w.cursor⟩ : Visit) ∈ p.visits v.cursor v.node.nodes :=
        p.mem_visits.mpr ⟨hbelow.mem_nodes, hrun'⟩
      rw [visits_nodes, hnone, List.mem_singleton] at hmem
      cases hmem

/-! ## Where two walks part -/

/-- Closing a walk tells nothing before it. -/
theorem events_prefix_closeNode (l : Location) (t : Tree) (c : Cursor) (w : Walk) :
    w.events <+: (closeNode l t c w).events := by
  rcases closeNode_cases l t c w with ⟨-, hw⟩ | ⟨-, hw⟩
  · rw [hw]
    exact Walk.events_prefix_append ..
  · simp only [hw, List.prefix_rfl]

end Pattern

namespace Walk

/-- Two walks are one, or part at an event that is answered differently. -/
def Parts (a b : Event → Bool) (w w' : Walk) : Prop :=
  w = w' ∨ ∃ told e, a e ≠ b e ∧ told ++ [e] <+: w.events ∧ told ++ [e] <+: w'.events

variable {a b : Event → Bool} {w w' v v' : Walk}

theorem Parts.refl (w : Walk) : Parts a b w w := .inl rfl

/-- Walks that begin with one question part there, if anywhere. -/
theorem Parts.of_question {e : Event} (h : a e = b e → Parts a b w w') (hw : [e] <+: w.events)
    (hw' : [e] <+: w'.events) : Parts a b w w' := by
  by_cases hab : a e = b e
  · exact h hab
  · exact .inr ⟨[], e, hab, hw, hw'⟩

theorem Parts.append (h : Parts a b w w') (h' : Parts a b v v') :
    Parts a b (w ++ v) (w' ++ v') := by
  rcases h with rfl | ⟨told, e, hab, hw, hw'⟩
  · rcases h' with rfl | ⟨told, e, hab, hv, hv'⟩
    · exact .inl rfl
    · cases hx : w.accepted with
      | none => exact .inl (by simp [append_def, Walk.append, hx])
      | some x =>
          have hsome : w.accepted.isSome = true := by rw [hx]; rfl
          refine .inr ⟨w.events ++ told, e, hab, ?_, ?_⟩
          · rw [events_append hsome, List.append_assoc]
            exact (List.prefix_append_right_inj _).mpr hv
          · rw [events_append hsome, List.append_assoc]
            exact (List.prefix_append_right_inj _).mpr hv'
  · exact .inr ⟨told, e, hab, hw.trans (events_prefix_append ..),
      hw'.trans (events_prefix_append ..)⟩

theorem Parts.joined {α : Type} {f g : α → Walk} {as : List α}
    (h : ∀ x ∈ as, Parts a b (f x) (g x)) : Parts a b (joined (as.map f)) (joined (as.map g)) :=
  joined_map (.refl _) .append h

theorem Parts.closeNode (h : Parts a b w w') (l : Location) (t : Tree) (c : Cursor) :
    Parts a b (Pattern.closeNode l t c w) (Pattern.closeNode l t c w') := by
  rcases h with rfl | ⟨told, e, hab, hw, hw'⟩
  · exact .inl rfl
  · exact .inr ⟨told, e, hab, hw.trans (Pattern.events_prefix_closeNode ..),
      hw'.trans (Pattern.events_prefix_closeNode ..)⟩

end Walk

namespace Pattern

variable (p : Pattern) (a b : Event → Bool)

theorem parts_childWalk {c : Cursor} {l : Location} {node : Tree} {e : Step × Tree}
    (ih : ∀ c' m, Walk.Parts a b (p.visit a c' m e.2) (p.visit b c' m e.2)) :
    Walk.Parts a b (p.childWalk a c l node e) (p.childWalk b c l node e) := by
  unfold childWalk
  split
  · exact .refl _
  · cases p.step? c e.1 with
    | none =>
        obtain ⟨s, u⟩ := e
        cases s <;> exact .refl _
    | some c' =>
        simp only [enter]
        split
        · refine .of_question (e := .found (l ++ [e.1]) e.2) (fun hab => ?_) ?_ ?_
          · rw [hab]
            exact .refl _
          · exact List.prefix_rfl
          · exact List.prefix_rfl
        · have hput : ∀ (q : Bool) (w : Walk), [.partway (l ++ [e.1]) e.2 c'] <+:
              (if q then .one (.partway (l ++ [e.1]) e.2 c') false ++ w
                else .one (.partway (l ++ [e.1]) e.2 c') false : Walk).events := by
            intro q w
            cases q with
            | true => exact Walk.events_prefix_append (.one _ false) w
            | false => exact List.prefix_rfl
          refine .of_question (e := .partway (l ++ [e.1]) e.2 c') (fun hab => ?_)
            (hput ..) (hput ..)
          rw [hab]
          split
          · exact (Walk.Parts.refl _).append (ih c' _)
          · exact .refl _

/-- **Two walks are one up to the first question that is answered differently.** -/
theorem parts_visit (c : Cursor) (l : Location) (t : Tree) :
    Walk.Parts a b (p.visit a c l t) (p.visit b c l t) := by
  induction t using Tree.childInduction generalizing c l with
  | step t ih =>
    rcases p.exhausted_or_segment? c with hc | ⟨seg, hseg⟩
    · rw [p.visit_of_exhausted hc, p.visit_of_exhausted hc]
      exact .inl rfl
    · rw [visit_eq p a hseg, visit_eq p b hseg]
      refine Walk.Parts.closeNode ?_ l t c
      unfold innerWalk
      split
      · rw [matchSelf_eq, matchSelf_eq]
        split
        · refine .of_question (e := .found l t) (fun hab => ?_) List.prefix_rfl List.prefix_rfl
          rw [hab]
          exact .inl rfl
        · exact .inl rfl
      · exact .joined fun e he => p.parts_childWalk a b fun c' m => ih e.1 e.2 he c' m

/-! ## Walks of a document -/

theorem walk_eq (answer : Event → Bool) (d : Tree) : p.walk answer d =
    if p.isRoot then ⟨[], some true⟩ else p.visit answer p.start [] d := by
  unfold walk
  split
  · rfl
  · rename_i hp
    obtain ⟨seg, hseg⟩ := p.exists_segment?_start (by simpa using hp)
    rw [visit, hseg]

theorem parts_walk (d : Tree) : Walk.Parts a b (p.walk a d) (p.walk b d) := by
  rw [walk_eq, walk_eq]
  split
  · exact .inl rfl
  · exact p.parts_visit a b p.start [] d

theorem questions_walk_sublist (answer : Event → Bool) (d : Tree) :
    (p.walk answer d).questions.Sublist (Tree.askable d.nodes) := by
  rw [walk_eq]
  split
  · exact List.nil_sublist _
  · have hsub := p.questions_visit_sublist answer p.start [] d
    have hseen : ∀ ns, Tree.seenFrom [] ns = ns := fun ns => by simp [Tree.seenFrom]
    rw [hseen] at hsub
    exact hsub.trans (.cons _ (List.Sublist.refl _))

theorem place_of_mem_walk {answer : Event → Bool} {d : Tree} {e : Event}
    (h : e ∈ (p.walk answer d).events) : ∃ v ∈ p.visits p.start d.nodes,
      e.place = (v.location, v.node) ∧ (∀ l t, e = .found l t → p.hits v = true) := by
  rw [walk_eq] at h
  split at h
  · exact absurd h (List.not_mem_nil)
  · exact p.place_of_mem_visit answer h

/-- No question is put twice. -/
theorem eq_of_told_twice {d : Tree} (hd : d.DistinctKeys) {answer : Event → Bool} {e : Event}
    (he : e.isQuestion = true) {told told' : List Event}
    (h : told ++ [e] <+: (p.walk answer d).events)
    (h' : told' ++ [e] <+: (p.walk answer d).events) : told = told' := by
  have hnodup : ((p.walk answer d).events.filterMap Event.question?).Nodup :=
    (Tree.nodup_askable hd.nodup_nodes.of_map).sublist (p.questions_walk_sublist answer d)
  obtain ⟨q, hq⟩ := Option.isSome_iff_exists.mp he
  -- the question would be among what was told before it
  have hlast : ∀ {as bs : List Event}, bs ++ [e] <+: (p.walk answer d).events →
      as ++ [e] <+: bs ++ [e] → as = bs := by
    intro as bs hbs has
    rcases List.prefix_concat_iff.mp has with heq | hput
    · exact (List.append_inj_left' heq rfl)
    · have hmem : e ∈ bs := hput.subset (by simp)
      have := hnodup.sublist (hbs.sublist.filterMap Event.question?)
      rw [List.filterMap_append, List.nodup_append] at this
      refine absurd rfl (this.2.2 q (List.mem_filterMap.mpr ⟨e, hmem, hq⟩) q ?_)
      simp [hq]
  rcases List.prefix_or_prefix_of_prefix h h' with hle | hle
  · exact hlast h' hle
  · exact (hlast h hle).symm

/-- What was told with at most as many questions before it was not told later. -/
theorem concat_prefix_of_countP_le {α : Type} {q : α → Bool} {as bs cs : List α} {a b : α}
    (ha : as ++ [a] <+: cs) (hb : bs ++ [b] <+: cs) (hq : q b = true)
    (h : as.countP q ≤ bs.countP q) : as ++ [a] <+: bs ++ [b] := by
  rcases List.prefix_or_prefix_of_prefix ha hb with hle | hle
  · exact hle
  · rcases List.prefix_concat_iff.mp hle with heq | hlt
    · simp only [heq, List.prefix_rfl]
    · have hcount := hlt.sublist.countP_le (p := q)
      rw [List.countP_append, List.countP_singleton, if_pos hq] at hcount
      omega

open Classical in
/-- A question is put all the same if only the answer to it changes. -/
theorem told_update {d : Tree} (hd : d.DistinctKeys) {answer : Event → Bool} {told : List Event}
    {e : Event} (he : e.isQuestion = true) (h : told ++ [e] <+: (p.walk answer d).events)
    (x : Bool) : told ++ [e] <+: (p.walk (Function.update answer e x) d).events := by
  rcases p.parts_walk answer (Function.update answer e x) d with heq | ⟨told', e', hab, hw, hw'⟩
  · rwa [← heq]
  · have hee : e' = e := by
      by_contra hne
      exact hab (Function.update_of_ne hne _ _).symm
    subst hee
    obtain rfl := p.eq_of_told_twice hd he h hw
    exact hw'

open Classical in
/-- Every visitor is a way to answer, as far as its first `n` answers go. -/
theorem exists_answers_upTo {d : Tree} (hd : d.DistinctKeys) (visitor : List Event → Event → Bool)
    (n : Nat) : ∃ answer : Event → Bool, ∀ told e, e.isQuestion = true →
      told ++ [e] <+: (p.walk answer d).events → told.countP Event.isQuestion < n →
        answer e = visitor told e := by
  induction n with
  | zero => exact ⟨yes, fun _ _ _ _ h => absurd h (Nat.not_lt_zero _)⟩
  | succ n ih =>
    obtain ⟨answer, h⟩ := ih
    by_cases hex : ∃ told e, e.isQuestion = true ∧ told ++ [e] <+: (p.walk answer d).events ∧
        told.countP Event.isQuestion = n
    · obtain ⟨told, e, he, hput, hn⟩ := hex
      refine ⟨Function.update answer e (visitor told e), fun told' e' he' hput' hn' => ?_⟩
      have hle : told' ++ [e'] <+: told ++ [e] :=
        concat_prefix_of_countP_le hput' (p.told_update hd he hput _) he (by omega)
      rcases List.prefix_concat_iff.mp hle with heq | hlt
      · obtain ⟨rfl, hee⟩ := List.append_inj' heq rfl
        obtain rfl := List.singleton_inj.mp hee
        exact Function.update_self ..
      · -- an earlier question is answered as before
        have hne : e' ≠ e := by
          rintro rfl
          have heq := p.eq_of_told_twice hd he hput (hle.trans hput)
          have hlen := hlt.length_le
          rw [heq, List.length_append, List.length_singleton] at hlen
          omega
        have hcount := hlt.sublist.countP_le (p := Event.isQuestion)
        rw [List.countP_append, List.countP_singleton, if_pos he', hn] at hcount
        rw [Function.update_of_ne hne]
        exact h told' e' he' (hle.trans hput) hcount
    · refine ⟨answer, fun told e he hput hn => ?_⟩
      rcases Nat.lt_succ_iff_lt_or_eq.mp hn with hlt | heq
      · exact h told e he hput hlt
      · exact absurd ⟨told, e, he, hput, heq⟩ hex

/-- **Every visitor is a way to answer**, also one that goes by all it was told before. -/
theorem exists_answers {d : Tree} (hd : d.DistinctKeys) (visitor : List Event → Event → Bool) :
    ∃ answer : Event → Bool, ∀ told e, e.isQuestion = true →
      told ++ [e] <+: (p.walk answer d).events → answer e = visitor told e := by
  obtain ⟨answer, h⟩ := p.exists_answers_upTo hd visitor ((Tree.askable d.nodes).length + 1)
  refine ⟨answer, fun told e he hput => h told e he hput ?_⟩
  have hle : told.countP Event.isQuestion ≤ (p.walk answer d).events.countP Event.isQuestion :=
    ((List.prefix_append told [e]).trans hput).sublist.countP_le
  have hasked := (p.questions_walk_sublist answer d).length_le
  rw [Walk.questions, List.length_filterMap_eq_countP] at hasked
  exact Nat.lt_succ_of_le (Nat.le_trans hle hasked)

/-! ## What is found -/

/--
**Whatever a walk is answered, it finds nodes in document order, none of them twice and none below
another, and a location that it tells of leads to the node that it tells of.** The answers may be
those of any visitor.
-/
theorem walk_finds_apart_in_order {d : Tree} (hd : d.DistinctKeys) (p : Pattern) :
    (∀ answer : Event → Bool,
      let ls := (p.walk answer d).foundNodes.map Prod.fst
      ls.Nodup ∧ ls.Pairwise d.Before ∧ ls.Pairwise Location.Apart ∧
        (∀ n ∈ (p.walk answer d).foundNodes, d.get? n.1 = some n.2) ∧
        ∀ e ∈ (p.walk answer d).events, d.get? e.place.1 = some e.place.2) ∧
    ∀ visitor : List Event → Event → Bool, ∃ answer : Event → Bool,
      ∀ told e, e.isQuestion = true → told ++ [e] <+: (p.walk answer d).events →
        answer e = visitor told e := by
  refine ⟨fun answer => ?_, p.exists_answers hd⟩
  have hsub : (p.walk answer d).foundNodes.Sublist d.nodes := by
    rw [Walk.foundNodes_eq, ← Tree.filter_askable d.nodes]
    exact ((p.questions_walk_sublist answer d).filter Prod.snd).map Prod.fst
  have hls := hsub.map Prod.fst
  have hnodup := hd.nodup_nodes.sublist hls
  have hplace : ∀ e ∈ (p.walk answer d).events, d.get? e.place.1 = some e.place.2 := by
    intro e he
    obtain ⟨v, hv, hplace, -⟩ := p.place_of_mem_walk he
    rw [hplace]
    exact (hd.reaches (p.mem_visits.mp hv).1).get?_eq
  have hmem : ∀ n ∈ (p.walk answer d).foundNodes,
      ∃ e ∈ (p.walk answer d).events, e = .found n.1 n.2 := by
    intro n hn
    obtain ⟨e, he, heq⟩ := List.mem_filterMap.mp hn
    cases e with
    | found l t =>
        obtain rfl := Option.some.inj heq
        exact ⟨_, he, rfl⟩
    | partway | deadEnd => cases heq
  have hhits : ∀ n ∈ (p.walk answer d).foundNodes,
      ∃ v ∈ p.visits p.start d.nodes, v.location = n.1 ∧ p.hits v = true := by
    intro n hn
    obtain ⟨e, he, rfl⟩ := hmem n hn
    obtain ⟨v, hv, hplace, hhit⟩ := p.place_of_mem_walk he
    exact ⟨v, hv, (Prod.mk.inj hplace).1.symm, hhit _ _ rfl⟩
  refine ⟨hnodup, ?_, ?_, fun n hn => ?_, hplace⟩
  · exact List.pairwise_iff_forall_sublist.mpr fun h => h.trans hls
  · refine hnodup.imp_of_mem fun {l m} hl hm hne => ?_
    obtain ⟨n, hn, rfl⟩ := List.mem_map.mp hl
    obtain ⟨n', hn', rfl⟩ := List.mem_map.mp hm
    obtain ⟨v, hv, hvn, hhit⟩ := hhits n hn
    obtain ⟨v', hv', hvn', hhit'⟩ := hhits n' hn'
    rw [← hvn, ← hvn'] at hne ⊢
    exact ⟨fun h => hne (p.eq_of_prefix_of_hits hd hv hhit hv' h),
      fun h => hne (p.eq_of_prefix_of_hits hd hv' hhit' hv h).symm⟩
  · obtain ⟨e, he, rfl⟩ := hmem n hn
    exact hplace _ he

/-- Three nodes are found although one of them is rejected. -/
theorem walk_finds_apart_in_order_rejecting :
    let d : Tree := .mapping [(.string "a", .tagged ⟨"t"⟩ (.sequence [.null, .sequence [.null]])),
      (.string "c", .mapping [(.null, .bool true)])]
    let p : Pattern := ⟨"*.*", ".", [.wildcard, .wildcard]⟩
    let answer : Event → Bool := fun e => decide (e.place.1 ≠ [.key (.string "a"), .index 1])
    let ls := (p.walk answer d).foundNodes.map Prod.fst
    d.DistinctKeys ∧ ls = [[.key (.string "a"), .index 0], [.key (.string "a"), .index 1],
      [.key (.string "c"), .key .null]] ∧
      ls.Nodup ∧ ls.Pairwise d.Before ∧ ls.Pairwise Location.Apart ∧
      (∀ n ∈ (p.walk answer d).foundNodes, d.get? n.1 = some n.2) ∧
      ∀ e ∈ (p.walk answer d).events, d.get? e.place.1 = some e.place.2 := by
  intro d p answer ls
  have hd : d.DistinctKeys := by decide +kernel
  have hls : ls = [[.key (.string "a"), .index 0], [.key (.string "a"), .index 1],
      [.key (.string "c"), .key .null]] := by decide +kernel
  exact ⟨hd, hls, (walk_finds_apart_in_order hd p).1 answer⟩

end Pattern

end TreeEdit
