import TreeEdit.Proofs.Answers

/-!
# What a walk tells, block by block

The events of a walk are a nesting of blocks, one for each node that is entered, and the plan of an
insertion is read off nothing else. `Pattern.Block` declares these blocks without any walk, from the
node, its cursor and the answers given:

* inside a block, the children of the node speak in order: a key that the cursor cannot step over
  tells one dead end and a position nothing, and any other child tells that it was found, or that it
  was reached partway and then, if the answer was yes, its own block;
* a scalar tells at most that it matches itself;
* a block closes with a dead end for its node exactly if no match told inside it was accepted.

A walk that does not have to stop tells the block of every node that it enters and nothing else
(`Pattern.block_visit`), and a node has one block only (`Block.unique`). That a walk takes a node
for matched exactly if a match in its block was accepted is `Pattern.tallied_visit`.
-/

namespace TreeEdit

/-- Whether a match among the events was accepted. -/
def Event.AnyAccepted (answer : Event → Bool) (es : List Event) : Prop :=
  ∃ l t, .found l t ∈ es ∧ answer (.found l t) = true

namespace Pattern

variable (p : Pattern) (answer : Event → Bool)

mutual

/-- What is told of a node that was entered with a cursor. -/
inductive Block : Cursor → Location → Tree → List Event → Prop where
  | matched {c : Cursor} {l : Location} {t : Tree} {es : List Event} :
      Inside c l t es → Event.AnyAccepted answer es → Block c l t es
  | failed {c : Cursor} {l : Location} {t : Tree} {es : List Event} :
      Inside c l t es → ¬ Event.AnyAccepted answer es →
      Block c l t (es ++ [.deadEnd l t c none])

/-- What is told of a node before its block is closed. -/
inductive Inside : Cursor → Location → Tree → List Event → Prop where
  | collection {c : Cursor} {l : Location} {t : Tree} {es : List Event} :
      t.isScalar = false → ChildBlocks c l t t.children es → Inside c l t es
  /-- a scalar that is not the root, with one literal left that matches its text -/
  | itself {c : Cursor} {l : Location} {t : Tree} :
      t.isScalar = true → l ≠ [] → p.selfMatch c t = true → Inside c l t [.found l t]
  | scalar {c : Cursor} {l : Location} {t : Tree} :
      t.isScalar = true → ¬ (l ≠ [] ∧ p.selfMatch c t = true) → Inside c l t []

/-- What is told of some children of a node, in their order. -/
inductive ChildBlocks : Cursor → Location → Tree → List (Step × Tree) → List Event → Prop where
  | nil {c : Cursor} {l : Location} {t : Tree} : ChildBlocks c l t [] []
  /-- the key does not match and no `**` is pending -/
  | unmatched {c : Cursor} {l : Location} {t k u : Tree} {rest : List (Step × Tree)}
      {es : List Event} :
      p.step? c (.key k) = none → ChildBlocks c l t rest es →
      ChildBlocks c l t ((.key k, u) :: rest) (.deadEnd l t c (some (.key k)) :: es)
  /-- the position does not match and no `**` is pending -/
  | passed {c : Cursor} {l : Location} {t u : Tree} {i : Nat} {rest : List (Step × Tree)}
      {es : List Event} :
      p.step? c (.index i) = none → ChildBlocks c l t rest es →
      ChildBlocks c l t ((.index i, u) :: rest) es
  | child {c c' : Cursor} {l : Location} {t u : Tree} {s : Step} {rest : List (Step × Tree)}
      {block es : List Event} :
      p.step? c s = some c' → ChildBlock c' (l ++ [s]) u block → ChildBlocks c l t rest es →
      ChildBlocks c l t ((s, u) :: rest) (block ++ es)

/-- What is told of a child, with the cursor after the step to it. -/
inductive ChildBlock : Cursor → Location → Tree → List Event → Prop where
  | found {c : Cursor} {l : Location} {t : Tree} :
      p.isExhausted c = true → ChildBlock c l t [.found l t]
  | turned {c : Cursor} {l : Location} {t : Tree} :
      p.isExhausted c = false → answer (.partway l t c) = false →
      ChildBlock c l t [.partway l t c]
  | entered {c : Cursor} {l : Location} {t : Tree} {es : List Event} :
      p.isExhausted c = false → answer (.partway l t c) = true → Block c l t es →
      ChildBlock c l t (.partway l t c :: es)

end

end Pattern

/-! ## What a walk accepts -/

namespace Walk

/-- A walk that did not stop says that it accepted a match exactly if it did. -/
def Tallied (answer : Event → Bool) (w : Walk) : Prop :=
  ∀ x, w.accepted = some x → (x = true ↔ Event.AnyAccepted answer w.events)

variable {answer : Event → Bool}

theorem anyAccepted_append {as bs : List Event} : Event.AnyAccepted answer (as ++ bs) ↔
    Event.AnyAccepted answer as ∨ Event.AnyAccepted answer bs := by
  simp only [Event.AnyAccepted, List.mem_append, or_and_right, exists_or]

theorem Tallied.stopped (events : List Event) : Tallied answer ⟨events, none⟩ := by
  intro x h
  cases h

theorem Tallied.nothing : Tallied answer .nothing := by
  intro x h
  obtain rfl := Option.some.inj h
  simp [Walk.nothing, Event.AnyAccepted]

theorem Tallied.found (l : Location) (t : Tree) :
    Tallied answer (.one (.found l t) (answer (.found l t))) := by
  intro x h
  obtain rfl := Option.some.inj h
  simp [one, Event.AnyAccepted]

/-- An event that is no match is no accepted one. -/
theorem Tallied.other {e : Event} (h : ∀ l t, e ≠ .found l t) : Tallied answer (.one e false) := by
  intro x hx
  obtain rfl := Option.some.inj hx
  have hno : ¬ Event.AnyAccepted answer [e] := by
    rintro ⟨l, t, hmem, -⟩
    exact h l t (List.mem_singleton.mp hmem).symm
  simpa [one] using hno

theorem Tallied.append {a b : Walk} (ha : Tallied answer a) (hb : Tallied answer b) :
    Tallied answer (a ++ b) := by
  intro x h
  obtain ⟨y, z, hy, hz, rfl⟩ := accepted_append h
  rw [events_append (by rw [hy]; rfl), anyAccepted_append, ← ha y hy, ← hb z hz, Bool.or_eq_true]

theorem Tallied.joined {ws : List Walk} (h : ∀ w ∈ ws, Tallied answer w) :
    Tallied answer (joined ws) := by
  induction ws with
  | nil => exact .nothing
  | cons w ws ih =>
      have hrest := ih fun v hv => h v (List.mem_cons_of_mem _ hv)
      exact (h w (List.mem_cons_self ..)).append hrest

theorem Tallied.closeNode {w : Walk} (h : Tallied answer w) (l : Location) (t : Tree) (c : Cursor) :
    Tallied answer (Pattern.closeNode l t c w) := by
  rcases Pattern.closeNode_cases l t c w with ⟨-, hw⟩ | ⟨-, hw⟩
  · rw [hw]
    exact h.append (.other fun _ _ h => by cases h)
  · rw [hw]
    exact h

end Walk

namespace Pattern

open Walk (joined)

variable (p : Pattern) (answer : Event → Bool)

/-- **A walk takes a node for matched exactly if a match in or below it was accepted.** -/
theorem tallied_visit (c : Cursor) (l : Location) (t : Tree) :
    (p.visit answer c l t).Tallied answer := by
  induction t using Tree.childInduction generalizing c l with
  | step t ih =>
    rcases p.exhausted_or_segment? c with hc | ⟨seg, hseg⟩
    · rw [p.visit_of_exhausted hc]
      exact .nothing
    · rw [visit_eq p answer hseg]
      refine Walk.Tallied.closeNode ?_ l t c
      unfold innerWalk
      split
      · rw [matchSelf_eq]
        split
        · exact .found l t
        · exact .nothing
      · refine .joined fun w hw => ?_
        obtain ⟨e, he, rfl⟩ := List.mem_map.mp hw
        have hmet := p.met answer c l t e
        generalize p.childWalk answer c l t e = w at hmet ⊢
        cases hmet with
        | refused => exact .stopped []
        | passed => exact .nothing
        | dead => exact .other fun _ _ h => by cases h
        | usedUp => exact .found _ _
        | turned => exact .other fun _ _ h => by cases h
        | entered => exact (Walk.Tallied.other fun _ _ h => by cases h).append (ih e.1 e.2 he _ _)

/-! ## A walk tells blocks -/

/-- What a walk tells of a child that it steps to, if a walk from the child tells its block. -/
theorem childBlock_enter {c : Cursor} {l : Location} {t : Tree}
    (ih : p.isExhausted c = false → (p.visit answer c l t).accepted.isSome = true →
      p.Block answer c l t (p.visit answer c l t).events)
    (h : (p.enter answer c l t fun _ => p.visit answer c l t).accepted.isSome = true) :
    p.ChildBlock answer c l t (p.enter answer c l t fun _ => p.visit answer c l t).events := by
  unfold enter at h ⊢
  split
  · rename_i hx
    exact .found hx
  · rename_i hx
    rw [if_neg hx] at h
    rw [Bool.not_eq_true] at hx
    dsimp only at h ⊢
    split
    · rename_i hyes
      rw [if_pos hyes, Walk.isSome_accepted_append, Bool.and_eq_true] at h
      rw [Walk.events_append h.1]
      exact .entered hx hyes (ih hx h.2)
    · rename_i hno
      exact .turned hx (by simpa using hno)

theorem childBlocks_of_childWalk {c : Cursor} {l : Location} {node : Tree} {e : Step × Tree}
    {rest : List (Step × Tree)} {es : List Event}
    (ih : ∀ {c' : Cursor} {m : Location}, p.isExhausted c' = false →
      (p.visit answer c' m e.2).accepted.isSome = true →
      p.Block answer c' m e.2 (p.visit answer c' m e.2).events)
    (h : (p.childWalk answer c l node e).accepted.isSome = true)
    (hrest : p.ChildBlocks answer c l node rest es) :
    p.ChildBlocks answer c l node (e :: rest)
      ((p.childWalk answer c l node e).events ++ es) := by
  obtain ⟨s, u⟩ := e
  unfold childWalk at h ⊢
  split at h
  · -- a walk that stops at the child is none of these
    cases h
  · rename_i hr
    rw [if_neg hr]
    cases hs : p.step? c s with
    | none =>
        cases s with
        | key k => exact .unmatched hs hrest
        | index i => exact .passed hs hrest
    | some c' =>
        simp only [hs] at h
        exact .child hs (p.childBlock_enter answer ih h) hrest

theorem childBlocks_joined {c : Cursor} {l : Location} {node : Tree} {es : List (Step × Tree)}
    (ih : ∀ e ∈ es, ∀ {c' : Cursor} {m : Location}, p.isExhausted c' = false →
      (p.visit answer c' m e.2).accepted.isSome = true →
      p.Block answer c' m e.2 (p.visit answer c' m e.2).events)
    (h : (joined (es.map (p.childWalk answer c l node))).accepted.isSome = true) :
    p.ChildBlocks answer c l node es (joined (es.map (p.childWalk answer c l node))).events := by
  induction es with
  | nil => exact .nil
  | cons e es ihes =>
      rw [List.map_cons, joined, Walk.isSome_accepted_append, Bool.and_eq_true] at h
      rw [List.map_cons, joined, Walk.events_append h.1]
      have hrest := ihes (fun e' he' => ih e' (List.mem_cons_of_mem _ he')) h.2
      exact p.childBlocks_of_childWalk answer (ih e (List.mem_cons_self ..)) h.1 hrest

/-- What a walk tells inside a node, once it is known that walks from its children tell blocks. -/
theorem inside_innerWalk {c : Cursor} {l : Location} {t : Tree}
    (ih : ∀ e ∈ t.children, ∀ {c' : Cursor} {m : Location}, p.isExhausted c' = false →
      (p.visit answer c' m e.2).accepted.isSome = true →
      p.Block answer c' m e.2 (p.visit answer c' m e.2).events)
    (h : (p.innerWalk answer c l t t).accepted.isSome = true) :
    p.Inside answer c l t (p.innerWalk answer c l t t).events := by
  unfold innerWalk at h ⊢
  split
  · rename_i ht
    rw [matchSelf_eq]
    split
    · rename_i hm
      exact .itself ht hm.1 hm.2
    · rename_i hm
      exact .scalar ht hm
  · rename_i ht
    rw [if_neg ht] at h
    exact .collection (by simpa using ht) (p.childBlocks_joined answer ih h)

/-- **A walk that does not have to stop tells the block of the node that it is from.** -/
theorem block_visit {c : Cursor} {l : Location} {t : Tree} (hc : p.isExhausted c = false)
    (h : (p.visit answer c l t).accepted.isSome = true) :
    p.Block answer c l t (p.visit answer c l t).events := by
  induction t using Tree.childInduction generalizing c l with
  | step t ih =>
    obtain hx | ⟨seg, hseg⟩ := p.exhausted_or_segment? c
    · rw [hx] at hc
      cases hc
    have htally := p.tallied_visit answer c l t
    rw [visit_eq p answer hseg] at h htally ⊢
    have hinner : (p.innerWalk answer c l t t).accepted.isSome = true := by
      rwa [accepted_closeNode] at h
    have hinside := p.inside_innerWalk answer (fun e he {_ _} hx hv => ih e.1 e.2 he hx hv) hinner
    obtain ⟨x, hx⟩ := Option.isSome_iff_exists.mp h
    have hacc := htally x hx
    rw [accepted_closeNode] at hx
    -- the closing dead end, if there is one, is no match, so the tally speaks of what is inside
    rcases closeNode_cases l t c (p.innerWalk answer c l t t) with ⟨hw, hclose⟩ | ⟨hw, hclose⟩
    · obtain rfl : false = x := Option.some.inj (hw.symm.trans hx)
      rw [hclose, Walk.events_append (by rw [hw]; rfl)] at hacc ⊢
      refine .failed hinside fun hany => ?_
      exact absurd (hacc.mpr (Walk.anyAccepted_append.mpr (.inl hany))) (by decide)
    · have htrue : x = true := by
        cases x with
        | true => rfl
        | false => exact absurd hx hw
      rw [hclose] at hacc ⊢
      exact .matched hinside (hacc.mp htrue)

/-! ## There is one block only -/

variable {p answer}

theorem ChildBlock.unique {c : Cursor} {l : Location} {t : Tree} {es es' : List Event}
    (ih : ∀ {c' : Cursor} {m : Location} {b b' : List Event},
      p.Block answer c' m t b → p.Block answer c' m t b' → b = b')
    (h : p.ChildBlock answer c l t es) (h' : p.ChildBlock answer c l t es') : es = es' := by
  cases h with
  | found hx =>
      cases h' with
      | found => rfl
      | turned hx' | entered hx' => rw [hx] at hx'; cases hx'
  | turned hx ha =>
      cases h' with
      | found hx' => rw [hx] at hx'; cases hx'
      | turned => rfl
      | entered _ ha' => rw [ha] at ha'; cases ha'
  | entered hx ha hb =>
      cases h' with
      | found hx' => rw [hx] at hx'; cases hx'
      | turned _ ha' => rw [ha] at ha'; cases ha'
      | entered _ _ hb' => rw [ih hb hb']

theorem ChildBlocks.unique {c : Cursor} {l : Location} {node : Tree} {rest : List (Step × Tree)}
    {es es' : List Event}
    (ih : ∀ e ∈ rest, ∀ {c' : Cursor} {m : Location} {b b' : List Event},
      p.Block answer c' m e.2 b → p.Block answer c' m e.2 b' → b = b')
    (h : p.ChildBlocks answer c l node rest es) (h' : p.ChildBlocks answer c l node rest es') :
    es = es' := by
  induction rest generalizing es es' with
  | nil =>
      cases h
      cases h'
      rfl
  | cons e rest ihrest =>
      have hrest : ∀ {as bs : List Event}, p.ChildBlocks answer c l node rest as →
          p.ChildBlocks answer c l node rest bs → as = bs :=
        ihrest fun e' he' => ih e' (List.mem_cons_of_mem _ he')
      cases h with
      | unmatched hs h =>
          cases h' with
          | unmatched _ h' => rw [hrest h h']
          | child hs' => rw [hs] at hs'; cases hs'
      | passed hs h =>
          cases h' with
          | passed _ h' => exact hrest h h'
          | child hs' => rw [hs] at hs'; cases hs'
      | child hs hb h =>
          cases h' with
          | unmatched hs' => rw [hs] at hs'; cases hs'
          | passed hs' => rw [hs] at hs'; cases hs'
          | child hs' hb' h' =>
              obtain rfl := Option.some.inj (hs.symm.trans hs')
              obtain rfl := hrest h h'
              rw [hb.unique (ih _ (List.mem_cons_self ..)) hb']

theorem Inside.unique {c : Cursor} {l : Location} {t : Tree} {es es' : List Event}
    (ih : ∀ e ∈ t.children, ∀ {c' : Cursor} {m : Location} {b b' : List Event},
      p.Block answer c' m e.2 b → p.Block answer c' m e.2 b' → b = b')
    (h : p.Inside answer c l t es) (h' : p.Inside answer c l t es') : es = es' := by
  cases h with
  | collection ht h =>
      cases h' with
      | collection _ h' => exact h.unique ih h'
      | itself ht' | scalar ht' => rw [ht] at ht'; cases ht'
  | itself ht hl hm =>
      cases h' with
      | collection ht' => rw [ht] at ht'; cases ht'
      | itself => rfl
      | scalar _ hm' => exact absurd ⟨hl, hm⟩ hm'
  | scalar ht hm =>
      cases h' with
      | collection ht' => rw [ht] at ht'; cases ht'
      | itself _ hl' hm' => exact absurd ⟨hl', hm'⟩ hm
      | scalar => rfl

/-- **What is told of a node is settled by the node, its cursor and the answers.** -/
theorem Block.unique {c : Cursor} {l : Location} {t : Tree} {es es' : List Event}
    (h : p.Block answer c l t es) (h' : p.Block answer c l t es') : es = es' := by
  induction t using Tree.childInduction generalizing c l es es' with
  | step t ih =>
    have hinside : ∀ {as bs : List Event}, p.Inside answer c l t as → p.Inside answer c l t bs →
        as = bs := fun h h' => h.unique (fun e he {_ _ _ _} hb hb' => ih e.1 e.2 he hb hb') h'
    cases h with
    | matched h hany =>
        cases h' with
        | matched h' => exact hinside h h'
        | failed h' hno => exact absurd (hinside h h' ▸ hany) hno
    | failed h hno =>
        cases h' with
        | matched h' hany => exact absurd (hinside h h' ▸ hany) hno
        | failed h' => rw [hinside h h']

/-! ## Walks of a document -/

variable (p answer)

/--
A walk from a node, if it did not have to stop, told the block of the node and nothing else, and it
takes the node for matched exactly if a match in the block was accepted.
-/
def TellsBlock (c : Cursor) (l : Location) (t : Tree) (w : Walk) : Prop :=
  ∀ x, w.accepted = some x → (∀ es, p.Block answer c l t es ↔ es = w.events) ∧
    (x = true ↔ Event.AnyAccepted answer w.events)

theorem tellsBlock_visit {c : Cursor} (hc : p.isExhausted c = false) (l : Location) (t : Tree) :
    p.TellsBlock answer c l t (p.visit answer c l t) := by
  intro x hx
  have hblock := p.block_visit answer hc (by rw [hx]; rfl)
  refine ⟨fun es => ⟨fun h => h.unique hblock, ?_⟩, p.tallied_visit answer c l t x hx⟩
  rintro rfl
  exact hblock

/--
**The events of a walk are nested blocks.** Whatever a walk is answered, from each node that it
enters it tells the block of the node, and so from the document; the pattern for the whole document
enters none. The answers may be those of any visitor.
-/
theorem walk_tells_blocks {d : Tree} (hd : d.DistinctKeys) (p : Pattern) :
    (∀ answer : Event → Bool,
      (∀ c seg l t, p.segment? c = some seg →
        p.TellsBlock answer c l t (p.walkNode answer c seg l t t)) ∧
      if p.isRoot then (p.walk answer d).events = []
      else p.TellsBlock answer p.start [] d (p.walk answer d)) ∧
    ∀ visitor : List Event → Event → Bool, ∃ answer : Event → Bool,
      ∀ told e, e.isQuestion = true → told ++ [e] <+: (p.walk answer d).events →
        answer e = visitor told e := by
  refine ⟨fun answer => ⟨fun c seg l t hseg => ?_, ?_⟩, p.exists_answers hd⟩
  · have hvisit : p.visit answer c l t = p.walkNode answer c seg l t t := by rw [visit, hseg]
    rw [← hvisit]
    exact p.tellsBlock_visit answer (p.not_exhausted_of_segment? hseg) l t
  · rw [walk_eq]
    split
    · rfl
    · rename_i hroot
      obtain ⟨seg, hseg⟩ := p.exists_segment?_start (by simpa using hroot)
      exact p.tellsBlock_visit answer (p.not_exhausted_of_segment? hseg) [] d

/-- A match is rejected, a node is not entered, and a position passes an item in silence. -/
theorem walk_tells_blocks_rejecting :
    let d : Tree := .mapping [(.string "a", .tagged ⟨"t"⟩ (.sequence [.null, .bool true])),
      (.string "b", .mapping [(.null, .null)]), (.string "c", .mapping [(.null, .null)])]
    let p : Pattern := ⟨"*.[1]", ".", [.wildcard, .index 1]⟩
    let a : Tree := .tagged ⟨"t"⟩ (.sequence [.null, .bool true])
    let b : Tree := .mapping [(.null, .null)]
    let key (k : String) : Location := [.key (.string k)]
    let answer : Event → Bool :=
      fun e => decide (e.place.1 ∉ [[.key (.string "a"), .index 1], key "b"])
    d.DistinctKeys ∧ p.Block answer p.start [] d
      [.partway (key "a") a ⟨1, false⟩, .found (key "a" ++ [.index 1]) (.bool true),
        .deadEnd (key "a") a ⟨1, false⟩ none, .partway (key "b") b ⟨1, false⟩,
        .partway (key "c") b ⟨1, false⟩, .deadEnd (key "c") b ⟨1, false⟩ (some (.key .null)),
        .deadEnd (key "c") b ⟨1, false⟩ none, .deadEnd [] d ⟨0, false⟩ none] := by
  intro d p a b key answer
  have hd : d.DistinctKeys := by decide +kernel
  have haccepted : (p.walk answer d).accepted = some false := by decide +kernel
  have htells := ((walk_tells_blocks hd p).1 answer).2
  exact ⟨hd, ((htells false haccepted).1 _).mpr rfl⟩

end Pattern

end TreeEdit
