import TreeEdit.Proofs.Reading

/-!
# Where an insertion grows a document

An insertion without a target grows the document at the sequences that were overrun and at the dead
ends that got furthest along the pattern. Both kinds of place are *open* (`Plan.Open`): the run of a
cursor ends there with no `**` pending and lives on into no child. That much is enough for

* no place to lie below another (`Plan.Open.apart`), so none is seen from another, and
* growth to add and never to replace (`Plan.Open.grow`): where an open stub stands, nothing is there
  yet for the first segment left.

Repeated stubs are grown once, so no two that an insertion grows are at one place
(`Plan.grown_apart`).
-/

namespace TreeEdit

/-- Neither location continues the other. -/
def Location.Apart (l m : Location) : Prop := ¬ l <+: m ∧ ¬ m <+: l

theorem Location.Apart.symm {l m : Location} (h : l.Apart m) : m.Apart l := ⟨h.2, h.1⟩

theorem Location.Apart.ne {l m : Location} (h : l.Apart m) : l ≠ m := by
  rintro rfl
  exact h.1 (List.prefix_rfl)

namespace Plan

variable {p : Pattern}

/-! ## Repeated stubs -/

theorem same_refl (seg : Segment) : seg.same seg = true := by
  cases seg <;> simp [Segment.same]

theorem sameSegments_refl (segments : List Segment) :
    Pattern.sameSegments segments segments = true := by
  induction segments with
  | nil => rfl
  | cons seg segments ih => simp [Pattern.sameSegments, same_refl, ih]

theorem sameStub_refl (s : Stub) : sameStub p s s = true := by
  simp [sameStub, Location.Same.refl, Pattern.isEquivalent, sameSegments_refl]

/-- What is left after leaving out repetitions was there before, and is like nothing seen. -/
theorem mem_distinct {seen ss : List Stub} {s : Stub} (h : s ∈ distinct p seen ss) :
    s ∈ ss ∧ ∀ r ∈ seen, sameStub p r s = false := by
  induction ss generalizing seen with
  | nil => exact absurd h (List.not_mem_nil)
  | cons a ss ih =>
      rw [distinct] at h
      split at h
      · exact ⟨List.mem_cons_of_mem _ (ih h).1, (ih h).2⟩
      · rename_i hseen
        simp only [List.any_eq_true, not_exists, not_and, Bool.not_eq_true] at hseen
        rcases List.mem_cons.mp h with rfl | h
        · exact ⟨List.mem_cons_self .., hseen⟩
        · obtain ⟨hs, hseen'⟩ := ih h
          exact ⟨List.mem_cons_of_mem _ hs, fun r hr => hseen' r (List.mem_cons_of_mem _ hr)⟩

theorem distinct_pairwise (seen ss : List Stub) :
    (distinct p seen ss).Pairwise fun a b => sameStub p a b = false := by
  induction ss generalizing seen with
  | nil => exact .nil
  | cons a ss ih =>
      rw [distinct]
      split
      · exact ih seen
      · refine List.pairwise_cons.mpr ⟨fun b hb => ?_, ih (a :: seen)⟩
        exact (mem_distinct hb).2 a (List.mem_cons_self ..)

/-! ## Open places -/

/-- The run to a stub has a segment left and no `**` pending, and lives on into no child. -/
structure Open (p : Pattern) (d : Tree) (s : Stub) (t : Tree) : Prop where
  reaches : d.Reaches s.location t
  run : p.run? p.start s.location = some s.cursor
  unused : p.isExhausted s.cursor = false
  bare : s.cursor.greedy = false
  closed : ∀ e ∈ t.children, p.step? s.cursor e.1 = none

/-- An open place that is not seen to change stays open. -/
theorem Open.of_reaches {d d' t : Tree} {s : Stub} (h : Open p d s t)
    (ht : d'.Reaches s.location t) : Open p d' s t := { h with reaches := ht }

/-- A place below an open one is that place: no longer run lives. -/
theorem Open.eq_of_prefix {d t u : Tree} {a b : Stub} (ha : Open p d a t) (hb : Open p d b u)
    (h : a.location <+: b.location) : a = b := by
  obtain ⟨m, hm⟩ := h
  have hrun := hb.run
  rw [← hm, p.run?_append, ha.run, Option.bind_some] at hrun
  cases m with
  | nil =>
      obtain ⟨la, ca⟩ := a
      obtain ⟨lb, cb⟩ := b
      obtain rfl : la = lb := by simpa using hm
      obtain rfl : ca = cb := Option.some.inj hrun
      rfl
  | cons s m =>
      have hreach := hb.reaches
      rw [← hm] at hreach
      obtain ⟨t', ht', hu⟩ := hreach.of_append
      obtain rfl := ha.reaches.unique ht'
      cases hu with
      | down hs _ =>
          rw [p.run?_cons, ha.closed _ hs.mem_children] at hrun
          cases hrun

/-- **Open places that are not one lie apart.** -/
theorem Open.apart {d t u : Tree} {a b : Stub} (ha : Open p d a t) (hb : Open p d b u)
    (h : sameStub p a b = false) : a.location.Apart b.location := by
  have hne : a ≠ b := by
    rintro rfl
    rw [sameStub_refl] at h
    cases h
  exact ⟨fun hab => hne (ha.eq_of_prefix hb hab), fun hba => hne (hb.eq_of_prefix ha hba).symm⟩

/-! ## What a walk leaves open -/

/-- Whether something was found on a walk that went through. -/
theorem rejected_fullWalk {d : Tree} (hp : p.isRoot = false)
    (h : (Verb.fullWalk p d).accepted.isSome = true) :
    (Verb.fullWalk p d).accepted = some false ↔ (Verb.fullWalk p d).foundNodes = [] := by
  rw [Verb.fullWalk_eq hp] at h ⊢
  exact p.rejected_iff_foundNodes p.start [] d h

theorem extensions_ofWalk {d : Tree} (hp : p.isRoot = false)
    (h : (Verb.fullWalk p d).accepted.isSome = true) :
    (ofWalk p (Verb.fullWalk p d)).extensions =
      ((p.visits p.start d.nodes).filter p.overruns).map (Pattern.stub []) := by
  obtain ⟨seg, hseg⟩ := p.exists_segment?_start hp
  rw [Verb.fullWalk_eq hp] at h ⊢
  exact p.extensions_visit hseg [] d h

/-- A stub beyond the end of a sequence stands at a node that is open for it. -/
theorem open_of_overruns {d : Tree} (hd : d.DistinctKeys) {v : Visit}
    (hv : v ∈ p.visits p.start d.nodes) (h : p.overruns v = true) :
    Open p d (Pattern.stub [] v) v.node := by
  obtain ⟨hnode, hrun⟩ := p.mem_visits.mp hv
  obtain ⟨items, n, -, hseg, -, hg⟩ := p.overruns_iff.mp h
  exact ⟨hd.reaches hnode, hrun, p.not_exhausted_of_segment? hseg, hg,
    fun e he => p.step?_of_overruns h he⟩

theorem open_of_mem_extensions {d : Tree} (hd : d.DistinctKeys) (hp : p.isRoot = false)
    (h : (Verb.fullWalk p d).accepted.isSome = true) {s : Stub}
    (hs : s ∈ (ofWalk p (Verb.fullWalk p d)).extensions) : ∃ t, Open p d s t := by
  rw [extensions_ofWalk hp h, List.mem_map] at hs
  obtain ⟨v, hv, rfl⟩ := hs
  obtain ⟨hv, hover⟩ := List.mem_filter.mp hv
  exact ⟨v.node, open_of_overruns hd hv hover⟩

theorem stub?_eq_some_iff {e : Event} {s : Stub} :
    stub? e = some s ↔ ∃ node um, e = .deadEnd s.location node s.cursor um := by
  obtain ⟨l, c⟩ := s
  cases e <;> simp [stub?]

/-- Every stub is a place where the run of a cursor lives, with that cursor. -/
theorem exists_visit_of_mem_stubs {d : Tree} (hp : p.isRoot = false) {s : Stub}
    (hs : s ∈ (ofWalk p (Verb.fullWalk p d)).stubs) :
    ∃ v ∈ p.visits p.start d.nodes, Pattern.stub [] v = s ∧ p.isExhausted v.cursor = false := by
  obtain ⟨e, he, hstub⟩ := List.mem_filterMap.mp hs
  obtain ⟨node, um, rfl⟩ := stub?_eq_some_iff.mp hstub
  rw [Verb.fullWalk_eq hp] at he
  exact p.deadEnd_of_mem_visit he

/-- No stub is further along than the furthest. -/
theorem pos_le_depth {plan : Plan} {s : Stub} (hs : s ∈ plan.stubs) :
    s.cursor.pos ≤ plan.depth := by
  have hmono : ∀ (ss : List Stub) (n : Nat), n ≤ ss.foldl (fun n s => max n s.cursor.pos) n ∧
      ∀ s ∈ ss, s.cursor.pos ≤ ss.foldl (fun n s => max n s.cursor.pos) n := by
    intro ss
    induction ss with
    | nil => simp
    | cons a ss ih =>
        intro n
        obtain ⟨hle, hmem⟩ := ih (max n a.cursor.pos)
        refine ⟨by simp only [List.foldl_cons]; omega, fun s hs => ?_⟩
        rcases List.mem_cons.mp hs with rfl | hs
        · simp only [List.foldl_cons]; omega
        · exact hmem s hs
  exact (hmono plan.stubs 0).2 s hs

/--
Where nothing was found the stubs furthest along are open: a child that the run lived on into would
be a match, or a stub further along.
-/
theorem open_of_mem_furthest {d : Tree} (hd : d.DistinctKeys) (hp : p.isRoot = false)
    (h : (Verb.fullWalk p d).accepted.isSome = true)
    (hnone : (Verb.fullWalk p d).foundNodes = []) {s : Stub}
    (hs : s ∈ (ofWalk p (Verb.fullWalk p d)).furthest) (hg : s.cursor.greedy = false) :
    ∃ t, Open p d s t := by
  have hrej := (rejected_fullWalk hp h).mpr hnone
  obtain ⟨hs, hdepth⟩ := List.mem_filter.mp hs
  obtain ⟨v, hv, rfl, hx⟩ := exists_visit_of_mem_stubs hp hs
  obtain ⟨hnode, hrun⟩ := p.mem_visits.mp hv
  refine ⟨v.node, hd.reaches hnode, hrun, hx, hg, fun e he => ?_⟩
  change p.step? v.cursor e.1 = none
  cases hstep : p.step? v.cursor e.1 with
  | none => rfl
  | some c =>
      have hrun' : p.run? p.start (v.location ++ [e.1]) = some c := by
        rw [p.run?_append, hrun, Option.bind_some, p.run?_cons, hstep]
        rfl
      have hnode' : (v.location ++ [e.1], e.2) ∈ d.nodes :=
        ((hd.reaches hnode).append (.down ((hd.node hnode).leads he) .here)).mem_nodes
      have hv' : ⟨v.location ++ [e.1], e.2, c⟩ ∈ p.visits p.start d.nodes :=
        p.mem_visits.mpr ⟨hnode', hrun'⟩
      cases hx' : p.isExhausted c with
      | true =>
          -- the child is a match, but nothing was found
          have hmatch : p.Matches (v.location ++ [e.1]) e.2 := ⟨c, hrun', .inl hx'⟩
          have := (Verb.mem_foundNodes_fullWalk hp hd h).mpr ⟨hd.reaches hnode', hmatch⟩
          rw [hnone] at this
          cases this
      | false =>
          -- the child is a stub itself, and further along than the furthest
          rw [Verb.fullWalk_eq hp] at hrej
          have hdead := p.mem_visit_of_rejected hrej hv' hx'
          rw [← Verb.fullWalk_eq hp] at hdead
          have hle : c.pos ≤ (ofWalk p (Verb.fullWalk p d)).depth :=
            pos_le_depth (s := ⟨v.location ++ [e.1], c⟩)
              (List.mem_filterMap.mpr ⟨_, hdead, by simp [stub?]⟩)
          have hlt := p.lt_advance v.cursor
          rw [← p.step?_of_not_greedy hstep hg] at hlt
          have hpos : v.cursor.pos = (ofWalk p (Verb.fullWalk p d)).depth :=
            of_decide_eq_true hdepth
          omega

theorem open_of_mem_extended {d : Tree} (hd : d.DistinctKeys) (hp : p.isRoot = false)
    (h : (Verb.fullWalk p d).accepted.isSome = true) {s : Stub}
    (hs : s ∈ (ofWalk p (Verb.fullWalk p d)).extended) : ∃ t, Open p d s t := by
  rw [extended, List.mem_reverse] at hs
  exact open_of_mem_extensions hd hp h (mem_distinct hs).1

/-- No sequence that an insertion extends is another or below it. -/
theorem extended_apart {d : Tree} (hd : d.DistinctKeys) (hp : p.isRoot = false)
    (h : (Verb.fullWalk p d).accepted.isSome = true) :
    (ofWalk p (Verb.fullWalk p d)).extended.Pairwise fun a b => a.location.Apart b.location := by
  rw [extended, List.pairwise_reverse]
  refine (distinct_pairwise [] _).imp_of_mem fun {a b} ha hb hsame => ?_
  obtain ⟨t, ht⟩ := open_of_mem_extensions hd hp h (mem_distinct ha).1
  obtain ⟨u, hu⟩ := open_of_mem_extensions hd hp h (mem_distinct hb).1
  exact (ht.apart hu hsame).symm

/-- Everything that an insertion without a target grows. -/
def grown (plan : Plan) : List Stub := plan.extended ++ plan.growths

theorem open_of_mem_grown {d : Tree} (hd : d.DistinctKeys) (hp : p.isRoot = false)
    (h : (Verb.fullWalk p d).accepted.isSome = true)
    (hnone : (Verb.fullWalk p d).foundNodes = []) {s : Stub}
    (hs : s ∈ (ofWalk p (Verb.fullWalk p d)).grown) : ∃ t, Open p d s t := by
  rcases List.mem_append.mp hs with hs | hs
  · exact open_of_mem_extended hd hp h hs
  · obtain ⟨hs, hg⟩ := List.mem_filter.mp (mem_distinct hs).1
    exact open_of_mem_furthest hd hp h hnone hs (by simpa using hg)

/-- **Of the places that an insertion without a target grows none is another or below it.** -/
theorem grown_apart {d : Tree} (hd : d.DistinctKeys) (hp : p.isRoot = false)
    (h : (Verb.fullWalk p d).accepted.isSome = true)
    (hnone : (Verb.fullWalk p d).foundNodes = []) :
    (ofWalk p (Verb.fullWalk p d)).grown.Pairwise fun a b => a.location.Apart b.location := by
  have hapart : ∀ a ∈ (ofWalk p (Verb.fullWalk p d)).grown,
      ∀ b ∈ (ofWalk p (Verb.fullWalk p d)).grown, sameStub p a b = false →
        a.location.Apart b.location := by
    intro a ha b hb hsame
    obtain ⟨t, ht⟩ := open_of_mem_grown hd hp h hnone ha
    obtain ⟨u, hu⟩ := open_of_mem_grown hd hp h hnone hb
    exact ht.apart hu hsame
  have hleft : ∀ s ∈ (ofWalk p (Verb.fullWalk p d)).extended,
      s ∈ (ofWalk p (Verb.fullWalk p d)).grown := fun _ hs => List.mem_append_left _ hs
  have hright : ∀ s ∈ (ofWalk p (Verb.fullWalk p d)).growths,
      s ∈ (ofWalk p (Verb.fullWalk p d)).grown := fun _ hs => List.mem_append_right _ hs
  refine List.pairwise_append.mpr ⟨extended_apart hd hp h, ?_, fun a ha b hb => ?_⟩
  · refine (distinct_pairwise _ _).imp_of_mem fun {a b} ha hb hsame => ?_
    exact hapart a (hright a ha) b (hright b hb) hsame
  · -- what was extended counts as seen when the growths are chosen
    refine hapart a (hleft a ha) b (hright b hb) ((mem_distinct hb).2 a ?_)
    rw [extended, List.mem_reverse] at ha
    exact (mem_distinct ha).1

end Plan

end TreeEdit
