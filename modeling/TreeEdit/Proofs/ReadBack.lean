import TreeEdit.Proofs.Growth

/-!
# What was inserted is read back

Reading after an insertion that found nothing gives the content once for each place that was grown
(`Verb.read_of_insert`). A place that sprouts is read as the content once, because the new child is
the only one that the first segment left matches and the containers of the chain are found again
segment by segment (`Plan.reads_of_sprouts`). From there the change is followed up to the root: what
is read gets one value more at each step, and no sequence appears where a `**` is pending
(`Plan.Planted`).
-/

namespace TreeEdit

namespace Pattern

variable (p : Pattern)

/-- The values that a walk from a cursor finds among some nodes. -/
def yield (c : Cursor) (ns : List (Location × Tree)) : List Tree :=
  ((p.visits c ns).filter p.hits).map Visit.node

/-- The values found at and below a child. -/
def yieldOfChild (c : Cursor) (e : Step × Tree) : List Tree :=
  match p.step? c e.1 with
  | none => []
  | some c' => p.yield c' e.2.nodes

/-- A walk from a cursor does not get stuck. -/
def Free (c : Cursor) (t : Tree) : Prop := ∀ v ∈ p.visits c t.nodes, p.stuck v = false

theorem yield_descendants (c : Cursor) (t : Tree) :
    p.yield c t.descendants = t.children.flatMap (p.yieldOfChild c) := by
  rw [yield, visits_descendants, List.filter_flatMap, List.map_flatMap]
  refine List.flatMap_congr fun e _ => ?_
  unfold visitsOfChild yieldOfChild
  cases p.step? c e.1 with
  | none => rfl
  | some c' =>
      simp only [yield]
      rw [List.filter_map, List.map_map]
      rfl

/-- A node that is no hit itself gives what is below it. -/
theorem yield_nodes {c : Cursor} {t : Tree} (hx : p.isExhausted c = false)
    (hself : p.selfMatch c t = false) : p.yield c t.nodes = p.yield c t.descendants := by
  unfold yield
  rw [visits_nodes, List.filter_cons_of_neg (by simp [hits, hx, hself])]

theorem free_iff {c : Cursor} {t : Tree} :
    p.Free c t ↔ (∀ e ∈ t.children, p.refuses c e = false) ∧
      ∀ e ∈ t.children, ∀ c', p.step? c e.1 = some c' → p.Free c' e.2 := by
  unfold Free
  rw [visits_nodes, visits_descendants]
  simp only [List.mem_cons, forall_eq_or_imp, List.mem_flatMap]
  refine and_congr (by simp [stuck]) ?_
  constructor
  · intro h e he c' hc' v hv
    refine h (v.under e.1) ⟨e, he, ?_⟩
    rw [visitsOfChild, hc']
    exact List.mem_map_of_mem hv
  · rintro h v ⟨e, he, hv⟩
    unfold visitsOfChild at hv
    split at hv
    · cases hv
    · rename_i c' hc'
      obtain ⟨v', hv', rfl⟩ := List.mem_map.mp hv
      exact h e he c' hc' v' hv'

end Pattern

namespace Verb

variable {p : Pattern}

/-- The full walk goes through exactly if it gets stuck nowhere. -/
theorem isSome_accepted_iff_free (hp : p.isRoot = false) (d : Tree) :
    (fullWalk p d).accepted.isSome = true ↔ p.Free p.start d := by
  rw [fullWalk_eq hp]
  exact p.isSome_accepted_visit p.start [] d

/-- Reading gives what the walk from the start finds, or the walk gets stuck. -/
theorem read_eq_ok_iff (hp : p.isRoot = false) (listDelimiter : String) (d r : Tree) :
    read.apply p listDelimiter d = .ok r ↔
      p.Free p.start d ∧ r = .sequence (p.yield p.start d.descendants) := by
  have hfree := isSome_accepted_iff_free hp d
  cases hsome : (fullWalk p d).accepted.isSome with
  | true =>
      have hfound : (fullWalk p d).foundNodes.map Prod.snd = p.yield p.start d.descendants := by
        rw [foundNodes_fullWalk hp hsome, List.map_map]
        rfl
      simp [apply, checkWalk, hsome, targets, hp, hfound, hfree.mp hsome, bind, Except.bind, pure,
        Except.pure, eq_comm]
  | false =>
      have hstuck : ¬ p.Free p.start d := fun h => by
        rw [hfree.mpr h] at hsome
        cases hsome
      simp [apply, checkWalk, hsome, hstuck, bind, Except.bind]

end Verb

namespace Plan

variable {p : Pattern} {content : Tree}

/-! ## A place that sprouts is read as the content once -/

/-- The new child comes last, and apart from it the segment matches nothing that is new. -/
theorem Sprouts.children {head : Segment} {inner old new : Tree}
    (h : Sprouts head inner old new) :
    ∃ pads s, new.children = old.children ++ pads ++ [(s, inner)] ∧
      head.matchesStep s = true ∧ ∀ e ∈ pads, head.matchesStep e.1 = false := by
  have hpads : ∀ n i k : Nat, i + k = n →
      ∀ e ∈ Tree.itemSteps i (List.replicate k .null),
        (Segment.index n).matchesStep e.1 = false := by
    rintro n i k rfl ⟨s, u⟩ he
    obtain ⟨m, rfl, hm⟩ := Tree.mem_itemSteps.mp he
    have hlt := (List.getElem?_eq_some_iff.mp hm).1
    rw [List.length_replicate] at hlt
    simp only [Segment.matchesStep, Segment.matchesIndex, decide_eq_false_iff_not]
    omega
  cases h with
  | @entry text regex _ _ es hc hnew =>
      refine ⟨[], .key (.string text), ?_, by simp [Segment.matchesStep, Segment.matchesKey,
        Tree.text?, Segment.matchesText], by simp⟩
      rw [Tree.children_retag, Tree.children_of_untag hc]
      simp [Tree.children, Tree.entrySteps]
  | @item n pads _ _ items hc hlen =>
      simp only [List.length_append, List.length_replicate, List.length_singleton] at hlen
      refine ⟨Tree.itemSteps items.length (List.replicate pads .null), .index n, ?_,
        by simp [Segment.matchesStep, Segment.matchesIndex], hpads n _ _ (by omega)⟩
      rw [Tree.children_retag, Tree.children_of_untag hc]
      simp only [Tree.children, Tree.itemSteps_append, Tree.itemSteps, List.length_append,
        List.length_replicate, Nat.zero_add]
      rw [show items.length + pads = n by omega]
  | @blankEntry text regex _ _ hb =>
      refine ⟨[], .key (.string text), ?_, by simp [Segment.matchesStep, Segment.matchesKey,
        Tree.text?, Segment.matchesText], by simp⟩
      rw [Tree.children_retag, Tree.children_eq_nil_of_isScalar (isScalar_of_isBlank hb)]
      rfl
  | @blankItem n _ _ hb =>
      refine ⟨Tree.itemSteps 0 (List.replicate n .null), .index n, ?_,
        by simp [Segment.matchesStep, Segment.matchesIndex], hpads n _ _ (by omega)⟩
      rw [Tree.children_retag, Tree.children_eq_nil_of_isScalar (isScalar_of_isBlank hb)]
      simp [Tree.padded, Tree.children, Tree.itemSteps_append, Tree.itemSteps]

theorem Sprouts.not_isScalar {head : Segment} {inner old new : Tree}
    (h : Sprouts head inner old new) : new.isScalar = false := by
  obtain ⟨pads, s, hchildren, -⟩ := h.children
  have hmem : (s, inner) ∈ new.children := by rw [hchildren]; simp
  exact Tree.not_isScalar_of_mem_children hmem

/-- The containers of a chain sprout out of nothing. -/
theorem chain_cons {seg : Segment} {segs : List Segment} {t : Tree}
    (h : chain content (seg :: segs) = .ok t) :
    ∃ inner, chain content segs = .ok inner ∧ Sprouts seg inner .null t := by
  rw [chain] at h
  cases hinner : chain content segs with
  | error e => rw [hinner] at h; cases h
  | ok inner =>
      rw [hinner] at h
      refine ⟨inner, rfl, ?_⟩
      cases seg with
      | literal text regex =>
          obtain rfl := Except.ok.inj h
          exact .blankEntry rfl
      | index n =>
          obtain rfl := Except.ok.inj h
          exact .blankItem rfl
      | wildcard | greedy => cases h

/-- Where a chain can be built for the segments that follow, a cursor moves on by one. -/
theorem advance_of_chain {c : Cursor} {head : Segment} {tail : List Segment} {inner : Tree}
    (hrem : p.remaining c = head :: tail) (h : chain content tail = .ok inner) :
    p.advance c = ⟨c.pos + 1, false⟩ ∧ p.remaining (p.advance c) = tail := by
  have htail := (p.remaining_eq_cons_iff.mp hrem).2
  have hadv : p.advance c = ⟨c.pos + 1, false⟩ := by
    refine p.advance_of_not_greedy fun seg hseg => ?_
    rw [← List.head?_drop, htail] at hseg
    cases tail with
    | nil => cases hseg
    | cons seg' segs =>
        obtain rfl := Option.some.inj hseg
        obtain ⟨inner', -, hsprouts⟩ := chain_cons h
        cases hsprouts <;> rfl
  exact ⟨hadv, by rw [hadv]; exact htail⟩

/-- What sprouts is read in the new child only. -/
theorem read_of_sprouts {c : Cursor} {head : Segment} {inner old new : Tree}
    (hseg : p.segment? c = some head) (hg : c.greedy = false)
    (hclosed : ∀ e ∈ old.children, p.step? c e.1 = none) (h : Sprouts head inner old new)
    (hfree : p.Free (p.advance c) inner) :
    p.Free c new ∧ p.yield c new.descendants = p.yield (p.advance c) inner.nodes := by
  obtain ⟨pads, s, hchildren, hs, hpads⟩ := h.children
  have hdead : ∀ e ∈ old.children ++ pads, p.step? c e.1 = none := by
    intro e he
    rcases List.mem_append.mp he with he | he
    · exact hclosed e he
    · exact (p.step?_eq_none_iff hseg).mpr ⟨hpads e he, hg⟩
  have hlive : p.step? c s = some (p.advance c) := by simp [Pattern.step?, hseg, hs]
  constructor
  · refine p.free_iff.mpr ⟨fun e _ => ?_, fun e he c' hc' => ?_⟩
    · unfold Pattern.refuses
      rw [hseg, hg]
      cases e.1 <;> simp
    · rw [hchildren, List.mem_append, List.mem_singleton] at he
      rcases he with he | rfl
      · rw [hdead e he] at hc'; cases hc'
      · rw [hlive] at hc'
        obtain rfl := Option.some.inj hc'
        exact hfree
  · have hnone : (old.children ++ pads).flatMap (p.yieldOfChild c) = [] := by
      refine List.flatMap_eq_nil_iff.mpr fun e he => ?_
      simp [Pattern.yieldOfChild, hdead e he]
    rw [p.yield_descendants, hchildren, List.flatMap_append, hnone]
    simp [Pattern.yieldOfChild, hlive]

/-- **A chain is read as its content, by a cursor with just its segments left.** -/
theorem read_of_chain {c : Cursor} {segs : List Segment} {t : Tree} (hg : c.greedy = false)
    (hrem : p.remaining c = segs) (h : chain content segs = .ok t) :
    p.Free c t ∧ p.yield c t.nodes = [content] := by
  induction segs generalizing c t with
  | nil =>
      obtain rfl := Except.ok.inj h
      have hx := p.remaining_eq_nil_iff.mp hrem
      rw [Pattern.yield, Pattern.Free, p.visits_of_exhausted hx]
      simp [Pattern.hits, hx, p.stuck_of_exhausted]
  | cons seg segs ih =>
      obtain ⟨inner, hinner, hsprouts⟩ := chain_cons h
      obtain ⟨hadv, hrem'⟩ := advance_of_chain hrem hinner
      have hg' : (p.advance c).greedy = false := by rw [hadv]
      obtain ⟨hfree, hyield⟩ := ih hg' hrem' hinner
      have hseg := (p.remaining_eq_cons_iff.mp hrem).1
      obtain ⟨hfree', hyield'⟩ := read_of_sprouts hseg hg (by simp [Tree.children]) hsprouts hfree
      refine ⟨hfree', ?_⟩
      rw [p.yield_nodes (p.not_exhausted_of_segment? hseg)
        (p.selfMatch_of_not_isScalar hsprouts.not_isScalar), hyield', hyield]

/-! ## A growth seen from above -/

/-- A walk from the cursor finds the content once more in `t'` than in `t`. -/
structure Planted (p : Pattern) (content : Tree) (c : Cursor) (t t' : Tree) : Prop where
  solid : t'.isScalar = false
  /-- no sequence appears where a `**` is pending -/
  kind : c.greedy = true → t'.isSequence = t.isSequence
  free : p.Free c t'
  yield : (p.yield c t'.descendants).Perm (content :: p.yield c t.descendants)

/-- At the place itself. -/
theorem Grows.planted {c : Cursor} {old new : Tree} (h : Grows p content c old new)
    (hg : c.greedy = false) (hclosed : ∀ e ∈ old.children, p.step? c e.1 = none) :
    Planted p content c old new := by
  obtain ⟨head, tail, inner, hrem, hchain, hsprouts⟩ := h
  obtain ⟨hadv, hrem'⟩ := advance_of_chain hrem hchain
  obtain ⟨hfree, hyield⟩ := read_of_chain (by rw [hadv]) hrem' hchain
  have hseg := (p.remaining_eq_cons_iff.mp hrem).1
  obtain ⟨hfree', hyield'⟩ := read_of_sprouts hseg hg hclosed hsprouts hfree
  refine ⟨hsprouts.not_isScalar, fun hgreedy => ?_, hfree', ?_⟩
  · rw [hg] at hgreedy
    cases hgreedy
  · have hold : p.yield c old.descendants = [] := by
      rw [p.yield_descendants, List.flatMap_eq_nil_iff]
      intro e he
      simp [Pattern.yieldOfChild, hclosed e he]
    rw [hyield', hyield, hold]

theorem isSequence_setChild {t u v : Tree} {s : Step} (h : t.Leads s u) :
    (t.setChild s v).isSequence = t.isSequence ∧ (t.setChild s v).isScalar = false := by
  cases h with
  | entry hc _ =>
      simp [Tree.setChild, Tree.isSequence, Tree.isScalar, hc, Tree.untag_retag, Tree.untag]
  | item hc _ =>
      simp [Tree.setChild, Tree.isSequence, Tree.isScalar, hc, Tree.untag_retag, Tree.untag]

/-- One step further up. -/
theorem Planted.up {c c' : Cursor} {t u v : Tree} {s : Step} (hs : t.Leads s u)
    (hstep : p.step? c s = some c') (hx : p.isExhausted c' = false)
    (hself : p.selfMatch c' u = false) (hfree : p.Free c t) (h : Planted p content c' u v) :
    Planted p content c t (t.setChild s v) := by
  obtain ⟨pre, post, ht, ht'⟩ := hs.children_setChild
  obtain ⟨hseq, hscalar⟩ := isSequence_setChild (v := v) hs
  obtain ⟨hrefuses, hbelow⟩ := p.free_iff.mp hfree
  refine ⟨hscalar, fun _ => hseq, p.free_iff.mpr ⟨fun e he => ?_, fun e he c'' hc'' => ?_⟩, ?_⟩
  · -- the step is selected, or a `**` is pending and `v` is a sequence only if `u` is
    have hsame : p.refuses c (s, v) = p.refuses c (s, u) := by
      unfold Pattern.refuses
      obtain ⟨seg, hseg, ⟨hm, -⟩ | ⟨-, hg, rfl⟩⟩ := p.step?_cases hstep
      · cases s with
        | key k => rfl
        | index i =>
            have hm' : seg.matchesIndex i = true := hm
            simp [hseg, hm']
      · rw [h.kind hg]
    rw [ht' v] at he
    rw [ht] at hrefuses
    rcases List.mem_append.mp he with he | he
    · exact hrefuses e (List.mem_append_left _ he)
    · rcases List.mem_cons.mp he with rfl | he
      · rw [hsame]
        exact hrefuses (s, u) (by simp)
      · exact hrefuses e (List.mem_append_right _ (List.mem_cons_of_mem _ he))
  · rw [ht' v] at he
    rw [ht] at hbelow
    rcases List.mem_append.mp he with he | he
    · exact hbelow e (List.mem_append_left _ he) c'' hc''
    · rcases List.mem_cons.mp he with rfl | he
      · rw [hstep] at hc''
        obtain rfl := Option.some.inj hc''
        exact h.free
      · exact hbelow e (List.mem_append_right _ (List.mem_cons_of_mem _ he)) c'' hc''
  · have hu : p.yieldOfChild c (s, u) = p.yield c' u.descendants := by
      simp [Pattern.yieldOfChild, hstep, p.yield_nodes hx hself]
    have hv : p.yieldOfChild c (s, v) = p.yield c' v.descendants := by
      simp [Pattern.yieldOfChild, hstep, p.yield_nodes hx (p.selfMatch_of_not_isScalar h.solid)]
    rw [p.yield_descendants, p.yield_descendants, ht, ht' v, List.flatMap_append,
      List.flatMap_append, List.flatMap_cons, List.flatMap_cons, hu, hv]
    refine ((h.yield.append_right _).append_left _).trans ?_
    exact List.perm_middle

/-- A growth changes what is read from every place above it. -/
theorem Planted.of_reaches {c c' : Cursor} {t t' old new : Tree} {l : Location}
    (hl : t.Reaches l old) (hset : t.set? l new = some t') (hrun : p.run? c l = some c')
    (hx : p.isExhausted c' = false) (hself : l ≠ [] → p.selfMatch c' old = false)
    (hfree : p.Free c t) (h : Planted p content c' old new) : Planted p content c t t' := by
  induction hl generalizing c t' with
  | here =>
      obtain rfl := Option.some.inj hset
      obtain rfl := Option.some.inj hrun
      exact h
  | @down t u _ s l hs hl ih =>
      rw [hs.set?_cons] at hset
      obtain ⟨v, hv, rfl⟩ := Option.map_eq_some_iff.mp hset
      rw [p.run?_cons] at hrun
      obtain ⟨c₁, hstep, hrun⟩ := Option.bind_eq_some_iff.mp hrun
      have hfree' := (p.free_iff.mp hfree).2 (s, u) hs.mem_children c₁ hstep
      have hself' := hself (by simp)
      have hx₁ : p.isExhausted c₁ = false := by
        cases hc₁ : p.isExhausted c₁ with
        | false => rfl
        | true =>
            obtain ⟨-, rfl⟩ := p.eq_nil_of_run?_of_exhausted hrun hc₁
            rw [hc₁] at hx
            cases hx
      refine .up hs hstep hx₁ ?_ hfree (ih hv hrun (fun _ => hself') hfree' h)
      -- no node on the way is a hit: the place itself is none, and the others have children
      cases hl with
      | here =>
          obtain rfl := Option.some.inj hrun
          exact hself'
      | down hr _ =>
          exact p.selfMatch_of_not_isScalar (Tree.not_isScalar_of_mem_children hr.mem_children)

/-- **Each of the growths puts the content once more among what is read.** -/
theorem yield_of_run {t t' : Tree} {ss : List Stub}
    (hopen : ∀ s ∈ ss, ∃ old, Open p t s old ∧
      (s.location ≠ [] → p.selfMatch s.cursor old = false))
    (hapart : ss.Pairwise fun a b => a.location.Apart b.location) (hfree : p.Free p.start t)
    (h : Plan.run p Stub.location (Plan.grow p content) t ss = .ok t') :
    p.Free p.start t' ∧ (p.yield p.start t'.descendants).Perm
      (List.replicate ss.length content ++ p.yield p.start t.descendants) := by
  induction ss generalizing t with
  | nil =>
      obtain rfl := Except.ok.inj h
      exact ⟨hfree, .refl _⟩
  | cons s ss ih =>
      rw [Plan.run] at h
      split at h
      · rename_i t₁ hgrow
        obtain ⟨old, hs, hself⟩ := hopen s (List.mem_cons_self ..)
        obtain ⟨hapart, hpairs⟩ := List.pairwise_cons.mp hapart
        obtain ⟨new, hgrows, hset⟩ := hs.grow hgrow
        have hplanted := (hgrows.planted hs.bare hs.closed).of_reaches hs.reaches hset hs.run
          hs.unused hself hfree
        -- the places still to be grown lie apart from this one and stay open
        have hopen' : ∀ r ∈ ss, ∃ old, Open p t₁ r old ∧
            (r.location ≠ [] → p.selfMatch r.cursor old = false) := by
          intro r hr
          obtain ⟨old, hr', hself⟩ := hopen r (List.mem_cons_of_mem _ hr)
          exact ⟨old, hr'.of_grown (hs.grown hgrow) (by simpa using hapart r hr), hself⟩
        obtain ⟨hfree', hperm⟩ := ih hopen' hpairs hplanted.free h
        refine ⟨hfree', hperm.trans ?_⟩
        rw [List.length_cons, List.replicate_succ, List.cons_append]
        exact (hplanted.yield.append_left _).trans List.perm_middle
      · cases h

end Plan

namespace Verb

variable {p : Pattern} {content : Tree}

/--
**What was inserted is read back.** Where reading gives nothing, reading after an insertion gives
the content once for each place that was grown: the sequences extended and the locations created,
as the summary of the insertion counts them. No place is grown twice, and where there is none the
document stays as it is.
-/
theorem read_of_insert {d d' : Tree} (hd : d.DistinctKeys) (hp : p.isRoot = false)
    {listDelimiter : String} (hread : read.apply p listDelimiter d = .ok (.sequence []))
    (hinsert : (insert content).apply p listDelimiter d = .ok d') :
    let plan := Plan.ofWalk p (fullWalk p d)
    read.apply p listDelimiter d' = .ok (.sequence
        (List.replicate (plan.extended.length + plan.growths.length) content)) ∧
      ((plan.extended ++ plan.growths).map Stub.location).Nodup ∧
      (∀ s ∈ plan.extended ++ plan.growths, ∃ old new, d.Reaches s.location old ∧
        d'.Reaches s.location new ∧ Plan.Grows p content s.cursor old new) ∧
      (plan.extended.length + plan.growths.length = 0 → d' = d) := by
  obtain ⟨hfree, hnil⟩ := (read_eq_ok_iff hp listDelimiter d _).mp hread
  have hsome : (fullWalk p d).accepted.isSome = true := by
    rw [fullWalk_eq hp]
    exact (p.isSome_accepted_visit p.start [] d).mpr hfree
  have hfound : (fullWalk p d).foundNodes = [] := by
    have := Tree.sequence.inj hnil
    rw [foundNodes_fullWalk hp hsome]
    simpa [Pattern.yield] using this.symm
  have hrun := (run_grown_of_insert hp hfound hinsert).2
  have hapart := Plan.grown_apart hd hp hsome hfound
  have hopen : ∀ s ∈ (Plan.ofWalk p (fullWalk p d)).grown, ∃ old, Plan.Open p d s old ∧
      (s.location ≠ [] → p.selfMatch s.cursor old = false) := by
    intro s hs
    obtain ⟨old, hs⟩ := Plan.open_of_mem_grown hd hp hsome hfound hs
    refine ⟨old, hs, fun hl => ?_⟩
    cases hself : p.selfMatch s.cursor old with
    | false => rfl
    | true =>
        have hmatch : p.Matches s.location old :=
          (Pattern.matches_iff hp).mpr ⟨hl, s.cursor, hs.run, by simp [Pattern.hits, hself]⟩
        have := (mem_foundNodes_fullWalk hp hd hsome).mpr ⟨hs.reaches, hmatch⟩
        rw [hfound] at this
        cases this
  obtain ⟨hfree', hperm⟩ := Plan.yield_of_run hopen hapart hfree hrun
  refine ⟨(read_eq_ok_iff hp listDelimiter d' _).mpr ⟨hfree', ?_⟩, ?_, ?_, fun hzero => ?_⟩
  · rw [← Tree.sequence.inj hnil, List.append_nil] at hperm
    rw [List.perm_replicate.mp hperm, Plan.grown, List.length_append]
  · exact List.pairwise_map.mpr (hapart.imp fun hab => hab.ne)
  · refine (Plan.grown_of_run (fun s hs => ?_) hapart hrun).sprouts
    obtain ⟨old, hs, -⟩ := hopen s hs
    exact ⟨old, hs⟩
  · rw [List.eq_nil_of_length_eq_zero (l := (Plan.ofWalk p (fullWalk p d)).grown)
      (by rw [Plan.grown, List.length_append]; exact hzero)] at hrun
    exact (Except.ok.inj hrun).symm

/-- One sequence is extended, one location is created, and the content is read twice. -/
theorem read_of_insert_at_two_places :
    let d : Tree := .mapping [(.string "a", .sequence [.bool true]), (.string "b", .null)]
    let d' : Tree := .mapping [(.string "a", .sequence [.bool true, .bool false]),
      (.string "b", .sequence [.null, .bool false])]
    let p : Pattern := ⟨"*.[1]", ".", [.wildcard, .index 1]⟩
    let plan := Plan.ofWalk p (fullWalk p d)
    read.apply p "." d = .ok (.sequence []) ∧ (insert (.bool false)).apply p "." d = .ok d' ∧
      plan.extended.length = 1 ∧ plan.growths.length = 1 ∧
      read.apply p "." d' = .ok (.sequence
        (List.replicate (plan.extended.length + plan.growths.length) (.bool false))) := by
  intro d d' p plan
  have hd : d.DistinctKeys := by decide +kernel
  have hread : read.apply p "." d = .ok (.sequence []) := by decide +kernel
  have hinsert : (insert (.bool false)).apply p "." d = .ok d' := by decide +kernel
  exact ⟨hread, hinsert, by decide +kernel, by decide +kernel,
    (read_of_insert hd (by decide) hread hinsert).1⟩

end Verb

end TreeEdit
