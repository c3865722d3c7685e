import TreeEdit.Proofs.FullWalk

/-!
# Reading gives the declared matches

A pattern declares matches without walking: `Pattern.Matches` looks at one location and the node
there, `Pattern.Blocked` at the sequences that stand directly in sequences under a pending `**`.

A document whose keys are distinct is read without fail exactly if nothing blocks the pattern, and
then the values read are those of the matches, each once and in document order.
-/

namespace TreeEdit

namespace Pattern

variable (p : Pattern)

/--
The pattern matches the node at a location: the run uses it up with the last step, or ends with one
literal left and no `**` pending at a scalar whose text the literal matches. The document as a whole
does not match itself.
-/
def Matches (l : Location) (t : Tree) : Prop :=
  ∃ c, p.run? p.start l = some c ∧
    (p.isExhausted c = true ∨
      (l ≠ [] ∧ c.greedy = false ∧ ∃ text regex s, p.remaining c = [.literal text regex] ∧
        t.text? = some s ∧ (Segment.literal text regex).matchesText s = true))

/--
A sequence stands directly in a sequence that the run reaches with a `**` pending, at a position
that the segment under the cursor does not select.
-/
def Blocked (d : Tree) : Prop :=
  ∃ l t c seg items i item, d.Reaches l t ∧ p.run? p.start l = some c ∧ p.segment? c = some seg ∧
    c.greedy = true ∧ t.untag = .sequence items ∧ items[i]? = some item ∧
    item.isSequence = true ∧ seg.matchesIndex i = false

theorem selfMatch_iff {c : Cursor} {t : Tree} :
    p.selfMatch c t = true ↔ c.greedy = false ∧ ∃ text regex s,
      p.remaining c = [.literal text regex] ∧ t.text? = some s ∧
        (Segment.literal text regex).matchesText s = true := by
  unfold selfMatch
  rw [Bool.and_eq_true, Bool.not_eq_true']
  refine and_congr_right fun _ => ?_
  constructor
  · intro h
    split at h
    · rename_i text regex s hrem htext
      exact ⟨text, regex, s, hrem, htext, h⟩
    · exact absurd h (by decide)
  · rintro ⟨text, regex, s, hrem, htext, h⟩
    rw [hrem, htext]
    exact h

theorem matches_iff {p : Pattern} (hp : p.isRoot = false) {l : Location} {t : Tree} :
    p.Matches l t ↔ l ≠ [] ∧ ∃ c, p.run? p.start l = some c ∧ p.hits ⟨l, t, c⟩ = true := by
  obtain ⟨seg, hseg⟩ := p.exists_segment?_start hp
  have hx := p.not_exhausted_of_segment? hseg
  simp only [Matches, hits, Bool.or_eq_true, selfMatch_iff]
  constructor
  · rintro ⟨c, hc, hexh | ⟨hl, hself⟩⟩
    · refine ⟨?_, c, hc, .inl hexh⟩
      rintro rfl
      obtain rfl := Option.some.inj hc
      rw [hx] at hexh
      exact absurd hexh (by decide)
    · exact ⟨hl, c, hc, .inr hself⟩
  · rintro ⟨hl, c, hc, hexh | hself⟩
    · exact ⟨c, hc, .inl hexh⟩
    · exact ⟨c, hc, .inr ⟨hl, hself⟩⟩

theorem stuck_iff {v : Visit} :
    p.stuck v = true ↔ ∃ seg items i item, p.segment? v.cursor = some seg ∧
      v.cursor.greedy = true ∧ v.node.untag = .sequence items ∧ items[i]? = some item ∧
      item.isSequence = true ∧ seg.matchesIndex i = false := by
  simp only [stuck, List.any_eq_true, Prod.exists]
  constructor
  · rintro ⟨s, u, hu, hr⟩
    cases s with
    | key k => exact absurd hr (by simp [refuses])
    | index i =>
        cases hseg : p.segment? v.cursor with
        | none => simp [refuses, hseg] at hr
        | some seg =>
            simp only [refuses, hseg, Bool.and_eq_true, Bool.not_eq_true'] at hr
            rcases v.node.untag_cases with ⟨es, hc⟩ | ⟨items, hc⟩ | hc
            · rw [Tree.children_of_untag hc] at hu
              obtain ⟨k, hk, -⟩ := Tree.mem_entrySteps.mp hu
              cases hk
            · rw [Tree.children_of_untag hc] at hu
              obtain ⟨n, hn, hitem⟩ := Tree.mem_itemSteps.mp hu
              rw [Nat.zero_add] at hn
              obtain rfl := Step.index.inj hn
              exact ⟨seg, items, i, u, rfl, hr.1.2, hc, hitem, hr.2, hr.1.1⟩
            · rw [Tree.children_eq_nil_of_isScalar hc] at hu
              cases hu
  · rintro ⟨seg, items, i, item, hseg, hg, hc, hitem, hsequence, hm⟩
    refine ⟨.index i, item, ?_, by simp [refuses, hseg, hg, hsequence, hm]⟩
    rw [Tree.children_of_untag hc]
    exact Tree.mem_itemSteps.mpr ⟨i, by rw [Nat.zero_add], hitem⟩

/-- The places that pass a test, as nodes, are some of the nodes in their order. -/
theorem map_found_sublist (c : Cursor) (ns : List (Location × Tree)) (test : Visit → Bool) :
    List.Sublist (((p.visits c ns).filter test).map (found [])) ns := by
  have hfound : ((p.visits c ns).map (found [])).Sublist ns := by
    induction ns with
    | nil => exact .slnil
    | cons n ns ih =>
        obtain ⟨l, t⟩ := n
        cases hc : p.run? c l with
        | none => simpa [visits, hc] using ih.cons (l, t)
        | some c' => simpa [visits, hc, found] using ih.cons_cons (l, t)
  exact (List.filter_sublist.map _).trans hfound

end Pattern

namespace Verb

theorem fullWalk_eq {p : Pattern} (hp : p.isRoot = false) (d : Tree) :
    fullWalk p d = p.visit Pattern.yes p.start [] d := by
  obtain ⟨seg, hseg⟩ := p.exists_segment?_start hp
  simp only [fullWalk, Pattern.walk, hp, Bool.false_eq_true, if_false, Pattern.visit]
  rw [hseg]

/-- The full walk of a document stops exactly if something blocks the pattern. -/
theorem isSome_accepted_fullWalk {p : Pattern} (hp : p.isRoot = false) {d : Tree}
    (hd : d.DistinctKeys) : (fullWalk p d).accepted.isSome = true ↔ ¬ p.Blocked d := by
  rw [fullWalk_eq hp, Pattern.isSome_accepted_visit]
  constructor
  · rintro h ⟨l, t, c, seg, items, i, item, ht, hc, hrest⟩
    have := h ⟨l, t, c⟩ (p.mem_visits.mpr ⟨ht.mem_nodes, hc⟩)
    rw [p.stuck_iff.mpr ⟨seg, items, i, item, hrest⟩] at this
    exact absurd this (by decide)
  · intro h v hv
    obtain ⟨hnode, hc⟩ := p.mem_visits.mp hv
    cases hstuck : p.stuck v with
    | false => rfl
    | true =>
        obtain ⟨seg, items, i, item, hrest⟩ := p.stuck_iff.mp hstuck
        have hreach := hd.reaches hnode
        exact absurd ⟨v.location, v.node, v.cursor, seg, items, i, item, hreach, hc, hrest⟩ h

theorem foundNodes_fullWalk {p : Pattern} (hp : p.isRoot = false) {d : Tree}
    (h : (fullWalk p d).accepted.isSome = true) :
    (fullWalk p d).foundNodes =
      ((p.visits p.start d.descendants).filter p.hits).map (Pattern.found []) := by
  obtain ⟨seg, hseg⟩ := p.exists_segment?_start hp
  rw [fullWalk_eq hp] at h ⊢
  rw [p.foundNodes_visit hseg [] d h, if_pos rfl]

/-- The nodes found on a walk are listed in document order, each once. -/
theorem foundNodes_sublist {p : Pattern} (hp : p.isRoot = false) {d : Tree}
    (h : (fullWalk p d).accepted.isSome = true) : (fullWalk p d).foundNodes.Sublist d.nodes := by
  rw [foundNodes_fullWalk hp h]
  exact (p.map_found_sublist p.start d.descendants p.hits).trans (List.sublist_cons_self ..)

/-- The nodes found on a walk are the declared matches. -/
theorem mem_foundNodes_fullWalk {p : Pattern} (hp : p.isRoot = false) {d : Tree}
    (hd : d.DistinctKeys) (h : (fullWalk p d).accepted.isSome = true) {l : Location} {t : Tree} :
    (l, t) ∈ (fullWalk p d).foundNodes ↔ d.Reaches l t ∧ p.Matches l t := by
  rw [foundNodes_fullWalk hp h, Pattern.matches_iff hp]
  simp only [List.mem_map, List.mem_filter, p.mem_visits, Pattern.found, List.nil_append,
    Prod.mk.injEq]
  constructor
  · rintro ⟨v, ⟨⟨hnode, hc⟩, hhit⟩, rfl, rfl⟩
    exact ⟨hd.reaches (List.mem_cons_of_mem _ hnode), Tree.ne_nil_of_mem_descendants hnode,
      v.cursor, hc, hhit⟩
  · rintro ⟨hreach, hl, c, hc, hhit⟩
    refine ⟨⟨l, t, c⟩, ⟨⟨?_, hc⟩, hhit⟩, rfl, rfl⟩
    rcases List.mem_cons.mp hreach.mem_nodes with heq | hmem
    · exact absurd (Prod.mk.inj heq).1 hl
    · exact hmem

/--
**Reading gives exactly the declared matches, in document order and each once, and fails exactly if
something blocks the pattern.**
-/
theorem read_eq_matches {d : Tree} (hd : d.DistinctKeys) {p : Pattern} (hp : p.isRoot = false)
    (listDelimiter : String) :
    (∀ r, read.apply p listDelimiter d = .ok r →
      ∃ ms : List (Location × Tree), r = .sequence (ms.map Prod.snd) ∧ ms.Sublist d.nodes ∧
        (ms.map Prod.fst).Nodup ∧ ∀ l t, (l, t) ∈ ms ↔ d.Reaches l t ∧ p.Matches l t) ∧
    ∀ e, read.apply p listDelimiter d = .error e ↔ e = .nestedSequences p.raw ∧ p.Blocked d := by
  cases hsome : (fullWalk p d).accepted.isSome with
  | true =>
      have hfree : ¬ p.Blocked d := (isSome_accepted_fullWalk hp hd).mp hsome
      have hread : read.apply p listDelimiter d
          = .ok (.sequence ((fullWalk p d).foundNodes.map Prod.snd)) := by
        simp [apply, checkWalk, hsome, targets, hp]
      rw [hread]
      refine ⟨fun r hr => ?_, fun e => ⟨fun h => (by cases h), fun h => absurd h.2 hfree⟩⟩
      -- a sublist of the nodes is in their order, and repeats none
      have hsub : (fullWalk p d).foundNodes.Sublist d.nodes := by
        rw [foundNodes_fullWalk hp hsome]
        exact (p.map_found_sublist p.start d.descendants p.hits).trans (List.sublist_cons_self ..)
      refine ⟨_, (Except.ok.inj hr).symm, hsub, ?_, ?_⟩
      · exact hd.nodup_nodes.sublist (hsub.map _)
      · exact fun l t => mem_foundNodes_fullWalk hp hd hsome
  | false =>
      have hblocked : p.Blocked d := by
        by_contra hno
        rw [(isSome_accepted_fullWalk hp hd).mpr hno] at hsome
        cases hsome
      have hread : read.apply p listDelimiter d = .error (.nestedSequences p.raw) := by
        simp [apply, checkWalk, hsome, bind, Except.bind]
      rw [hread]
      refine ⟨fun r hr => (by cases hr), fun e => ⟨fun h => ?_, fun h => by rw [h.1]⟩⟩
      exact ⟨(Except.error.inj h).symm, hblocked⟩

/-- A sequence in a sequence is no hindrance at a position that is selected. -/
theorem read_eq_matches_nested :
    let d : Tree :=
      .mapping [(.string "a", .tagged ⟨"t"⟩ (.sequence [.sequence [.null], .bool true]))]
    let p : Pattern := ⟨"**.[0]", ".", [.greedy, .index 0]⟩
    d.DistinctKeys ∧ p.isRoot = false ∧
      (∀ r, read.apply p "." d = .ok r →
        ∃ ms : List (Location × Tree), r = .sequence (ms.map Prod.snd) ∧ ms.Sublist d.nodes ∧
          (ms.map Prod.fst).Nodup ∧ ∀ l t, (l, t) ∈ ms ↔ d.Reaches l t ∧ p.Matches l t) ∧
      ∀ e, read.apply p "." d = .error e ↔ e = .nestedSequences p.raw ∧ p.Blocked d := by
  intro d p
  have hd : d.DistinctKeys := by decide +kernel
  have hp : p.isRoot = false := by decide
  exact ⟨hd, hp, read_eq_matches hd hp "."⟩

end Verb

end TreeEdit
