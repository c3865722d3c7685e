import TreeEdit.Proofs.DeleteAtMatches
import TreeEdit.Proofs.ReadBack

/-!
# Deletion leaves no match behind

What a deletion leaves may stand elsewhere than before: items behind a deleted one move up. A
pattern without positions does not see that. Whether a run enters a child depends on its key, or on
its being an item at all (`Pattern.step?_congr`), and so every node that stays is reached with the
cursor it was reached with before.

Nothing that was no match becomes one, because a node that loses children stays the kind of node
that it was and no scalar changes. For the same reason no sequence comes to stand in a sequence
below a `**`. So a second deletion has nothing to do, and reading finds nothing
(`Verb.delete_again`).
-/

namespace TreeEdit

/-- What was collected was collected for one of the elements. -/
theorem exists_of_mem_collect {α β : Type} {f : α → Option (List β)} {as : List α} {bs : List β}
    {b : β} (h : collect f as = some bs) (hb : b ∈ bs) :
    ∃ a ∈ as, ∃ cs, f a = some cs ∧ b ∈ cs := by
  induction as generalizing bs with
  | nil =>
      obtain rfl := Option.some.inj h
      exact absurd hb (List.not_mem_nil)
  | cons a as ih =>
      obtain ⟨cs, hcs, h⟩ := Option.bind_eq_some_iff.mp h
      obtain ⟨ds, hds, rfl⟩ := Option.map_eq_some_iff.mp h
      rcases List.mem_append.mp hb with hb | hb
      · exact ⟨a, List.mem_cons_self .., cs, hcs, hb⟩
      · obtain ⟨a', ha', hrest⟩ := ih hds hb
        exact ⟨a', List.mem_cons_of_mem _ ha', hrest⟩

/-- The same key, or positions whatever they are. -/
def Step.Alike : Step → Step → Prop
  | .key a, .key b => a = b
  | .index _, .index _ => True
  | _, _ => False

namespace Tree

/-- A child of a rebuilt node stands in the place of a child that was there. -/
theorem exists_child_of_rebuild {after : Step × Tree → Option (List Tree)} {t t' u : Tree}
    {s : Step} (h : t.rebuild after = some t') (hu : (s, u) ∈ t'.children) :
    ∃ e ∈ t.children, ∃ us, after e = some us ∧ u ∈ us ∧ s.Alike e.1 := by
  rcases t.untag_cases with ⟨es, hc⟩ | ⟨items, hc⟩ | hc
  · rw [rebuild_of_mapping hc] at h
    obtain ⟨es', hes', rfl⟩ := Option.map_eq_some_iff.mp h
    rw [children_retag] at hu
    obtain ⟨k, rfl, hk⟩ := mem_entrySteps.mp hu
    obtain ⟨e, he, cs, hcs, hmem⟩ := exists_of_mem_collect hes' hk
    obtain ⟨us, hus, rfl⟩ := Option.map_eq_some_iff.mp hcs
    obtain ⟨w, hw, heq⟩ := List.mem_map.mp hmem
    obtain ⟨rfl, rfl⟩ := Prod.mk.inj heq
    refine ⟨(.key e.1, e.2), ?_, us, hus, hw, rfl⟩
    rw [children_of_untag hc]
    exact mem_entrySteps.mpr ⟨e.1, rfl, he⟩
  · rw [rebuild_of_sequence hc] at h
    obtain ⟨items', hitems', rfl⟩ := Option.map_eq_some_iff.mp h
    rw [children_retag] at hu
    obtain ⟨n, rfl, hn⟩ := mem_itemSteps.mp hu
    obtain ⟨⟨r, w⟩, he, us, hus, hmem⟩ := exists_of_mem_collect hitems' (List.mem_of_getElem? hn)
    obtain ⟨m, rfl, -⟩ := mem_itemSteps.mp he
    refine ⟨_, ?_, us, hus, hmem, trivial⟩
    rw [children_of_untag hc]
    exact he
  · rw [rebuild_of_isScalar hc] at h
    obtain rfl := Option.some.inj h
    rw [children_eq_nil_of_isScalar hc] at hu
    exact absurd hu (List.not_mem_nil)

/-- A rebuilt node is a sequence exactly if it was one, and has the text that it had. -/
theorem kind_of_rebuild {after : Step × Tree → Option (List Tree)} {t t' : Tree}
    (h : t.rebuild after = some t') : t'.isSequence = t.isSequence ∧ t'.text? = t.text? := by
  rcases t.untag_cases with ⟨es, hc⟩ | ⟨items, hc⟩ | hc
  · rw [rebuild_of_mapping hc] at h
    obtain ⟨es', -, rfl⟩ := Option.map_eq_some_iff.mp h
    rw [← text?_untag, ← text?_untag t]
    simp only [isSequence, untag_retag, hc, untag, text?, and_self]
  · rw [rebuild_of_sequence hc] at h
    obtain ⟨items', -, rfl⟩ := Option.map_eq_some_iff.mp h
    rw [← text?_untag, ← text?_untag t]
    simp only [isSequence, untag_retag, hc, untag, text?, and_self]
  · rw [rebuild_of_isScalar hc] at h
    obtain rfl := Option.some.inj h
    exact ⟨rfl, rfl⟩

end Tree

namespace Pattern

variable {p : Pattern}

/-- No segment of the pattern is a position. -/
def Unindexed (p : Pattern) : Prop := ∀ n, .index n ∉ p.segments

theorem Unindexed.segment?_ne (hp : p.Unindexed) {c : Cursor} {seg : Segment}
    (h : p.segment? c = some seg) (n : Nat) : seg ≠ .index n := by
  rintro rfl
  exact hp n (List.mem_of_getElem? h)

/-- A segment that is no position takes all items of a sequence or none. -/
theorem Unindexed.matchesIndex_congr (hp : p.Unindexed) {c : Cursor} {seg : Segment}
    (h : p.segment? c = some seg) (i j : Nat) : seg.matchesIndex i = seg.matchesIndex j := by
  cases seg with
  | index n => exact absurd rfl (hp.segment?_ne h n)
  | literal _ _ | wildcard | greedy => rfl

/-- **Where an item stands makes no difference to a run.** -/
theorem Unindexed.step?_congr (hp : p.Unindexed) (c : Cursor) {r s : Step} (h : r.Alike s) :
    p.step? c r = p.step? c s := by
  cases r with
  | key a =>
      cases s with
      | key b =>
          obtain rfl : a = b := h
          rfl
      | index j => exact h.elim
  | index i =>
      cases s with
      | key b => exact h.elim
      | index j =>
          unfold step?
          cases hseg : p.segment? c with
          | none => rfl
          | some seg =>
              have hmatches : seg.matchesStep (.index i) = seg.matchesStep (.index j) :=
                hp.matchesIndex_congr hseg i j
              dsimp only
              rw [hmatches]

/-- Nor does it to what the walk refuses. -/
theorem Unindexed.refuses_congr (hp : p.Unindexed) (c : Cursor) {r s : Step} (h : r.Alike s)
    {t u : Tree} (hkind : t.isSequence = u.isSequence) :
    p.refuses c (r, t) = p.refuses c (s, u) := by
  cases r with
  | key a =>
      cases s with
      | key b => rfl
      | index j => exact h.elim
  | index i =>
      cases s with
      | key b => exact h.elim
      | index j =>
          unfold refuses
          cases hseg : p.segment? c with
          | none => rfl
          | some seg => simp only [hp.matchesIndex_congr hseg i j, hkind]

theorem Unindexed.overruns_eq_false (hp : p.Unindexed) (v : Visit) : p.overruns v = false := by
  cases hover : p.overruns v with
  | false => rfl
  | true =>
      obtain ⟨_, n, -, hseg, -⟩ := p.overruns_iff.mp hover
      exact absurd rfl (hp.segment?_ne hseg n)

/-- Whether a scalar matches itself is a matter of its text. -/
theorem selfMatch_congr {c : Cursor} {t u : Tree} (h : t.text? = u.text?) :
    p.selfMatch c t = p.selfMatch c u := by
  unfold selfMatch
  rw [h]

/-- What stands in the place of a child once the matches are gone, if anything does. -/
theorem rewriteChild_removing {c : Cursor} {e : Step × Tree} {us : List Tree} {u : Tree}
    (h : p.rewriteChild (.fixed []) c e = some us) (hu : u ∈ us) :
    (p.step? c e.1 = none ∧ u = e.2) ∨
      ∃ c', p.step? c e.1 = some c' ∧ p.hits ⟨[], e.2, c'⟩ = false ∧
        p.rewrite (.fixed []) c' e.2 = some u := by
  unfold rewriteChild at h
  cases hstep : p.step? c e.1 with
  | none =>
      rw [hstep] at h
      obtain rfl := Option.some.inj h
      exact .inl ⟨rfl, List.mem_singleton.mp hu⟩
  | some c' =>
      rw [hstep] at h
      dsimp only at h
      split at h
      · -- a match leaves nothing
        obtain rfl := Option.some.inj h
        exact absurd hu (List.not_mem_nil)
      · rename_i hhit
        obtain ⟨v, hv, rfl⟩ := Option.map_eq_some_iff.mp h
        obtain rfl := List.mem_singleton.mp hu
        exact .inr ⟨c', rfl, eq_false_of_ne_true hhit, hv⟩

/-- The node without its matches is walked freely, gives nothing, and is what it was itself. -/
structure Cleared (p : Pattern) (c : Cursor) (t t' : Tree) : Prop where
  free : p.Free c t'
  yield : p.yield c t'.descendants = []
  isSequence : t'.isSequence = t.isSequence
  text : t'.text? = t.text?

/-- **Taking the matches away leaves none**, as long as no segment is a position. -/
theorem Unindexed.cleared (hp : p.Unindexed) {c : Cursor} {t t' : Tree} (hfree : p.Free c t)
    (h : p.rewrite (.fixed []) c t = some t') : p.Cleared c t t' := by
  induction t using Tree.childInduction generalizing c t' with
  | step t ih =>
    have hover : ¬ p.overruns ⟨[], t, c⟩ = true := by simp [hp.overruns_eq_false]
    rw [p.rewrite_eq_rebuild _ c hover] at h
    obtain ⟨hrefuses, hbelow⟩ := p.free_iff.mp hfree
    obtain ⟨hsequence, htext⟩ := Tree.kind_of_rebuild h
    -- a child that stays was passed by, or has been cleared with the cursor that comes to it
    have hchild : ∀ e' ∈ t'.children, p.refuses c e' = false ∧
        (∀ c', p.step? c e'.1 = some c' → p.Free c' e'.2) ∧ p.yieldOfChild c e' = [] := by
      rintro ⟨s, u⟩ hu
      obtain ⟨e, he, us, hus, hmem, halike⟩ := Tree.exists_child_of_rebuild h hu
      have hstep := hp.step?_congr c halike
      rcases rewriteChild_removing hus hmem with ⟨hnone, rfl⟩ | ⟨c', hc', hhit, hv⟩
      · rw [← hstep] at hnone
        refine ⟨?_, fun c' hc' => ?_, ?_⟩
        · rw [hp.refuses_congr c halike rfl]
          exact hrefuses e he
        · rw [hnone] at hc'
          cases hc'
        · simp only [yieldOfChild, hnone]
      · have hcleared := ih e.1 e.2 he (hbelow e he c' hc') hv
        simp only [hits, Bool.or_eq_false_iff] at hhit
        refine ⟨?_, fun c'' hc'' => ?_, ?_⟩
        · rw [hp.refuses_congr c halike hcleared.isSequence]
          exact hrefuses e he
        · rw [hstep, hc'] at hc''
          obtain rfl := Option.some.inj hc''
          exact hcleared.free
        · have hself : p.selfMatch c' u = false := by
            rw [selfMatch_congr hcleared.text]
            exact hhit.2
          simp only [yieldOfChild, hstep, hc']
          rw [p.yield_nodes hhit.1 hself]
          exact hcleared.yield
    refine ⟨p.free_iff.mpr ⟨fun e he => (hchild e he).1, fun e he => (hchild e he).2.1⟩, ?_,
      hsequence, htext⟩
    rw [p.yield_descendants, List.flatMap_eq_nil_iff]
    exact fun e he => (hchild e he).2.2

end Pattern

namespace Verb

variable {p : Pattern}

/-- A deletion that goes through met nothing that stops its walk. -/
theorem isSome_accepted_of_delete (hp : p.isRoot = false) {listDelimiter : String} {d d' : Tree}
    (h : delete.apply p listDelimiter d = .ok d') : (fullWalk p d).accepted.isSome = true := by
  cases hwalk : (fullWalk p d).accepted.isSome with
  | true => rfl
  | false =>
      simp only [apply, checkWalk, hwalk, hp] at h
      cases h

/-- A deletion takes the matches away in one pass. -/
theorem rewrite_of_delete {d : Tree} (hd : d.DistinctKeys) (hp : p.isRoot = false)
    {listDelimiter : String} {d' : Tree} (h : delete.apply p listDelimiter d = .ok d') :
    p.Free p.start d ∧ p.rewrite (.fixed []) p.start d = some d' := by
  have hwalk := isSome_accepted_of_delete hp h
  have hserve := Pattern.serve_fixed serves_removal hd (p := p) p.start
  rw [← deletions_eq hp hwalk, ← Pattern.rewrite_fixed hd] at hserve
  refine ⟨(isSome_accepted_iff_free hp d).mp hwalk, ?_⟩
  obtain ⟨t, ht⟩ : ∃ t, p.rewrite (.fixed []) p.start d = some t :=
    ⟨_, Pattern.rewrite_fixed hd p.start⟩
  rw [ht] at hserve
  simp only [apply, checkWalk, hwalk, hp, removeAll_of_foldlM hserve] at h
  rw [ht, ← Except.ok.inj h]

/-- Where nothing matches, a deletion leaves the document as it is. -/
theorem delete_of_yield_eq_nil (hp : p.isRoot = false) (listDelimiter : String) {d : Tree}
    (hfree : p.Free p.start d) (hyield : p.yield p.start d.descendants = []) :
    delete.apply p listDelimiter d = .ok d := by
  have hwalk := (isSome_accepted_iff_free hp d).mpr hfree
  have hfound : (fullWalk p d).foundNodes = [] := by
    rw [foundNodes_fullWalk hp hwalk, List.map_eq_nil_iff]
    exact List.map_eq_nil_iff.mp hyield
  have hdeletions : deletions (fullWalk p d) = [] := by
    rw [deletions, hfound]
    rfl
  simp [apply, checkWalk, hwalk, hp, hdeletions, removeAll, bind, Except.bind, pure, Except.pure]

/--
**Deletion by a pattern without positions is done once.** What it leaves is left by a second
deletion as it is, and reading finds nothing in it. Deleting the whole document leaves null, and
null again.
-/
theorem delete_again {d d' : Tree} (hd : d.DistinctKeys) (hindex : p.Unindexed)
    {listDelimiter : String} (h : delete.apply p listDelimiter d = .ok d') :
    delete.apply p listDelimiter d' = .ok d' ∧
      (p.isRoot = false → read.apply p listDelimiter d' = .ok (.sequence [])) := by
  cases hp : p.isRoot with
  | true =>
      have hdelete : ∀ d, delete.apply p listDelimiter d = .ok .null := fun d => by
        simp [apply, fullWalk, Pattern.walk, checkWalk, hp, bind, Except.bind, pure, Except.pure]
      rw [hdelete d] at h
      obtain rfl := Except.ok.inj h
      exact ⟨hdelete .null, fun hroot => by cases hroot⟩
  | false =>
      obtain ⟨hfree, hrewrite⟩ := rewrite_of_delete hd hp h
      have hcleared := hindex.cleared hfree hrewrite
      refine ⟨delete_of_yield_eq_nil hp listDelimiter hcleared.free hcleared.yield, fun _ => ?_⟩
      rw [read_eq_ok_iff hp]
      exact ⟨hcleared.free, by rw [hcleared.yield]⟩

/--
An expression takes an entry by its key and an item by its own text. What stood behind the item
moves up, and neither the value under null nor the text `y` comes to match there.
-/
theorem delete_again_entry_and_item :
    let digit : Regex := .chars (.range 0x30 0x39)
    let regex : Regex := .seq (.assert .startText)
      (.seq (.seq (.chars (.single 'x')) digit) (.assert .endText))
    let p : Pattern := ⟨"**.a.*.x[0-9]", ".",
      [.greedy, .literal "a" (.chars (.single 'a')), .wildcard, .literal "x[0-9]" regex]⟩
    let d : Tree := .mapping [(.string "b", .mapping [(.string "a", .sequence [.string "x1",
      .mapping [(.string "x2", .bool true), (.null, .string "x3")], .string "y"])])]
    let d' : Tree := .mapping [(.string "b", .mapping [(.string "a", .sequence [
      .mapping [(.null, .string "x3")], .string "y"])])]
    d.DistinctKeys ∧ p.Unindexed ∧ p.isRoot = false ∧ delete.apply p "." d = .ok d' ∧
      delete.apply p "." d' = .ok d' ∧ read.apply p "." d' = .ok (.sequence []) := by
  intro digit regex p d d'
  have hd : d.DistinctKeys := by decide +kernel
  have hindex : p.Unindexed := by
    intro n hn
    simp [p] at hn
  have hp : p.isRoot = false := by decide
  have hdelete : delete.apply p "." d = .ok d' := by decide +kernel
  have hagain := delete_again hd hindex hdelete
  exact ⟨hd, hindex, hp, hdelete, hagain.1, hagain.2 hp⟩

end Verb

end TreeEdit
