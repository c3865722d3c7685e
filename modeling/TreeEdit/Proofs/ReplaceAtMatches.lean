import TreeEdit.Proofs.Answers
import TreeEdit.Proofs.EditAt

/-!
# Replacement at matches

A replacement notes the matches on its walk and puts the content at one after the other, the last
one first. It never fails once the walk has gone through, and comes to putting the content at all of
them in one pass (`Verb.replace_eq_withAt`). That pass leaves every node apart from the matches as
it is, and a node above one keeps its tags and its keys or its length.
-/

namespace TreeEdit

/-- No match is above another, and none is the root. -/
theorem Pattern.scattered_targets {p : Pattern} {d : Tree} (hd : d.DistinctKeys) :
    Tree.Scattered (p.targets p.start d) where
  ne_nil _ hl := ne_nil_of_mem_targets hl
  eq_of_prefix l hl m hm hlm := by
    obtain ⟨v, hv, rfl⟩ := List.mem_map.mp hl
    obtain ⟨w, hw, rfl⟩ := List.mem_map.mp hm
    obtain ⟨hv, hhit⟩ := List.mem_filter.mp hv
    have hbelow : ∀ {x}, x ∈ p.visits p.start d.descendants → x ∈ p.visits p.start d.nodes :=
      fun h => List.mem_cons_of_mem _ h
    exact p.eq_of_prefix_of_hits hd (hbelow hv) hhit (hbelow (List.mem_filter.mp hw).1) hlm

namespace Plan

variable {p : Pattern} {content : Tree}

/-- An update in place of a match puts the content there. -/
theorem serves_replacement :
    (Edit.fixed [content]).Serves fun t l => (Plan.update .replace content t l).toOption where
  inside hs hl := toOption_update_cons hs hl
  here {s put} u hslot := by
    have hset := hslot.setChild u content
    have hleads := (hslot.leads u).child?_eq
    rw [toOption_update (s := s) rfl]
    cases hslot with
    | @entry t k pre post hpre =>
        simp only [Tree.child?, Tree.untag_retag, Tree.untag] at hleads
        rw [Tree.setChild_key (Tree.untag_retag ..)] at hset
        simp only [List.dropLast_singleton, Tree.get?, Tree.set?, Option.bind_some, updateChild,
          Tree.untag_retag, Tree.untag, hleads]
        exact congrArg some hset
    | item t pre post =>
        rw [Tree.setChild_index (Tree.untag_retag ..)] at hset
        simp only [List.dropLast_singleton, Tree.get?, Tree.set?, Option.bind_some, updateChild,
          Tree.untag_retag, Tree.untag, List.singleton_append, List.length_append,
          List.length_cons, Nat.lt_add_right_iff_pos, Nat.succ_pos, if_true]
        exact congrArg some hset

/-- **A replacement never fails**, and puts the content at every match. -/
theorem replace_ofWalk {d : Tree} (hd : d.DistinctKeys) (hp : p.isRoot = false)
    (h : (Verb.fullWalk p d).accepted.isSome = true) :
    (ofWalk p (Verb.fullWalk p d)).replace content d =
      .ok (d.withAt (p.targets p.start d) content) := by
  have hserves : (Edit.fixed [content]).Serves _ := serves_replacement
  have hserve := Pattern.serve_fixed (p := p) hserves hd p.start
  have hrun : ((ofWalk p (Verb.fullWalk p d)).replace content d).toOption =
      some (d.withAt (p.targets p.start d) content) := by
    rw [replace, runTargets, toOption_run, targets_ofWalk hp h]
    exact hserve
  cases hres : (ofWalk p (Verb.fullWalk p d)).replace content d with
  | error e => rw [hres] at hrun; cases hrun
  | ok t =>
      rw [hres] at hrun
      exact congrArg _ (Option.some.inj hrun)

end Plan

namespace Verb

variable {p : Pattern}

/--
**Replacement is total and exact.** Once the walk has gone through it gives the document with the
content at the locations of the declared matches: there the content is found, a node that lies apart
from them is as it was, and one above them keeps its tags and its keys or its length. With no match
nothing changes.
-/
theorem replace_eq_withAt {d : Tree} (hd : d.DistinctKeys) (hp : p.isRoot = false)
    (hwalk : (fullWalk p d).accepted.isSome = true) (content : Tree) (listDelimiter : String) :
    let ms := (fullWalk p d).foundNodes.map Prod.fst
    let d' := d.withAt ms content
    (replace content).apply p listDelimiter d = .ok d' ∧
      (∀ l, l ∈ ms ↔ ∃ t, d.Reaches l t ∧ p.Matches l t) ∧
      (∀ l ∈ ms, d'.Reaches l content) ∧
      (∀ l t, d.Reaches l t → (∀ m ∈ ms, l.Apart m) → d'.Reaches l t) ∧
      (∀ l t, d.Reaches l t → (∃ m ∈ ms, l <+: m ∧ l ≠ m) →
        ∃ t', d'.Reaches l t' ∧ t.SameFrame t') ∧
      (ms = [] → d' = d) := by
  intro ms d'
  have hms : ms = p.targets p.start d := Plan.targets_ofWalk hp hwalk
  have hmem : ∀ l, l ∈ ms ↔ ∃ t, d.Reaches l t ∧ p.Matches l t := by
    intro l
    simp only [ms, List.mem_map, Prod.exists, exists_and_right, exists_eq_right,
      mem_foundNodes_fullWalk hp hd hwalk]
  have hscattered : Tree.Scattered ms := hms ▸ Pattern.scattered_targets hd
  refine ⟨?_, hmem, fun l hl => ?_, fun l t ht hapart => ht.withAt_apart hapart,
    fun l t ht hbelow => ?_, fun hnone => ?_⟩
  · simp only [apply, checkWalk, hwalk, if_true, hp, d', hms, bind, Except.bind,
      Bool.false_eq_true, if_false, Plan.replace_ofWalk hd hp hwalk, ofLocated]
  · obtain ⟨t, ht, -⟩ := (hmem l).mp hl
    exact ht.withAt_self hscattered hl
  · obtain ⟨m, hm, hlm, hne⟩ := hbelow
    obtain ⟨u, hu, -⟩ := (hmem m).mp hm
    exact ht.withAt_above hscattered hu hm hlm hne
  · simp only [d', hnone, Tree.withAt_nil]

/-- Every item of a tagged sequence is replaced, and an entry of a mapping beside it. -/
theorem replace_eq_withAt_items_and_entry :
    let d : Tree := .mapping [(.string "a", .tagged ⟨"t"⟩ (.sequence [.null, .mapping []])),
      (.string "b", .bool true), (.string "c", .mapping [(.null, .sequence [])])]
    let d' : Tree := .mapping
      [(.string "a", .tagged ⟨"t"⟩ (.sequence [.sequence [.null], .sequence [.null]])),
        (.string "b", .bool true), (.string "c", .mapping [(.null, .sequence [.null])])]
    let p : Pattern := ⟨"*.*", ".", [.wildcard, .wildcard]⟩
    d.DistinctKeys ∧ p.isRoot = false ∧ (fullWalk p d).accepted.isSome = true ∧
      (replace (.sequence [.null])).apply p "." d = .ok d' ∧
      d'.Reaches [.key (.string "c"), .key .null] (.sequence [.null]) := by
  intro d d' p
  have hd : d.DistinctKeys := by decide +kernel
  have hp : p.isRoot = false := by decide
  have hwalk : (fullWalk p d).accepted.isSome = true := by decide +kernel
  have hd' : d.withAt ((fullWalk p d).foundNodes.map Prod.fst) (.sequence [.null]) = d' := by
    decide +kernel
  have hreplace := replace_eq_withAt hd hp hwalk (.sequence [.null]) "."
  simp only [hd'] at hreplace
  exact ⟨hd, hp, hwalk, hreplace.1, hreplace.2.2.1 _ (by decide +kernel)⟩

end Verb

end TreeEdit
