import TreeEdit.Proofs.EditAt

/-!
# Deletion at matches

A deletion notes the matches on its walk and removes one after the other, the last one first. It
comes to leaving all of them out in one pass (`Verb.delete_eq_without`): later items of a sequence
move up, but never an item that is still to be removed, so every noted location is found when its
turn comes.
-/

namespace TreeEdit

namespace Verb

variable {p : Pattern}

/-- A removal leaves nothing in the place of a match. -/
theorem serves_removal :
    (Edit.fixed []).Serves fun t l => (t.remove? l).map Prod.snd where
  inside {t u s l} hs hl := by
    obtain ⟨r, m, rfl⟩ := List.exists_cons_of_ne_nil hl
    simp only [Tree.remove?, hs.child?_eq, Option.bind_some, Option.map_map]
    rfl
  here {s put} u hslot := by
    have hleads := (hslot.leads u).child?_eq
    simp only [Tree.remove?, hleads, Option.map_some, Edit.fixed]
    refine congrArg some ?_
    cases hslot with
    | @entry t k pre post hpre =>
        simp only [Tree.eraseChild, Tree.untag_retag, Tree.untag]
        rw [Entries.erase_append_of_not_same hpre, Tree.retag_retag _ t rfl]
        simp [Entries.erase, Tree.Same.refl]
    | item t pre post =>
        simp only [Tree.eraseChild, Tree.untag_retag, Tree.untag]
        rw [Tree.retag_retag _ t rfl]
        simp [List.eraseIdx_append_of_length_le]

/-- Removals that all find their node are those that `removeAll` makes. -/
theorem removeAll_of_foldlM {ls : List Location} {t t' : Tree}
    (h : ls.foldlM (fun t l => (t.remove? l).map Prod.snd) t = some t') :
    removeAll ls t = (t', ls.length) := by
  induction ls generalizing t with
  | nil =>
      obtain rfl := Option.some.inj h
      rfl
  | cons l ls ih =>
      rw [List.foldlM_cons] at h
      cases hl : t.remove? l with
      | none => rw [hl] at h; cases h
      | some r =>
          rw [hl] at h
          simp only [removeAll, hl, ih h, List.length_cons]

/-- Each of them finds its node when its turn comes. -/
theorem isSome_remove?_of_foldlM {done rest : List Location} {l : Location} {t t' : Tree}
    (h : (done ++ l :: rest).foldlM (fun t l => (t.remove? l).map Prod.snd) t = some t') :
    ((removeAll done t).1.remove? l).isSome = true := by
  rw [List.foldlM_append] at h
  obtain ⟨u, hu, hrest⟩ := Option.bind_eq_some_iff.mp h
  rw [List.foldlM_cons] at hrest
  obtain ⟨v, hv, -⟩ := Option.bind_eq_some_iff.mp hrest
  rw [removeAll_of_foldlM hu]
  exact Option.isSome_iff_exists.mpr ((Option.map_eq_some_iff.mp hv).imp fun _ h => h.1)

theorem deletions_eq (hp : p.isRoot = false) {d : Tree}
    (hwalk : (fullWalk p d).accepted.isSome = true) :
    deletions (fullWalk p d) = (p.targets p.start d).reverse := by
  have htargets := Plan.targets_ofWalk hp hwalk
  rw [← htargets]
  rfl

/--
**Deletion removes exactly the matches.** Once the walk has gone through it gives the document
without the nodes at the locations of the declared matches, and each of these locations leads to a
node when its turn to be removed comes.
-/
theorem delete_eq_without {d : Tree} (hd : d.DistinctKeys) (hp : p.isRoot = false)
    (hwalk : (fullWalk p d).accepted.isSome = true) (listDelimiter : String) :
    let ms := deletions (fullWalk p d)
    delete.apply p listDelimiter d = .ok (d.without ms) ∧
      (∀ l, l ∈ ms ↔ ∃ t, d.Reaches l t ∧ p.Matches l t) ∧
      ∀ done l rest, ms = done ++ l :: rest →
        ((removeAll done d).1.remove? l).isSome = true := by
  intro ms
  have hms : ms = (p.targets p.start d).reverse := deletions_eq hp hwalk
  have hserve : ms.foldlM (fun t l => (t.remove? l).map Prod.snd) d = some (d.without ms) := by
    rw [hms, Pattern.serve_fixed serves_removal hd p.start]
    simp [Tree.without]
  refine ⟨?_, fun l => ?_, fun done l rest h => ?_⟩
  · simp [apply, checkWalk, hwalk, hp, bind, Except.bind, pure, Except.pure,
      show deletions (fullWalk p d) = ms from rfl, removeAll_of_foldlM hserve]
  · simp only [ms, deletions, List.mem_reverse, List.mem_map, Prod.exists, exists_and_right,
      exists_eq_right, mem_foundNodes_fullWalk hp hd hwalk]
  · rw [h] at hserve
    exact isSome_remove?_of_foldlM hserve

/-- Two items of a tagged sequence go, and an entry of a mapping; what does not match stays. -/
theorem delete_eq_without_items_and_entry :
    let d : Tree := .mapping [(.string "a", .tagged ⟨"t"⟩ (.sequence [.null, .mapping []])),
      (.string "b", .bool true), (.sequence [], .mapping [(.null, .sequence [.null])])]
    let d' : Tree := .mapping [(.string "a", .tagged ⟨"t"⟩ (.sequence [])),
      (.string "b", .bool true), (.sequence [], .mapping [])]
    let p : Pattern := ⟨"*.*", ".", [.wildcard, .wildcard]⟩
    d.DistinctKeys ∧ p.isRoot = false ∧ (fullWalk p d).accepted.isSome = true ∧
      delete.apply p "." d = .ok d' ∧
      ((removeAll [[.key (.sequence []), .key .null], [.key (.string "a"), .index 1]] d).1.remove?
        [.key (.string "a"), .index 0]).isSome = true := by
  intro d d' p
  have hd : d.DistinctKeys := by decide +kernel
  have hp : p.isRoot = false := by decide
  have hwalk : (fullWalk p d).accepted.isSome = true := by decide +kernel
  have hd' : d.without (deletions (fullWalk p d)) = d' := by decide +kernel
  have hms : deletions (fullWalk p d) = [[.key (.sequence []), .key .null],
      [.key (.string "a"), .index 1]] ++ [.key (.string "a"), .index 0] :: [] := by
    decide +kernel
  have hdelete := delete_eq_without hd hp hwalk "."
  rw [← hd']
  exact ⟨hd, hp, hwalk, hdelete.1, hdelete.2.2 _ _ _ hms⟩

end Verb

end TreeEdit
