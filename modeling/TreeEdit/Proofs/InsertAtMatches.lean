import TreeEdit.Proofs.Growth
import TreeEdit.Proofs.LastFirst

/-!
# Insertion at matches is a rewrite

Where a pattern matches, an insertion is the rewrite of `Edit.insertion`: the content is merged into
the values of matched entries and placed before matched items, and overrun sequences are filled up
to the position. The plan does this with noted locations, extensions first and then targets, each
from the last to the first; every one of its steps is what the edit says at one place
(`Plan.extends_grow`, `Plan.serves_update`), and the runs come to a rewrite by
`Pattern.extend_eq_rewrite` and `Pattern.serve_eq_rewrite`.
-/

namespace TreeEdit

/-- What an insertion does at a match and to an overrun sequence. -/
def Edit.insertion (content : Tree) : Edit where
  matched
    | .key _, v => (v.merge content).toOption.map ([·])
    | .index _, t => some [content, t]
  overrun n rest items := (Plan.chain content rest).toOption.map fun inner =>
    items ++ List.replicate (n - items.length) .null ++ [inner]

namespace Plan

variable {p : Pattern} {content : Tree}

theorem toOption_run {α : Type} (place : α → Location) (step : Tree → α → Except Conflict Tree)
    (t : Tree) (as : List α) : (Plan.run p place step t as).toOption =
      as.foldlM (fun t a => (step t a).toOption) t := by
  induction as generalizing t with
  | nil => rfl
  | cons a as ih =>
      rw [Plan.run, List.foldlM_cons]
      cases step t a with
      | error e => rfl
      | ok t' => exact ih t'

/-! ## Every step is what the edit says -/

theorem toOption_grow {s : Stub} {head : Segment} {tail : List Segment}
    (hrem : p.remaining s.cursor = head :: tail) (t : Tree) :
    (Plan.grow p content t s).toOption = (chain content tail).toOption.bind fun inner =>
      (t.get? s.location).bind fun node =>
        (attach node head inner).toOption.bind fun node' => t.set? s.location node' := by
  simp only [Plan.grow, hrem]
  cases chain content tail with
  | error e => rfl
  | ok inner =>
      cases t.get? s.location with
      | none => rfl
      | some node =>
          simp only [bind, Except.bind, Except.toOption, Option.bind_some]
          cases attach node head inner with
          | error e => rfl
          | ok node' =>
              simp only [Option.bind_some]
              cases t.set? s.location node' <;> rfl

theorem toOption_update {mode : Mode} {l : Location} {s : Step} (hlast : l.getLast? = some s)
    (t : Tree) : (Plan.update mode content t l).toOption = (t.get? l.dropLast).bind fun parent =>
      (updateChild mode content parent s).toOption.bind fun parent' =>
        t.set? l.dropLast parent' := by
  simp only [Plan.update, hlast]
  cases t.get? l.dropLast with
  | none => rfl
  | some parent =>
      simp only [bind, Except.bind, Except.toOption, Option.bind_some]
      cases updateChild mode content parent s with
      | error e => rfl
      | ok parent' =>
          simp only [Option.bind_some]
          cases t.set? l.dropLast parent' <;> rfl

/-- Growth at a stub extends an overrun sequence. -/
theorem extends_grow :
    (Edit.insertion content).Extends p fun t s => (Plan.grow p content t s).toOption where
  inside {t u s} r hs := by
    cases hrem : p.remaining r.cursor with
    | nil =>
        simp only [Plan.grow, Stub.under, hrem]
        exact congrArg some hs.setChild_self.symm
    | cons head tail =>
        rw [toOption_grow hrem, toOption_grow (s := r.under s) hrem]
        simp only [Stub.under, hs.get?_cons, hs.set?_cons, Option.map_bind, Function.comp_def]
  here {t items c n} hc hpast := by
    obtain ⟨hseg, hle, -⟩ := p.past?_eq_some_iff.mp hpast
    have hblank : t.isBlank = false := by simp [Tree.isBlank, hc]
    rw [toOption_grow (p.remaining_eq_cons_iff.mpr ⟨hseg, rfl⟩)]
    simp only [Edit.insertion, Tree.get?, Tree.set?, Option.bind_some, Option.map_map]
    cases chain content (p.segments.drop (c.pos + 1)) with
    | error e => rfl
    | ok inner => simp [Except.toOption, attach, hblank, hc, hle]

theorem insertIdx_length_append {α : Type} (a : α) (as bs : List α) :
    (as ++ bs).insertIdx as.length a = as ++ a :: bs := by
  induction as with
  | nil => rfl
  | cons b as ih => exact congrArg _ ih

/-- An update below a child is one of the child. -/
theorem toOption_update_cons {mode : Mode} {t u : Tree} {s : Step} {l : Location}
    (hs : t.Leads s u) (hl : l ≠ []) : (Plan.update mode content t (s :: l)).toOption =
      (Plan.update mode content u l).toOption.map (t.setChild s) := by
  obtain ⟨r, hr⟩ := Option.ne_none_iff_exists'.mp (mt List.getLast?_eq_none_iff.mp hl)
  have hr' : (s :: l).getLast? = some r := by rw [List.getLast?_cons_of_ne_nil hl, hr]
  rw [toOption_update hr, toOption_update hr', List.dropLast_cons_of_ne_nil hl]
  simp only [hs.get?_cons, hs.set?_cons, Option.map_bind, Function.comp_def]

/-- An update serves a match. -/
theorem serves_update :
    (Edit.insertion content).Serves fun t l => (Plan.update .insert content t l).toOption where
  inside hs hl := toOption_update_cons hs hl
  here {s put} u hslot := by
    have hset := hslot.setChild u
    have hleads := (hslot.leads u).child?_eq
    rw [toOption_update (s := s) rfl]
    cases hslot with
    | @entry t k pre post hpre =>
        simp only [Tree.child?, Tree.untag_retag, Tree.untag] at hleads
        simp only [List.dropLast_singleton, Tree.get?, Tree.set?, Option.bind_some, updateChild,
          Tree.untag_retag, Tree.untag, hleads, Edit.insertion, Option.map_map]
        cases u.merge content with
        | error e => rfl
        | ok w => exact congrArg some (hset w)
    | item t pre post =>
        simp only [List.dropLast_singleton, Tree.get?, Tree.set?, Option.bind_some, updateChild,
          Tree.untag_retag, Tree.untag, List.singleton_append, List.length_append,
          Nat.le_add_right, if_true,
          insertIdx_length_append, Tree.retag_retag _ t (rfl : Tree.isTagged (.sequence _) = false)]
        rfl

/-! ## A plan with targets -/

/-- Stubs that do not repeat are all kept. -/
theorem distinct_eq_self {seen ss : List Stub} (hss : ss.Pairwise fun a b => sameStub p a b = false)
    (hseen : ∀ r ∈ seen, ∀ s ∈ ss, sameStub p r s = false) : distinct p seen ss = ss := by
  induction ss generalizing seen with
  | nil => rfl
  | cons s ss ih =>
      obtain ⟨hs, hss⟩ := List.pairwise_cons.mp hss
      have hnew : ¬ seen.any (sameStub p · s) = true := by
        simpa using fun r hr => hseen r hr s (List.mem_cons_self ..)
      rw [distinct, if_neg hnew, ih hss fun r hr s' hs' => ?_]
      rcases List.mem_cons.mp hr with rfl | hr
      · exact hs s' hs'
      · exact hseen r hr s' (List.mem_cons_of_mem _ hs')

/-- No sequence is overrun twice. -/
theorem overrunStubs_pairwise {d : Tree} (hd : d.DistinctKeys) :
    (p.overrunStubs p.start d).Pairwise fun a b => sameStub p a b = false := by
  have hsub := p.map_found_sublist p.start d.nodes p.overruns
  have hnodup := hd.nodup_nodes.sublist (hsub.map Prod.fst)
  rw [List.map_map] at hnodup
  have hloc : (p.overrunStubs p.start d).map Stub.location =
      ((p.visits p.start d.nodes).filter p.overruns).map (Prod.fst ∘ Pattern.found []) := by
    rw [Pattern.overrunStubs, List.map_map]
    rfl
  rw [← hloc] at hnodup
  refine (List.pairwise_map.mp hnodup).imp_of_mem fun {a b} ha hb hne => ?_
  -- locations of one document that are the same are equal
  have hreaches : ∀ s ∈ p.overrunStubs p.start d, ∃ t, d.Reaches s.location t := by
    intro s hs
    obtain ⟨v, hv, rfl⟩ := List.mem_map.mp hs
    exact ⟨v.node, hd.reaches (p.mem_visits.mp (List.mem_filter.mp hv).1).1⟩
  obtain ⟨t, ht⟩ := hreaches a ha
  obtain ⟨u, hu⟩ := hreaches b hb
  have hsame : ¬ Location.Same a.location b.location := fun h => hne (ht.eq_of_same hu h)
  simp [sameStub, hsame]

theorem extended_ofWalk {d : Tree} (hd : d.DistinctKeys) (hp : p.isRoot = false)
    (h : (Verb.fullWalk p d).accepted.isSome = true) :
    (ofWalk p (Verb.fullWalk p d)).extended = (p.overrunStubs p.start d).reverse := by
  have hext : (ofWalk p (Verb.fullWalk p d)).extensions = p.overrunStubs p.start d :=
    extensions_ofWalk hp h
  rw [extended, hext]
  exact congrArg _ (distinct_eq_self (overrunStubs_pairwise hd) (by simp))

theorem targets_ofWalk {d : Tree} (hp : p.isRoot = false)
    (h : (Verb.fullWalk p d).accepted.isSome = true) :
    (ofWalk p (Verb.fullWalk p d)).targets = p.targets p.start d := by
  rw [ofWalk, Verb.foundNodes_fullWalk hp h, List.map_map]
  rfl

/-- **A plan with a target comes to a rewrite.** -/
theorem toOption_insert {d : Tree} (hd : d.DistinctKeys) (hp : p.isRoot = false)
    (h : (Verb.fullWalk p d).accepted.isSome = true)
    (hfound : (Verb.fullWalk p d).foundNodes ≠ []) :
    ((ofWalk p (Verb.fullWalk p d)).insert content d).toOption =
      p.rewrite (.insertion content) p.start d := by
  have htargets : (ofWalk p (Verb.fullWalk p d)).targets.isEmpty = false := by
    simpa [ofWalk] using hfound
  have hextend : ((ofWalk p (Verb.fullWalk p d)).runExtensions content d).toOption =
      p.rewrite (Edit.insertion content).extending p.start d := by
    rw [runExtensions, toOption_run, extended_ofWalk hd hp h]
    exact Pattern.extend_eq_rewrite extends_grow hd p.start
  -- the targets noted on `d` are served in what the extensions left
  rw [← Pattern.serve_eq_rewrite serves_update hd p.start, ← hextend]
  simp only [Plan.insert, htargets, Bool.false_eq_true, if_false]
  cases (ofWalk p (Verb.fullWalk p d)).runExtensions content d with
  | error e => rfl
  | ok t =>
      simp only [bind, Except.bind]
      have hserve : ((ofWalk p (Verb.fullWalk p d)).runTargets .insert content t).toOption =
          (p.targets p.start d).reverse.foldlM
            (fun t l => (Plan.update .insert content t l).toOption) t := by
        rw [runTargets, toOption_run, targets_ofWalk hp h]
      rw [Except.toOption, Option.bind_some, ← hserve]
      cases (ofWalk p (Verb.fullWalk p d)).runTargets .insert content t <;> rfl

/-- A chain can be built exactly for segments that name one child each. -/
theorem chain_eq_none_iff {segs : List Segment} : (chain content segs).toOption = none ↔
    ∃ seg ∈ segs, seg = .wildcard ∨ seg = .greedy := by
  induction segs with
  | nil => simp [chain, Except.toOption]
  | cons seg segs ih =>
      rw [chain]
      cases hinner : chain content segs with
      | error e =>
          rw [hinner] at ih
          obtain ⟨seg', hseg', hopen⟩ := ih.mp rfl
          simp only [bind, Except.bind, Except.toOption, true_iff]
          exact ⟨seg', List.mem_cons_of_mem _ hseg', hopen⟩
      | ok inner =>
          rw [hinner] at ih
          have hrest : ¬ ∃ seg ∈ segs, seg = .wildcard ∨ seg = .greedy := by
            intro h
            have := ih.mpr h
            cases this
          simp only [List.mem_cons, exists_eq_or_imp, hrest, or_false]
          cases seg <;> simp [bind, Except.bind, Except.toOption]

end Plan

/-! ## Insertion at matches -/

namespace Pattern

variable (p : Pattern)

/-- The value of a matched entry refuses the content. -/
def MergeRefused (content d : Tree) : Prop :=
  ∃ l k v cause, d.Reaches (l ++ [.key k]) v ∧ p.Matches (l ++ [.key k]) v ∧
    v.merge content = .error cause

/-- A position overruns a sequence, with no `**` pending, and a `*` or a `**` comes after it. -/
def OverrunOpen (d : Tree) : Prop :=
  ∃ l t c items n seg, d.Reaches l t ∧ p.run? p.start l = some c ∧ c.greedy = false ∧
    p.segment? c = some (.index n) ∧ t.untag = .sequence items ∧ items.length ≤ n ∧
    seg ∈ p.segments.drop (c.pos + 1) ∧ (seg = .wildcard ∨ seg = .greedy)

/-- Only the value of an entry can refuse the content. -/
theorem matched_insertion_eq_none_iff {content u : Tree} {s : Step} :
    (Edit.insertion content).matched s u = none ↔
      ∃ k cause, s = .key k ∧ u.merge content = .error cause := by
  cases s with
  | key k => cases hmerge : u.merge content <;> simp [Edit.insertion, hmerge, Except.toOption]
  | index i => simp [Edit.insertion]

theorem rewrite_insertion_eq_none_iff {p : Pattern} (hp : p.isRoot = false) {content d : Tree}
    (hd : d.DistinctKeys) : p.rewrite (.insertion content) p.start d = none ↔
      p.MergeRefused content d ∨ p.OverrunOpen d := by
  rw [rewrite_eq_none_iff]
  constructor
  · rintro ⟨v, hv, ⟨s, hs, hhit, hmatched⟩ | ⟨items, n, hc, hpast, hnone⟩⟩
    · obtain ⟨hnode, hrun⟩ := p.mem_visits.mp hv
      obtain ⟨l, hl⟩ := List.getLast?_eq_some_iff.mp hs
      obtain ⟨k, cause, rfl, hmerge⟩ := matched_insertion_eq_none_iff.mp hmatched
      have hreach := hd.reaches hnode
      have hmatch : p.Matches v.location v.node :=
        (matches_iff hp).mpr ⟨by simp [hl], v.cursor, hrun, hhit⟩
      rw [hl] at hreach hmatch
      exact .inl ⟨l, k, v.node, cause, hreach, hmatch, hmerge⟩
    · obtain ⟨hnode, hrun⟩ := p.mem_visits.mp hv
      obtain ⟨hseg, hle, hg⟩ := p.past?_eq_some_iff.mp hpast
      rw [Edit.insertion, Option.map_eq_none_iff, Plan.chain_eq_none_iff] at hnone
      obtain ⟨seg, hmem, hopen⟩ := hnone
      exact .inr ⟨v.location, v.node, v.cursor, items, n, seg, hd.reaches hnode, hrun, hg, hseg, hc,
        hle, hmem, hopen⟩
  · rintro (⟨l, k, v, cause, hreach, hmatch, hmerge⟩ |
      ⟨l, t, c, items, n, seg, hreach, hrun, hg, hseg, hc, hle, hmem, hopen⟩)
    · obtain ⟨-, c, hrun, hhit⟩ := (matches_iff hp).mp hmatch
      refine ⟨⟨_, v, c⟩, p.mem_visits.mpr ⟨hreach.mem_nodes, hrun⟩, .inl ⟨.key k, ?_, hhit, ?_⟩⟩
      · exact List.getLast?_concat ..
      · exact matched_insertion_eq_none_iff.mpr ⟨k, cause, rfl, hmerge⟩
    · refine ⟨⟨l, t, c⟩, p.mem_visits.mpr ⟨hreach.mem_nodes, hrun⟩, .inr ⟨items, n, hc, ?_, ?_⟩⟩
      · exact p.past?_eq_some_iff.mpr ⟨hseg, hle, hg⟩
      · rw [Edit.insertion, Option.map_eq_none_iff, Plan.chain_eq_none_iff]
        exact ⟨seg, hmem, hopen⟩

end Pattern

namespace Verb

variable {p : Pattern}

/--
**Insertion at matches is a rewrite in one pass.** It fails exactly if the walk is blocked, the
value of a matched entry refuses the content, or a `*` or a `**` comes after a position that overran
a sequence; after a walk that went through the failure is a conflict at a place.
-/
theorem insert_eq_rewrite {d : Tree} (hd : d.DistinctKeys) (hp : p.isRoot = false)
    (hmatch : ∃ l t, d.Reaches l t ∧ p.Matches l t) (content : Tree) (listDelimiter : String) :
    (∀ d', (insert content).apply p listDelimiter d = .ok d' ↔
      ¬ p.Blocked d ∧ p.rewrite (.insertion content) p.start d = some d') ∧
    ((∃ e, (insert content).apply p listDelimiter d = .error e) ↔
      p.Blocked d ∨ p.MergeRefused content d ∨ p.OverrunOpen d) ∧
    (¬ p.Blocked d → ∀ e, (insert content).apply p listDelimiter d = .error e →
      ∃ location cause, e = .conflict location cause) := by
  rw [insert_eq hp]
  cases hsome : (fullWalk p d).accepted.isSome with
  | false =>
      have hblocked : p.Blocked d := by
        by_contra hno
        rw [(isSome_accepted_fullWalk hp hd).mpr hno] at hsome
        cases hsome
      simp [hblocked]
  | true =>
      have hfree : ¬ p.Blocked d := (isSome_accepted_fullWalk hp hd).mp hsome
      have hfound : (fullWalk p d).foundNodes ≠ [] := by
        obtain ⟨l, t, hreach, hmatch⟩ := hmatch
        exact List.ne_nil_of_mem ((mem_foundNodes_fullWalk hp hd hsome).mpr ⟨hreach, hmatch⟩)
      have hnone : p.rewrite (.insertion content) p.start d = none ↔
          p.MergeRefused content d ∨ p.OverrunOpen d := Pattern.rewrite_insertion_eq_none_iff hp hd
      rw [← Plan.toOption_insert hd hp hsome hfound] at hnone ⊢
      simp only [if_true, hfree, not_false_eq_true, true_and, false_or, forall_const, ← hnone]
      cases (Plan.ofWalk p (fullWalk p d)).insert content d with
      | ok t => simp [ofLocated, Except.toOption]
      | error e => simp [ofLocated, Except.toOption]

/-- An item is put before the one that matches, and the sequence that was overrun gets one more. -/
theorem insert_eq_rewrite_before_and_past :
    let d : Tree := .mapping [(.string "a", .sequence [.bool true, .bool false]),
      (.string "b", .sequence [.null])]
    let d' : Tree := .mapping [(.string "a", .sequence [.bool true, .string "n", .bool false]),
      (.string "b", .sequence [.null, .string "n"])]
    let p : Pattern := ⟨"*.[1]", ".", [.wildcard, .index 1]⟩
    (∃ l t, d.Reaches l t ∧ p.Matches l t) ∧
      p.rewrite (.insertion (.string "n")) p.start d = some d' ∧
      (insert (.string "n")).apply p "." d = .ok d' := by
  intro d d' p
  have hd : d.DistinctKeys := by decide +kernel
  have hp : p.isRoot = false := by decide
  have hsome : (fullWalk p d).accepted.isSome = true := by decide +kernel
  have hfound : ([.key (.string "a"), .index 1], .bool false) ∈ (fullWalk p d).foundNodes := by
    decide +kernel
  have hmatch : ∃ l t, d.Reaches l t ∧ p.Matches l t :=
    ⟨_, _, (mem_foundNodes_fullWalk hp hd hsome).mp hfound⟩
  have hrewrite : p.rewrite (.insertion (.string "n")) p.start d = some d' := by decide +kernel
  have hfree : ¬ p.Blocked d := (isSome_accepted_fullWalk hp hd).mp hsome
  exact ⟨hmatch, hrewrite,
    ((insert_eq_rewrite hd hp hmatch (.string "n") ".").1 d').mpr ⟨hfree, hrewrite⟩⟩

end Verb

end TreeEdit
