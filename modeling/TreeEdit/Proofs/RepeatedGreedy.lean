import TreeEdit.Proofs.Cursors
import TreeEdit.Proofs.Growth
import TreeEdit.Proofs.RenderedPatterns
import TreeEdit.Proofs.WholeKeys

/-!
# Repeating `**` changes nothing

This module takes the walks of two patterns that are the same but for repeated `**` to what the
verbs make of them. What a verb does with its matches goes by their locations, which are the same.
An insertion goes by cursors too: it compares stubs with each other (`Plan.sameStub_eq`), chooses
those furthest along (`Plan.exists_deepest`) and builds what is left of the pattern, where a `**` is
refused however often it stands there (`Plan.chain_collapsed`).

Only a message tells the patterns apart: a walk that has to stop gives the text of the pattern
(`Verb.apply_eq_or_stopped`).
-/

namespace TreeEdit

/-! ## Patterns with the same segments -/

/-- Segments that are read from texts and agree are one segment: both are read from one text. -/
theorem Segment.eq_of_same {s s' : Segment} (h : s.same s' = true)
    (hs : ∃ text, parse text = .ok s) (hs' : ∃ text, parse text = .ok s') : s = s' := by
  obtain ⟨text, hparse⟩ := hs
  obtain ⟨text', hparse'⟩ := hs'
  have htext : s.text = s'.text := by
    unfold same at h
    split at h
    · exact of_decide_eq_true h
    · rfl
    · rfl
    · rw [of_decide_eq_true h]
    · cases h
  have hread := (parse_text hparse).1
  rw [htext, (parse_text hparse').1] at hread
  exact (Except.ok.inj hread).symm

namespace Pattern

/-- Segments that were read from texts are equal if they count as the same. -/
theorem eq_of_sameSegments {as bs : List Segment} (h : sameSegments as bs = true)
    (has : ∀ s ∈ as, ∃ text, Segment.parse text = .ok s)
    (hbs : ∀ s ∈ bs, ∃ text, Segment.parse text = .ok s) : as = bs := by
  fun_induction sameSegments as bs with
  | case1 => rfl
  | case2 a as b bs ih =>
      rw [Bool.and_eq_true] at h
      rw [List.forall_mem_cons] at has hbs
      rw [Segment.eq_of_same h.1 has.1 hbs.1, ih h.2 has.2 hbs.2]
  | case3 => cases h

theorem delimiter_of_compile {raw delimiter : String} {p : Pattern}
    (h : compile raw delimiter = .ok p) : delimiter ≠ "" ∧ p.delimiter = delimiter := by
  unfold compile at h
  dsimp only at h
  split at h
  · cases h
  rename_i hne
  refine ⟨hne, ?_⟩
  split at h
  · cases h
    rfl
  split at h
  · cases h
  split at h
  · cases h
    rfl
  · cases h

end Pattern

/-! ## What walks leave to be done -/

/-- Stubs at one place, with renamed cursors. -/
structure Stub.Renamed (p q : Pattern) (a b : Stub) : Prop where
  location : a.location = b.location
  cursor : p.Renamed q a.cursor b.cursor

/-- Plans for the same targets, with renamed stubs. -/
structure Plan.Renamed (m n : Plan) : Prop where
  delimiter : m.pattern.delimiter = n.pattern.delimiter
  targets : m.targets = n.targets
  stubs : List.Forall₂ (Stub.Renamed m.pattern n.pattern) m.stubs n.stubs
  extensions : List.Forall₂ (Stub.Renamed m.pattern n.pattern) m.extensions n.extensions

namespace Plan

variable {p q : Pattern} {content : Tree}

theorem stub?_renamed {e f : Event} (h : Event.Renamed p q e f) :
    Option.Rel (Stub.Renamed p q) (stub? e) (stub? f) := by
  cases h with
  | deadEnd hc => exact .some ⟨rfl, hc⟩
  | partway | found => exact .none

theorem extension?_renamed {e f : Event} (h : Event.Renamed p q e f) :
    Option.Rel (Stub.Renamed p q) (extension? p e) (extension? q f) := by
  cases h with
  | partway | found => exact .none
  | @deadEnd l t c d um hc =>
      cases um with
      | some s => exact .none
      | none =>
          unfold extension?
          dsimp only
          rw [hc.segment?_eq, hc.greedy]
          split
          · split
            · exact .some ⟨rfl, hc⟩
            · exact .none
          · exact .none

theorem renamed_ofWalk {w v : Walk} (hdelimiter : p.delimiter = q.delimiter)
    (h : Walk.Renamed p q w v) : Renamed (ofWalk p w) (ofWalk q v) where
  delimiter := hdelimiter
  targets := by rw [ofWalk, ofWalk, h.foundNodes_eq]
  stubs := List.rel_filterMap (R := Event.Renamed p q) (fun _ _ he => stub?_renamed he) h.events
  extensions :=
    List.rel_filterMap (R := Event.Renamed p q) (fun _ _ he => extension?_renamed he) h.events

/-! ## Repeated stubs -/

theorem sameStub_eq {a b a' b' : Stub} (ha : Stub.Renamed p q a a') (hb : Stub.Renamed p q b b') :
    sameStub p a b = sameStub q a' b' := by
  rw [sameStub, sameStub, ha.location, hb.location]
  congr 1
  rw [Bool.eq_iff_iff, ha.cursor.left.isEquivalent_iff hb.cursor.left,
    ha.cursor.right.isEquivalent_iff hb.cursor.right, ha.cursor.greedy, hb.cursor.greedy,
    ha.cursor.pos_eq_iff hb.cursor]

theorem any_sameStub_eq {seen seen' : List Stub} {s s' : Stub}
    (hseen : List.Forall₂ (Stub.Renamed p q) seen seen') (hs : Stub.Renamed p q s s') :
    seen.any (sameStub p · s) = seen'.any (sameStub q · s') := by
  induction hseen with
  | nil => rfl
  | cons hr _ ih => rw [List.any_cons, List.any_cons, sameStub_eq hr hs, ih]

/-- Leaving out repeated stubs leaves out the same ones on both sides. -/
theorem distinct_renamed {seen seen' ss ss' : List Stub}
    (hseen : List.Forall₂ (Stub.Renamed p q) seen seen')
    (h : List.Forall₂ (Stub.Renamed p q) ss ss') :
    List.Forall₂ (Stub.Renamed p q) (distinct p seen ss) (distinct q seen' ss') := by
  induction h generalizing seen seen' with
  | nil => exact .nil
  | cons hs _ ih =>
      rw [distinct, distinct, any_sameStub_eq hseen hs]
      split
      · exact ih hseen
      · exact .cons hs (ih (.cons hs hseen))

/-! ## The stubs furthest along -/

/-- Among stubs and their renamed ones, two that stand for one another are furthest along. -/
theorem exists_deepest {ss ss' : List Stub} (h : List.Forall₂ (Stub.Renamed p q) ss ss')
    {a a' : Stub} (ha : Stub.Renamed p q a a') : ∃ s s', Stub.Renamed p q s s' ∧
      ss.foldl (fun n s => max n s.cursor.pos) a.cursor.pos = s.cursor.pos ∧
      ss'.foldl (fun n s => max n s.cursor.pos) a'.cursor.pos = s'.cursor.pos := by
  induction h generalizing a a' with
  | nil => exact ⟨a, a', ha, rfl, rfl⟩
  | @cons b b' ss ss' hb _ ih =>
      rw [List.foldl_cons, List.foldl_cons]
      have hle := ha.cursor.pos_le_iff hb.cursor
      by_cases hab : a.cursor.pos ≤ b.cursor.pos
      · rw [max_eq_right hab, max_eq_right (hle.mp hab)]
        exact ih hb
      · have hab' : ¬ a'.cursor.pos ≤ b'.cursor.pos := fun h => hab (hle.mpr h)
        rw [max_eq_left (by omega), max_eq_left (by omega)]
        exact ih ha

namespace Renamed

variable {m n : Plan}

/-- The deepest stubs of one plan are the deepest of the other: a renaming is monotone. -/
theorem furthest (h : Renamed m n) :
    List.Forall₂ (Stub.Renamed m.pattern n.pattern) m.furthest n.furthest := by
  unfold Plan.furthest
  have hstubs := h.stubs
  cases hm : m.stubs with
  | nil =>
      rw [hm] at hstubs
      rw [List.forall₂_nil_left_iff.mp hstubs]
      exact .nil
  | cons a ss =>
      rw [hm] at hstubs
      cases hn : n.stubs with
      | nil => rw [hn] at hstubs; cases hstubs
      | cons a' ss' =>
          rw [hn] at hstubs
          obtain ⟨ha, hss⟩ := List.forall₂_cons.mp hstubs
          obtain ⟨s, s', hs, hpos, hpos'⟩ := exists_deepest hss ha
          have hdepth : m.depth = s.cursor.pos := by
            rw [depth, hm, List.foldl_cons, Nat.zero_max, hpos]
          have hdepth' : n.depth = s'.cursor.pos := by
            rw [depth, hn, List.foldl_cons, Nat.zero_max, hpos']
          refine List.rel_filter (fun b b' hb => ?_) hstubs
          have hpos := hb.cursor.pos_eq_iff hs.cursor
          simpa only [hdepth, hdepth', decide_eq_true_eq] using hpos

theorem growths (h : Renamed m n) :
    List.Forall₂ (Stub.Renamed m.pattern n.pattern) m.growths n.growths := by
  refine distinct_renamed h.extensions (List.rel_filter (fun b b' hb => ?_) h.furthest)
  simp only [hb.cursor.greedy]

theorem extended (h : Renamed m n) :
    List.Forall₂ (Stub.Renamed m.pattern n.pattern) m.extended n.extended :=
  List.rel_reverse (distinct_renamed .nil h.extensions)

end Renamed

/-! ## What is built -/

/-- A chain with a `**` in it is not built, and one `**` is as bad as several. -/
theorem chain_collapsed (content : Tree) (segments : List Segment) :
    chain content (Pattern.collapsed segments) = chain content segments := by
  induction segments with
  | nil => rfl
  | cons s rest ih =>
      rw [Pattern.collapsed]
      split
      · rename_i h
        obtain ⟨rfl, rest', rfl⟩ := Pattern.eq_greedy_cons h
        rw [ih]
        simp only [chain]
        cases chain content rest' <;> rfl
      · rw [chain, chain, ih]

/-- A stub grows by the segments that are left of it, which a renaming keeps. -/
theorem grow_eq {a b : Stub} (h : Stub.Renamed p q a b) (t : Tree) :
    grow p content t a = grow q content t b := by
  unfold grow
  rw [h.location]
  rcases h.cursor.remaining_cases with ⟨hp, hq⟩ | ⟨seg, rest, rest', hp, hq, -, hrest⟩
  · rw [hp, hq]
  · rw [hp, hq]
    simp only
    rw [← chain_collapsed content rest, hrest, chain_collapsed]

/-- Steps that agree one by one, at the same places, come to the same. -/
theorem run_eq {α : Type} {R : α → α → Prop} {place : α → Location}
    {step step' : Tree → α → Except Conflict Tree} (hdelimiter : p.delimiter = q.delimiter)
    (hplace : ∀ a b, R a b → place a = place b)
    (hstep : ∀ a b, R a b → ∀ t, step t a = step' t b) {as bs : List α}
    (h : List.Forall₂ R as bs) (t : Tree) : run p place step t as = run q place step' t bs := by
  induction h generalizing t with
  | nil => rfl
  | @cons a b as bs hab _ ih =>
      rw [run, run, hstep a b hab, hplace a b hab, label, label, hdelimiter]
      cases step' t b with
      | ok t' => exact ih t'
      | error cause => rfl

namespace Renamed

variable {m n : Plan}

theorem run_grow_eq (h : Renamed m n) {ss ss' : List Stub}
    (hss : List.Forall₂ (Stub.Renamed m.pattern n.pattern) ss ss') (t : Tree) :
    run m.pattern Stub.location (grow m.pattern content) t ss
      = run n.pattern Stub.location (grow n.pattern content) t ss' :=
  run_eq (R := Stub.Renamed m.pattern n.pattern) h.delimiter (fun _ _ hab => hab.location)
    (fun _ _ hab t => grow_eq hab t) hss t

theorem runTargets_eq (h : Renamed m n) (mode : Mode) (t : Tree) :
    m.runTargets mode content t = n.runTargets mode content t := by
  rw [runTargets, runTargets, h.targets]
  exact run_eq (R := Eq) h.delimiter (fun _ _ => congrArg id) (fun _ _ hab _ => by rw [hab])
    (List.forall₂_same.mpr fun _ _ => rfl) t

/-- **Renamed plans are carried out alike.** -/
theorem insert_eq (h : Renamed m n) (t : Tree) : m.insert content t = n.insert content t := by
  have hgrowths : m.runGrowths content = n.runGrowths content :=
    funext fun t => h.run_grow_eq h.growths t
  have htargets : m.runTargets .insert content = n.runTargets .insert content :=
    funext fun t => h.runTargets_eq .insert t
  rw [Plan.insert, Plan.insert, hgrowths, htargets, h.targets, runExtensions, runExtensions,
    h.run_grow_eq h.extended]

end Renamed

end Plan

namespace Verb

variable {p q : Pattern}

/-- The pattern of a walk does not matter to a verb but for the text that a stop gives. -/
theorem apply_eq_or_stopped (v : Verb) (hdelimiter : p.delimiter = q.delimiter)
    (h : Pattern.collapsed p.segments = Pattern.collapsed q.segments) (listDelimiter : String)
    (document : Tree) :
    v.apply p listDelimiter document = v.apply q listDelimiter document ∨
      (v.apply p listDelimiter document = .error (.nestedSequences p.raw) ∧
        v.apply q listDelimiter document = .error (.nestedSequences q.raw)) := by
  have hwalk := Pattern.renamed_fullWalk h document
  have hroot := Pattern.isRoot_eq h
  have htargets : targets p document = targets q document := by
    rw [targets, targets, hroot, hwalk.foundNodes_eq]
  have hlabel : tableLabel p = tableLabel q := by
    funext l
    rw [tableLabel, tableLabel, hroot, hdelimiter]
  cases hsome : (fullWalk q document).accepted.isSome with
  | false =>
      -- a table may fail before the walk stops
      have hp : checkWalk p (fullWalk p document) = .error (.nestedSequences p.raw) := by
        rw [checkWalk, hwalk.accepted, hsome, if_neg Bool.false_ne_true]
      have hq : checkWalk q (fullWalk q document) = .error (.nestedSequences q.raw) := by
        rw [checkWalk, hsome, if_neg Bool.false_ne_true]
      cases v with
      | table columns =>
          simp only [apply, hp, hq, htargets, hlabel]
          cases Table.allRows columns _ with
          | error cause => exact .inl rfl
          | ok rows => exact .inr ⟨rfl, rfl⟩
      | read | list | delete | insert _ | replace _ =>
          simp only [apply, hp, hq]
          exact .inr ⟨rfl, rfl⟩
  | true =>
      have hp : checkWalk p (fullWalk p document) = .ok (fullWalk p document) := by
        rw [checkWalk, hwalk.accepted, hsome, if_pos rfl]
      have hq : checkWalk q (fullWalk q document) = .ok (fullWalk q document) := by
        rw [checkWalk, hsome, if_pos rfl]
      have hlist : listLabel p = listLabel q := by
        funext delimiter l
        rw [listLabel, listLabel, hroot]
      have hplan := Plan.renamed_ofWalk hdelimiter hwalk
      left
      cases v with
      | read => simp only [apply, hp, hq, htargets]; rfl
      | list => simp only [apply, hp, hq, htargets, hlist]; rfl
      | delete => simp only [apply, hp, hq, hroot, deletions, hwalk.foundNodes_eq]; rfl
      | insert content =>
          simp only [apply, hp, hq, hroot, hplan.insert_eq]; rfl
      | replace content =>
          simp only [apply, hp, hq, hroot, Plan.replace, hplan.runTargets_eq]; rfl
      | table columns => simp only [apply, hp, hq, htargets, hlabel]; rfl

/-- On a pattern made of `**` only a verb takes the whole document. -/
theorem apply_of_isRoot (v : Verb) (hp : p.isRoot = true) (hq : q.isRoot = true)
    (listDelimiter : String) (document : Tree) :
    v.apply p listDelimiter document = v.apply q listDelimiter document := by
  have hwalk : fullWalk p document = fullWalk q document := by
    rw [fullWalk, fullWalk, Pattern.walk, Pattern.walk, if_pos hp, if_pos hq]
  have hgoes : (fullWalk q document).accepted.isSome = true := by
    rw [fullWalk, Pattern.walk, if_pos hq]
    rfl
  cases v <;> simp [apply, checkWalk, targets, tableLabel, listLabel, hwalk, hgoes, hp, hq]

/--
**Repeating `**` changes nothing.** If two patterns over one delimiter have the same segments once
every run of `**` is made one, a verb gives the same document for both or fails for both in the same
way; where the walks have to stop, each failure gives the text of its own pattern. A pattern made of
`**` only does what the pattern for the whole document does.
-/
theorem apply_eq_of_collapsed (v : Verb) (delimiter listDelimiter : String) (document : Tree) :
    (∀ raw raw' p q, Pattern.compile raw delimiter = .ok p →
      Pattern.compile raw' delimiter = .ok q →
      Pattern.sameSegments (Pattern.collapsed p.segments) (Pattern.collapsed q.segments) = true →
      v.apply p listDelimiter document = v.apply q listDelimiter document ∨
        (v.apply p listDelimiter document = .error (.nestedSequences p.raw) ∧
          v.apply q listDelimiter document = .error (.nestedSequences q.raw))) ∧
    ∀ raw p, Pattern.compile raw delimiter = .ok p → (∀ s ∈ p.segments, s = .greedy) →
      ∃ whole, Pattern.compile "/" delimiter = .ok whole ∧
        v.apply p listDelimiter document = v.apply whole listDelimiter document := by
  constructor
  · intro raw raw' p q hp hq hsame
    have hdelimiter : p.delimiter = q.delimiter := by
      rw [(Pattern.delimiter_of_compile hp).2, (Pattern.delimiter_of_compile hq).2]
    refine v.apply_eq_or_stopped hdelimiter ?_ listDelimiter document
    exact Pattern.eq_of_sameSegments hsame
      (fun s hs => Pattern.exists_parse_of_mem hp ((Pattern.collapsed_sublist _).subset hs))
      (fun s hs => Pattern.exists_parse_of_mem hq ((Pattern.collapsed_sublist _).subset hs))
  · intro raw p hp hgreedy
    refine ⟨⟨"/", delimiter, []⟩, ?_, v.apply_of_isRoot ?_ rfl listDelimiter document⟩
    · have htrim : Text.trim "/" = Pattern.root := by decide
      rw [Pattern.compile, if_neg (Pattern.delimiter_of_compile hp).1, htrim, if_pos rfl]
      rfl
    · exact List.all_eq_true.mpr fun s hs => by rw [hgreedy s hs]; rfl

/-- Structure is built below the key that got furthest, and a whole document gets new content. -/
theorem apply_eq_of_collapsed_insert : ∃ p q stars,
    let d : Tree := .singleton "x" (.singleton "a" (.singleton "c" .null))
    let v : Verb := .insert (.singleton "y" .null)
    Pattern.compile "**.**.a.b" "." = .ok p ∧ Pattern.compile "**.a.b" "." = .ok q ∧
      Pattern.sameSegments (Pattern.collapsed p.segments) (Pattern.collapsed q.segments) = true ∧
      Pattern.compile "**.**" "." = .ok stars ∧ (∀ s ∈ stars.segments, s = .greedy) ∧
      (v.apply p "." d = v.apply q "." d ∨
        (v.apply p "." d = .error (.nestedSequences p.raw) ∧
          v.apply q "." d = .error (.nestedSequences q.raw))) ∧
      ∃ whole, Pattern.compile "/" "." = .ok whole ∧ v.apply stars "." d = v.apply whole "." d := by
  obtain ⟨r, r', hp⟩ : ∃ r r', Pattern.compile "**.**.a.b" "." =
      .ok ⟨"**.**.a.b", ".", [.greedy, .greedy, .literal "a" r, .literal "b" r']⟩ := ⟨_, _, rfl⟩
  obtain ⟨s, s', hq⟩ : ∃ s s', Pattern.compile "**.a.b" "." =
      .ok ⟨"**.a.b", ".", [.greedy, .literal "a" s, .literal "b" s']⟩ := ⟨_, _, rfl⟩
  have hstars : Pattern.compile "**.**" "." = .ok ⟨"**.**", ".", [.greedy, .greedy]⟩ := rfl
  have hgreedy : ∀ seg ∈ [Segment.greedy, .greedy], seg = .greedy := by simp
  refine ⟨_, _, _, hp, hq, rfl, hstars, hgreedy, ?_, ?_⟩
  · exact (apply_eq_of_collapsed _ "." "." _).1 _ _ _ _ hp hq rfl
  · exact (apply_eq_of_collapsed _ "." "." _).2 _ _ hstars hgreedy

end Verb

end TreeEdit
