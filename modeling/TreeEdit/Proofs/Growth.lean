import TreeEdit.Proofs.Stubs

/-!
# Growing a document only adds to it

Where structure is built a node *sprouts*: it gets one more child and keeps what it has
(`Plan.Sprouts`). A run that grows a document at open places is described by what it does there and
everywhere else (`Plan.Grown`): the places sprout, what is above them keeps its tags, keys and
lengths, and nothing else changes. One growth is such a run, and growths at places that lie apart
can be put one after the other.

So an insertion without a match only adds (`Verb.insert_only_adds`).
-/

namespace TreeEdit

namespace Plan

/--
A node with a new child for a segment. A mapping keeps its entries and gets one more, a sequence is
filled up with nulls to the position, and an empty place becomes a new container.
-/
inductive Sprouts : (head : Segment) → (inner old new : Tree) → Prop where
  | entry {text : String} {regex : Regex} {inner old : Tree} {es : Entries} :
      old.untag = .mapping es → es.find? (.string text) = none →
      Sprouts (.literal text regex) inner old (old.retag (.mapping (es ++ [(.string text, inner)])))
  | item {n pads : Nat} {inner old : Tree} {items : List Tree} :
      old.untag = .sequence items →
      (items ++ List.replicate pads Tree.null ++ [inner]).length = n + 1 →
      Sprouts (.index n) inner old
        (old.retag (.sequence (items ++ List.replicate pads .null ++ [inner])))
  | blankEntry {text : String} {regex : Regex} {inner old : Tree} :
      old.isBlank = true →
      Sprouts (.literal text regex) inner old (old.retag (.singleton text inner))
  | blankItem {n : Nat} {inner old : Tree} :
      old.isBlank = true → Sprouts (.index n) inner old (old.retag (.padded n inner))

/-- An empty place has no children. -/
theorem isScalar_of_isBlank {t : Tree} (h : t.isBlank = true) : t.isScalar = true := by
  unfold Tree.isBlank at h
  unfold Tree.isScalar
  cases hc : t.untag <;> simp [hc] at h ⊢

/-- What a node holds is still there after it sprouted. -/
theorem Sprouts.leads {head : Segment} {inner old new u : Tree} {s : Step}
    (h : Sprouts head inner old new) (hs : old.Leads s u) : new.Leads s u := by
  cases h with
  | entry hc hnew =>
      cases hs with
      | entry hc' hk =>
          rw [hc] at hc'
          obtain rfl := Tree.mapping.inj hc'
          refine .entry (by rw [Tree.untag_retag]; rfl) ?_
          unfold Entries.lookup? at hk ⊢
          rw [List.find?_append, hk, Option.some_or]
      | item hc' => rw [hc] at hc'; cases hc'
  | item hc hlen =>
      cases hs with
      | entry hc' => rw [hc] at hc'; cases hc'
      | item hc' hn =>
          rw [hc] at hc'
          obtain rfl := Tree.sequence.inj hc'
          refine .item (by rw [Tree.untag_retag]; rfl) ?_
          obtain ⟨hlt, rfl⟩ := List.getElem?_eq_some_iff.mp hn
          rw [List.append_assoc, List.getElem?_append_left hlt, List.getElem?_eq_getElem hlt]
  | blankEntry hb | blankItem hb =>
      have := hs.mem_children
      rw [Tree.children_eq_nil_of_isScalar (isScalar_of_isBlank hb)] at this
      cases this

/-- A mapping where no child matches a literal does not have its text for a key. -/
theorem find?_eq_none_of_closed {text : String} {regex : Regex} {t : Tree} {es : Entries}
    (hc : t.untag = .mapping es)
    (hclosed : ∀ e ∈ t.children, (Segment.literal text regex).matchesStep e.1 = false) :
    Entries.find? (.string text) es = none := by
  refine Entries.find?_eq_none_iff.mpr fun e he hsame => ?_
  have hkey := hclosed (.key e.1, e.2) (by
    rw [Tree.children_of_untag hc]
    exact Tree.mem_entrySteps.mpr ⟨e.1, rfl, he⟩)
  simp [Tree.same_string_iff.mp hsame, Segment.matchesStep, Segment.matchesKey, Tree.text?,
    Segment.matchesText] at hkey

/-- A chain hung below a node for a segment that no child matches is a new child. -/
theorem attach_sprouts {head : Segment} {inner old new : Tree}
    (h : attach old head inner = .ok new)
    (hclosed : ∀ e ∈ old.children, head.matchesStep e.1 = false) : Sprouts head inner old new := by
  unfold attach at h
  split at h
  · rename_i hb
    split at h
    · obtain rfl := Except.ok.inj h
      exact .blankEntry hb
    · obtain rfl := Except.ok.inj h
      exact .blankItem hb
    · cases h
    · cases h
  · split at h
    · rename_i es text regex hc
      -- a key with this text would be a child that the segment matches
      have hnew : Entries.find? (.string text) es = none := find?_eq_none_of_closed hc hclosed
      rw [hnew] at h
      obtain rfl := Except.ok.inj h
      rw [Entries.insert_of_find?_eq_none hnew]
      exact .entry hc hnew
    · rename_i items n hc
      split at h
      · obtain rfl := Except.ok.inj h
        refine .item hc ?_
        simp only [List.length_append, List.length_replicate, List.length_singleton]
        omega
      · cases h
    · cases h
    · cases h
    · cases h

/-- The content, in one container for each segment left but the first, sprouts at a place. -/
def Grows (p : Pattern) (content : Tree) (c : Cursor) (old new : Tree) : Prop :=
  ∃ head tail inner, p.remaining c = head :: tail ∧ chain content tail = .ok inner ∧
    Sprouts head inner old new

variable {p : Pattern} {content : Tree}

/-- **Growth at an open place adds to the node there.** -/
theorem Open.grow {t t' old : Tree} {s : Stub} (hs : Open p t s old)
    (h : grow p content t s = .ok t') :
    ∃ new, Grows p content s.cursor old new ∧ t.set? s.location new = some t' := by
  unfold Plan.grow at h
  split at h
  · rename_i hnil
    have := hs.unused
    rw [p.remaining_eq_nil_iff.mp hnil] at this
    cases this
  · rename_i head tail hrem
    cases hchain : chain content tail with
    | error e => rw [hchain] at h; cases h
    | ok inner =>
        rw [hchain] at h
        simp only [bind, Except.bind, hs.reaches.get?_eq] at h
        cases hnew : attach old head inner with
        | error e => rw [hnew] at h; cases h
        | ok new =>
            rw [hnew] at h
            simp only at h
            split at h
            · rename_i t'' hset
              obtain rfl := Except.ok.inj h
              have hsprouts : Sprouts head inner old new := attach_sprouts hnew fun e he =>
                ((p.step?_eq_none_iff (p.remaining_eq_cons_iff.mp hrem).1).mp (hs.closed e he)).1
              exact ⟨new, ⟨head, tail, inner, hrem, hchain, hsprouts⟩, hset⟩
            · cases h

/-! ## What growth does to a document -/

/-- A document before and after it was grown at some places. -/
structure Grown (p : Pattern) (content : Tree) (ss : List Stub) (t t' : Tree) : Prop where
  /-- at each of the places the content sprouts -/
  sprouts : ∀ s ∈ ss, ∃ old new, t.Reaches s.location old ∧ t'.Reaches s.location new ∧
    Grows p content s.cursor old new
  /-- a place not above any of them keeps its value -/
  kept : ∀ l w, t.Reaches l w → (∀ s ∈ ss, ¬ l <+: s.location) → t'.Reaches l w
  /-- a place not below any of them keeps its tags, and its keys or its length -/
  framed : ∀ l w, t.Reaches l w → (∀ s ∈ ss, ¬ s.location <+: l) →
    ∃ w', t'.Reaches l w' ∧ (w' = w ∨ w.SameFrame w')

theorem Grown.nil (t : Tree) : Grown p content [] t t where
  sprouts := fun _ hs => absurd hs (List.not_mem_nil)
  kept := fun _ _ hl _ => hl
  framed := fun _ w hl _ => ⟨w, hl, .inl rfl⟩

/-- One growth at an open place. -/
theorem Open.grown {t t' old : Tree} {s : Stub} (hs : Open p t s old)
    (h : Plan.grow p content t s = .ok t') : Grown p content [s] t t' := by
  obtain ⟨new, hgrows, hset⟩ := hs.grow h
  obtain ⟨head, tail, inner, -, -, hsprouts⟩ := id hgrows
  have hnew := hs.reaches.set?_self hset
  constructor
  · simp only [List.mem_singleton, forall_eq]
    exact ⟨old, new, hs.reaches, hnew, hgrows⟩
  · simp only [List.mem_singleton, forall_eq]
    intro l w hl habove
    by_cases hbelow : s.location <+: l
    · obtain ⟨m, rfl⟩ := hbelow
      obtain ⟨old', hold', hm⟩ := hl.of_append
      obtain rfl := hs.reaches.unique hold'
      -- below the place, what the old node led to the new one leads to
      cases hm with
      | here => exact absurd (by simp) habove
      | down hr hm => exact hnew.append (.down (hsprouts.leads hr) hm)
    · exact hs.reaches.set?_apart hset hl hbelow habove
  · simp only [List.mem_singleton, forall_eq]
    intro l w hl hbelow
    by_cases habove : l <+: s.location
    · obtain ⟨m, hm⟩ := habove
      cases m with
      | nil => rw [List.append_nil] at hm; exact absurd (hm ▸ List.prefix_rfl) hbelow
      | cons r m =>
          have hold := hs.reaches
          rw [← hm] at hold hset
          obtain ⟨w', hw', hframe⟩ := hl.set?_above hold hset
          exact ⟨w', hw', .inr hframe⟩
    · exact ⟨w, hs.reaches.set?_apart hset hl hbelow habove, .inl rfl⟩

/-- A place that lies apart stays open while others grow. -/
theorem Open.of_grown {t t' old : Tree} {s : Stub} {ss : List Stub} (hs : Open p t s old)
    (h : Grown p content ss t t') (hapart : ∀ r ∈ ss, r.location.Apart s.location) :
    Open p t' s old :=
  hs.of_reaches (h.kept _ _ hs.reaches fun r hr => (hapart r hr).2)

/-- Growths at places that lie apart can be put one after the other. -/
theorem Grown.cons {t t₁ t' : Tree} {s : Stub} {ss : List Stub} (h : Grown p content [s] t t₁)
    (h' : Grown p content ss t₁ t') (hopen : ∀ r ∈ ss, ∃ old, Open p t r old)
    (hapart : ∀ r ∈ ss, s.location.Apart r.location) : Grown p content (s :: ss) t t' := by
  constructor
  · intro r hr
    rcases List.mem_cons.mp hr with rfl | hr
    · obtain ⟨old, new, hold, hnew, hgrows⟩ := h.sprouts r (List.mem_singleton.mpr rfl)
      exact ⟨old, new, hold, h'.kept _ _ hnew fun s hs => (hapart s hs).1, hgrows⟩
    · obtain ⟨old, new, hold, hnew, hgrows⟩ := h'.sprouts r hr
      -- `old` is what stood there before the first growth too
      obtain ⟨old', hopen⟩ := hopen r hr
      have hold' := (hopen.of_grown h (by simpa using hapart r hr)).reaches
      obtain rfl := hold.unique hold'
      exact ⟨old, new, hopen.reaches, hnew, hgrows⟩
  · intro l w hl habove
    have hs := h.kept l w hl (by simpa using habove s (List.mem_cons_self ..))
    exact h'.kept l w hs fun r hr => habove r (List.mem_cons_of_mem _ hr)
  · intro l w hl hbelow
    obtain ⟨w₁, hw₁, hframe⟩ := h.framed l w hl (by simpa using hbelow s (List.mem_cons_self ..))
    obtain ⟨w', hw', hframe'⟩ := h'.framed l w₁ hw₁ fun r hr => hbelow r (List.mem_cons_of_mem _ hr)
    refine ⟨w', hw', ?_⟩
    rcases hframe with rfl | hframe
    · exact hframe'
    · rcases hframe' with rfl | hframe'
      · exact .inr hframe
      · exact .inr (hframe.trans hframe')

/-- **Growing a document at open places that lie apart only adds to it.** -/
theorem grown_of_run {t t' : Tree} {ss : List Stub} (hopen : ∀ s ∈ ss, ∃ old, Open p t s old)
    (hapart : ss.Pairwise fun a b => a.location.Apart b.location)
    (h : Plan.run p Stub.location (Plan.grow p content) t ss = .ok t') :
    Grown p content ss t t' := by
  induction ss generalizing t with
  | nil =>
      obtain rfl := Except.ok.inj h
      exact .nil t
  | cons s ss ih =>
      rw [Plan.run] at h
      split at h
      · rename_i t₁ hgrow
        obtain ⟨old, hs⟩ := hopen s (List.mem_cons_self ..)
        obtain ⟨hapart, hpairs⟩ := List.pairwise_cons.mp hapart
        have hopen' : ∀ r ∈ ss, ∃ old, Open p t r old :=
          fun r hr => hopen r (List.mem_cons_of_mem _ hr)
        have hfirst := hs.grown hgrow
        refine hfirst.cons (ih (fun r hr => ?_) hpairs h) hopen' hapart
        obtain ⟨old, hr'⟩ := hopen' r hr
        exact ⟨old, hr'.of_grown hfirst (by simpa using hapart r hr)⟩
      · cases h

/-- A place above one that grew keeps its tags, and its keys or its length. -/
theorem Grown.sameFrame {t t' w : Tree} {ss : List Stub} {s : Stub} {l : Location}
    (h : Grown p content ss t t') (hopen : ∀ r ∈ ss, ∃ old, Open p t r old) (hs : s ∈ ss)
    (hl : t.Reaches l w) (hls : l <+: s.location) (hne : l ≠ s.location) :
    ∃ w', t'.Reaches l w' ∧ w.SameFrame w' := by
  obtain ⟨old, hold⟩ := hopen s hs
  have hbelow : ∀ r ∈ ss, ¬ r.location <+: l := by
    intro r hr hrl
    obtain ⟨u, hu⟩ := hopen r hr
    -- a place above `l` is above `s` too, so it is `s`
    obtain rfl := hu.eq_of_prefix hold (hrl.trans hls)
    exact hne (hls.eq_of_length_le hrl.length_le)
  obtain ⟨w', hw', hframe⟩ := h.framed l w hl hbelow
  refine ⟨w', hw', ?_⟩
  rcases hframe with rfl | hframe
  · obtain ⟨m, hm⟩ := hls
    have hreach := hold.reaches
    rw [← hm] at hreach
    obtain ⟨u, hu, hrest⟩ := hreach.of_append
    obtain rfl := hl.unique hu
    cases hrest with
    | here => exact absurd (by simpa using hm) hne
    | down hr _ => exact hr.sameFrame_refl
  · exact hframe

/-! ## Insertion without a match -/

theorem run_append {α : Type} (place : α → Location) (step : Tree → α → Except Conflict Tree)
    (t : Tree) (as bs : List α) : Plan.run p place step t (as ++ bs) =
      (Plan.run p place step t as).bind fun t' => Plan.run p place step t' bs := by
  induction as generalizing t with
  | nil => rfl
  | cons a as ih =>
      rw [List.cons_append, Plan.run, Plan.run]
      cases step t a with
      | ok t' => exact ih t'
      | error e => rfl

/-- Without a target an insertion is growth. -/
theorem insert_of_targets_eq_nil {plan : Plan} (h : plan.targets = []) (t : Tree) :
    plan.insert content t =
      Plan.run plan.pattern Stub.location (Plan.grow plan.pattern content) t plan.grown := by
  rw [Plan.grown, run_append]
  simp only [Plan.insert, Plan.runExtensions, Plan.runTargets, h, List.isEmpty_nil, if_true,
    List.reverse_nil, Plan.run]
  rfl

end Plan

namespace Verb

variable {p : Pattern} {content : Tree}

/-- An insertion is its plan, carried out, or fails with the walk. -/
theorem insert_eq (hp : p.isRoot = false) (listDelimiter : String) (d : Tree) :
    (insert content).apply p listDelimiter d =
      if (fullWalk p d).accepted.isSome then
        ofLocated ((Plan.ofWalk p (fullWalk p d)).insert content d)
      else .error (.nestedSequences p.raw) := by
  cases h : (fullWalk p d).accepted.isSome with
  | true => simp [apply, checkWalk, h, hp, bind, Except.bind]
  | false => simp [apply, checkWalk, h, bind, Except.bind]

theorem ofLocated_eq_ok_iff {r : Except Conflict.Located Tree} {t : Tree} :
    ofLocated r = .ok t ↔ r = .ok t := by
  cases r <;> simp [ofLocated]

/-- An insertion where nothing was found grows the document. -/
theorem run_grown_of_insert {d d' : Tree} (hp : p.isRoot = false) {listDelimiter : String}
    (hnone : (fullWalk p d).foundNodes = [])
    (h : (insert content).apply p listDelimiter d = .ok d') :
    (fullWalk p d).accepted.isSome = true ∧
      Plan.run p Stub.location (Plan.grow p content) d (Plan.ofWalk p (fullWalk p d)).grown
        = .ok d' := by
  rw [insert_eq hp] at h
  split at h
  · rename_i hsome
    have htargets : (Plan.ofWalk p (fullWalk p d)).targets = [] := by simp [Plan.ofWalk, hnone]
    rw [ofLocated_eq_ok_iff, Plan.insert_of_targets_eq_nil htargets] at h
    exact ⟨hsome, h⟩
  · cases h

/-- Where an insertion succeeds and nothing matches, the walk went through and found nothing. -/
theorem foundNodes_eq_nil {d d' : Tree} (hd : d.DistinctKeys) (hp : p.isRoot = false)
    {listDelimiter : String} (hnone : ∀ l t, d.Reaches l t → ¬ p.Matches l t)
    (h : (insert content).apply p listDelimiter d = .ok d') :
    (fullWalk p d).accepted.isSome = true ∧ (fullWalk p d).foundNodes = [] := by
  rw [insert_eq hp] at h
  split at h
  · rename_i hsome
    refine ⟨hsome, List.eq_nil_iff_forall_not_mem.mpr fun n hn => ?_⟩
    obtain ⟨hreach, hmatch⟩ := (mem_foundNodes_fullWalk hp hd hsome).mp hn
    exact hnone _ _ hreach hmatch
  · cases h

/--
**Insertion without a match only adds.** The document sprouts at the places that the plan grows,
none of them below another, and holds the same values as before at every place that is not one of
them or above one. Above them tags, keys and their order, and lengths stay.
-/
theorem insert_only_adds {d d' : Tree} (hd : d.DistinctKeys) (hp : p.isRoot = false)
    {listDelimiter : String} (hnone : ∀ l t, d.Reaches l t → ¬ p.Matches l t)
    (h : (insert content).apply p listDelimiter d = .ok d') :
    ∃ gs : List Location, gs = (Plan.ofWalk p (fullWalk p d)).grown.map Stub.location ∧
      gs.Pairwise Location.Apart ∧
      (∀ g ∈ gs, ∃ c old new, p.run? p.start g = some c ∧ d.Reaches g old ∧ d'.Reaches g new ∧
        Plan.Grows p content c old new) ∧
      (∀ l w, d.Reaches l w → (∀ g ∈ gs, ¬ l <+: g) → d'.Reaches l w) ∧
      ∀ l w, d.Reaches l w → (∃ g ∈ gs, l <+: g ∧ l ≠ g) →
        ∃ w', d'.Reaches l w' ∧ w.SameFrame w' := by
  obtain ⟨hsome, hfound⟩ := foundNodes_eq_nil hd hp hnone h
  have hopen : ∀ s ∈ (Plan.ofWalk p (fullWalk p d)).grown, ∃ t, Plan.Open p d s t :=
    fun s hs => Plan.open_of_mem_grown hd hp hsome hfound hs
  have hapart := Plan.grown_apart hd hp hsome hfound
  have hgrown := Plan.grown_of_run hopen hapart (run_grown_of_insert hp hfound h).2
  refine ⟨_, rfl, List.pairwise_map.mpr hapart, ?_, ?_, ?_⟩
  · intro g hg
    obtain ⟨s, hs, rfl⟩ := List.mem_map.mp hg
    obtain ⟨t, ht⟩ := hopen s hs
    obtain ⟨old, new, hold, hnew, hgrows⟩ := hgrown.sprouts s hs
    exact ⟨s.cursor, old, new, ht.run, hold, hnew, hgrows⟩
  · intro l w hl habove
    exact hgrown.kept l w hl fun s hs => habove _ (List.mem_map_of_mem hs)
  · rintro l w hl ⟨g, hg, hlg, hne⟩
    obtain ⟨s, hs, rfl⟩ := List.mem_map.mp hg
    exact hgrown.sameFrame hopen hs hl hlg hne

/-- A sequence is extended and an empty place becomes a sequence. -/
theorem insert_only_adds_at_two_places :
    let d : Tree := .mapping [(.string "a", .sequence [.bool true]), (.string "b", .null)]
    let d' : Tree := .mapping [(.string "a", .sequence [.bool true, .bool false]),
      (.string "b", .sequence [.null, .bool false])]
    let p : Pattern := ⟨"*.[1]", ".", [.wildcard, .index 1]⟩
    (∀ l t, d.Reaches l t → ¬ p.Matches l t) ∧ (insert (.bool false)).apply p "." d = .ok d' ∧
      ∃ gs : List Location, gs = (Plan.ofWalk p (fullWalk p d)).grown.map Stub.location ∧
        gs.Pairwise Location.Apart ∧
        (∀ g ∈ gs, ∃ c old new, p.run? p.start g = some c ∧ d.Reaches g old ∧ d'.Reaches g new ∧
          Plan.Grows p (.bool false) c old new) ∧
        (∀ l w, d.Reaches l w → (∀ g ∈ gs, ¬ l <+: g) → d'.Reaches l w) ∧
        ∀ l w, d.Reaches l w → (∃ g ∈ gs, l <+: g ∧ l ≠ g) →
          ∃ w', d'.Reaches l w' ∧ w.SameFrame w' := by
  intro d d' p
  have hd : d.DistinctKeys := by decide +kernel
  have hsome : (fullWalk p d).accepted.isSome = true := by decide +kernel
  have hfound : (fullWalk p d).foundNodes = [] := by decide +kernel
  have hnone : ∀ l t, d.Reaches l t → ¬ p.Matches l t := by
    intro l t hl hm
    have := (mem_foundNodes_fullWalk (by decide) hd hsome).mpr ⟨hl, hm⟩
    rw [hfound] at this
    cases this
  have hinsert : (insert (.bool false)).apply p "." d = .ok d' := by decide +kernel
  exact ⟨hnone, hinsert, insert_only_adds hd (by decide) hnone hinsert⟩

end Verb

end TreeEdit
