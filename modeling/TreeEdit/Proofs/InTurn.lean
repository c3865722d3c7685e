import TreeEdit.Proofs.ReplaceAtMatches

/-!
# Every step of a plan finds its place

A plan is noted on a walk and carried out afterwards, on a document that changes with every step.
The steps check that their place is still there, and report a conflict if it is not. No such
conflict is ever seen (`Verb.not_gone`): when the turn of a step comes,

* a target still leads to a node, so a mapping has the key (`Plan.Present`);
* where structure is built, the first segment left names nothing yet (`Plan.Vacant`).

For the places that are grown this holds because they are open and lie apart. For targets it is
read off the rewrite that serving all of them comes to. A merge may refuse the content and end the
run early, so the rewrite is one of a *lenient* edit, which leaves alone what it cannot change: it
serves all targets, whatever the content, and agrees with the run as far as that goes.
-/

namespace TreeEdit

namespace Plan

variable {p : Pattern} {content : Tree}

/-- The document is `t` when the turn of a step comes. -/
def Turn {α : Type} (p : Pattern) (place : α → Location) (step : Tree → α → Except Conflict Tree)
    (t₀ : Tree) (as : List α) (a : α) (t : Tree) : Prop :=
  ∃ done rest, as = done ++ a :: rest ∧ run p place step t₀ done = .ok t

/-- The conflicts of a step whose place has gone. -/
def Gone : Conflict → Prop
  | .targetGone | .noChildren _ | .placeGone => True
  | .refused _ _ | .cannotCreate _ _ | .openSegment _ => False

/-- The target leads to a node: its parent has the key, or an item at the position. -/
def Present (l : Location) (t : Tree) : Prop :=
  ∃ m s parent, l = m ++ [s] ∧ t.get? m = some parent ∧
    match s with
    | .key k => ∃ es v, parent.untag = .mapping es ∧ Entries.find? k es = some v
    | .index i => ∃ items, parent.untag = .sequence items ∧ i < items.length

/-- The place is there, and the first segment left names nothing in it. -/
def Vacant (p : Pattern) (s : Stub) (t : Tree) : Prop :=
  ∃ node, t.get? s.location = some node ∧
    (∀ text regex tail es, p.remaining s.cursor = .literal text regex :: tail →
      node.untag = .mapping es → Entries.find? (.string text) es = none) ∧
    ∀ n tail items, p.remaining s.cursor = .index n :: tail →
      node.untag = .sequence items → items.length ≤ n

/-! ## Turns -/

section Turns

variable {α : Type} {place : α → Location} {step : Tree → α → Except Conflict Tree}

/-- A run fails when the turn of a step comes that fails. -/
theorem exists_turn_of_run {t₀ : Tree} {as : List α} {error : Conflict.Located}
    (h : run p place step t₀ as = .error error) :
    ∃ a t, Turn p place step t₀ as a t ∧ step t a = .error error.cause := by
  induction as generalizing t₀ with
  | nil => cases h
  | cons a as ih =>
      rw [run] at h
      cases hstep : step t₀ a with
      | error cause =>
          rw [hstep] at h
          cases h
          exact ⟨a, t₀, ⟨[], as, rfl, rfl⟩, hstep⟩
      | ok t₁ =>
          rw [hstep] at h
          obtain ⟨b, t, ⟨done, rest, rfl, hdone⟩, hb⟩ := ih h
          refine ⟨b, t, ⟨a :: done, rest, rfl, ?_⟩, hb⟩
          rw [run, hstep]
          exact hdone

/-- A turn in the second part of a run. -/
theorem Turn.append_left {t₀ t₁ t : Tree} {as bs : List α} {a : α}
    (h : Turn p place step t₁ bs a t) (has : run p place step t₀ as = .ok t₁) :
    Turn p place step t₀ (as ++ bs) a t := by
  obtain ⟨done, rest, rfl, hdone⟩ := h
  refine ⟨as ++ done, rest, (List.append_assoc ..).symm, ?_⟩
  rw [run_append, has]
  exact hdone

end Turns

/-! ## Places that are grown -/

/-- What is at an open place does not answer to the first segment left. -/
theorem Open.vacant {t old : Tree} {s : Stub} (h : Open p t s old) : Vacant p s t := by
  refine ⟨old, h.reaches.get?_eq, fun text regex tail es hrem hc => ?_,
    fun n tail items hrem hc => ?_⟩
  · have hseg := (p.remaining_eq_cons_iff.mp hrem).1
    exact find?_eq_none_of_closed hc fun e he =>
      ((p.step?_eq_none_iff hseg).mp (h.closed e he)).1
  · have hseg := (p.remaining_eq_cons_iff.mp hrem).1
    by_contra hlt
    have hn : n < items.length := by omega
    have hchild : (.index n, items[n]) ∈ old.children := by
      rw [Tree.children_of_untag hc]
      refine Tree.mem_itemSteps.mpr ⟨n, ?_, List.getElem?_eq_getElem hn⟩
      rw [Nat.zero_add]
    have hno := ((p.step?_eq_none_iff hseg).mp (h.closed _ hchild)).1
    simp [Segment.matchesStep, Segment.matchesIndex] at hno

/-- A place to be grown is still open when its turn comes. -/
theorem Turn.exists_open {t₀ t : Tree} {ss : List Stub} {s : Stub}
    (hopen : ∀ s ∈ ss, ∃ old, Open p t₀ s old)
    (hapart : ss.Pairwise fun a b => a.location.Apart b.location)
    (h : Turn p Stub.location (grow p content) t₀ ss s t) : ∃ old, Open p t s old := by
  obtain ⟨done, rest, rfl, hdone⟩ := h
  obtain ⟨hpairs, -, hacross⟩ := List.pairwise_append.mp hapart
  have hgrown : Grown p content done t₀ t :=
    grown_of_run (fun r hr => hopen r (List.mem_append_left _ hr)) hpairs hdone
  obtain ⟨old, hs⟩ := hopen s (List.mem_append_right _ (List.mem_cons_self ..))
  exact ⟨old, hs.of_grown hgrown fun r hr => hacross r hr s (List.mem_cons_self ..)⟩

theorem not_gone_of_merge {t c : Tree} {cause : Conflict} (h : t.merge c = .error cause) :
    ¬ Gone cause := by
  unfold Tree.merge at h
  split at h
  · cases h
  · split at h <;> cases h
    exact id

theorem not_gone_of_chain {segs : List Segment} {cause : Conflict}
    (h : chain content segs = .error cause) : ¬ Gone cause := by
  induction segs with
  | nil => cases h
  | cons seg segs ih =>
      rw [chain] at h
      cases hinner : chain content segs with
      | error e =>
          rw [hinner] at h
          cases h
          exact ih hinner
      | ok inner =>
          rw [hinner] at h
          cases seg <;> cases h <;> exact id

theorem not_gone_of_attach {node inner : Tree} {head : Segment} {cause : Conflict}
    (h : attach node head inner = .error cause) : ¬ Gone cause := by
  unfold attach at h
  split at h
  · split at h <;> cases h <;> exact id
  · split at h
    · split at h
      · rename_i existing _
        cases hmerge : existing.merge inner with
        | ok v => rw [hmerge] at h; cases h
        | error e =>
            rw [hmerge] at h
            cases h
            exact not_gone_of_merge hmerge
      · cases h
    · split at h <;> cases h
      exact id
    · cases h
      exact id
    · cases h
      exact id
    · cases h
      exact id

/-- Growth at a place that is there does not report it as gone. -/
theorem not_gone_of_grow {t : Tree} {s : Stub} {cause : Conflict} (hs : Vacant p s t)
    (h : grow p content t s = .error cause) : ¬ Gone cause := by
  obtain ⟨node, hnode, -⟩ := hs
  unfold grow at h
  split at h
  · cases h
  · rename_i head tail _
    cases hchain : chain content tail with
    | error e =>
        rw [hchain] at h
        cases h
        exact not_gone_of_chain hchain
    | ok inner =>
        rw [hchain] at h
        simp only [bind, Except.bind, hnode] at h
        cases hattach : attach node head inner with
        | error e =>
            rw [hattach] at h
            cases h
            exact not_gone_of_attach hattach
        | ok node' =>
            rw [hattach] at h
            -- what was found can be replaced
            have hset : (t.set? s.location node').isSome = true := by
              rw [Tree.isSome_set?, hnode]
              rfl
            obtain ⟨t', ht'⟩ := Option.isSome_iff_exists.mp hset
            simp only [ht'] at h
            cases h

end Plan

/-! ## Edits that leave alone what they cannot change -/

namespace Edit

variable {ed : Edit}

/-- The edit that keeps a match where the other would fail. -/
def lenient (ed : Edit) : Edit :=
  { ed with matched := fun s u => some ((ed.matched s u).getD [u]) }

/-- A change that keeps the document where the other would fail, at a location that is there. -/
def tried (f : Tree → Location → Option Tree) (t : Tree) (l : Location) : Option Tree :=
  (t.get? l).map fun _ => (f t l).getD t

theorem Serves.lenient {f : Tree → Location → Option Tree} (h : ed.Serves f) :
    ed.lenient.Serves (tried f) where
  inside {t u s l} hs hl := by
    rw [tried, tried, hs.get?_cons, h.inside hs hl]
    cases u.get? l with
    | none => rfl
    | some _ =>
        cases f u l with
        -- below the child nothing is changed, so the child is put back as it was
        | none => exact congrArg some hs.setChild_self.symm
        | some _ => rfl
  here {s put} u hslot := by
    have hget : (put [u]).get? [s] = some u := by
      rw [(hslot.leads u).get?_cons]
      rfl
    rw [tried, hget, h.here u hslot]
    cases hmatched : ed.matched s u <;> simp [Edit.lenient, hmatched]

/-- Where a run got through, it tried every change, and where it could go on there is a node. -/
theorem isSome_get?_of_tried {f : Tree → Location → Option Tree} {done rest : List Location}
    {l : Location} {t₀ t t' : Tree} (h : (done ++ l :: rest).foldlM (tried f) t₀ = some t')
    (hdone : done.foldlM f t₀ = some t) : (t.get? l).isSome = true := by
  induction done generalizing t₀ with
  | nil =>
      obtain rfl := Option.some.inj hdone
      obtain ⟨u, hu, -⟩ := Option.bind_eq_some_iff.mp h
      obtain ⟨v, hv, -⟩ := Option.map_eq_some_iff.mp hu
      exact Option.isSome_iff_exists.mpr ⟨v, hv⟩
  | cons m done ih =>
      obtain ⟨u, hu, hrest⟩ := Option.bind_eq_some_iff.mp h
      obtain ⟨w, hw, hdone⟩ := Option.bind_eq_some_iff.mp hdone
      obtain ⟨_, -, rfl⟩ := Option.map_eq_some_iff.mp hu
      -- the first change succeeds, so trying it makes it
      rw [hw, Option.getD_some] at hrest
      exact ih hrest hdone

end Edit

namespace Pattern

variable {p : Pattern} {ed : Edit}

/-- A lenient edit fails only where overrun sequences cannot be extended. -/
theorem isSome_rewrite_lenient {c : Cursor} {t t₀ : Tree}
    (h : p.rewrite ed.extending c t = some t₀) : (p.rewrite ed.lenient c t).isSome = true := by
  rw [Option.isSome_iff_ne_none]
  intro hnone
  obtain ⟨v, hv, ⟨s, -, -, hmatched⟩ | hoverrun⟩ := (p.rewrite_eq_none_iff ed.lenient c t).mp hnone
  · cases hmatched
  · -- both edits extend in the same way
    have := (p.rewrite_eq_none_iff ed.extending c t).mpr ⟨v, hv, .inr hoverrun⟩
    rw [h] at this
    cases this

/-- **A match leads to a node when its turn to be served comes**, also if a later one fails. -/
theorem isSome_get?_of_serve {f : Tree → Location → Option Tree} (hf : ed.Serves f) {d t₀ t : Tree}
    (hd : d.DistinctKeys) {c : Cursor} (hext : p.rewrite ed.extending c d = some t₀)
    {done rest : List Location} {l : Location} (h : (p.targets c d).reverse = done ++ l :: rest)
    (hdone : done.foldlM f t₀ = some t) : (t.get? l).isSome = true := by
  have hserve := serve_eq_rewrite (p := p) hf.lenient hd c
  rw [show ed.lenient.extending = ed.extending from rfl, hext, Option.bind_some, h] at hserve
  obtain ⟨t', ht'⟩ := Option.isSome_iff_exists.mp (isSome_rewrite_lenient hext)
  exact Edit.isSome_get?_of_tried (hserve.trans ht') hdone

end Pattern

namespace Plan

variable {p : Pattern} {content : Tree}

/-! ## Targets -/

theorem present_of_get? {l : Location} {t : Tree} (hl : l ≠ []) (h : (t.get? l).isSome = true) :
    Present l t := by
  obtain ⟨m, s, rfl⟩ : ∃ m s, l = m ++ [s] :=
    ⟨_, _, (List.dropLast_append_getLast hl).symm⟩
  obtain ⟨v, hv⟩ := Option.isSome_iff_exists.mp h
  rw [Tree.get?_append] at hv
  obtain ⟨parent, hparent, hv⟩ := Option.bind_eq_some_iff.mp hv
  obtain ⟨u, hu, -⟩ := Option.bind_eq_some_iff.mp hv
  refine ⟨m, s, parent, rfl, hparent, ?_⟩
  unfold Tree.child? at hu
  split at hu
  · rename_i es k hc _
    exact ⟨es, u, hc, hu⟩
  · rename_i items i hc _
    exact ⟨items, hc, (List.getElem?_eq_some_iff.mp hu).1⟩
  · cases hu

/-- An update of a target that is there fails only with a merge. -/
theorem not_gone_of_update {mode : Mode} {t : Tree} {l : Location} {cause : Conflict}
    (hl : Present l t) (h : update mode content t l = .error cause) : ¬ Gone cause := by
  obtain ⟨m, s, parent, rfl, hparent, hs⟩ := hl
  have hset : ∀ v, ∃ t', t.set? m v = some t' := by
    intro v
    rw [← Option.isSome_iff_exists, Tree.isSome_set?, hparent]
    rfl
  have hupdate : updateChild mode content parent s = .error cause := by
    simp only [update, List.getLast?_concat, List.dropLast_concat, hparent] at h
    cases hchild : updateChild mode content parent s with
    | error e =>
        rw [hchild] at h
        exact h
    | ok v =>
        rw [hchild] at h
        obtain ⟨t', ht'⟩ := hset v
        simp only [bind, Except.bind, ht'] at h
        cases h
  cases s with
  | key k =>
      obtain ⟨es, v, hc, hv⟩ := hs
      cases mode with
      | insert =>
          simp only [updateChild, hc, hv] at hupdate
          cases hmerge : v.merge content with
          | ok w =>
              rw [hmerge] at hupdate
              cases hupdate
          | error e =>
              rw [hmerge] at hupdate
              cases hupdate
              exact not_gone_of_merge hmerge
      | replace =>
          simp only [updateChild, hc, hv] at hupdate
          cases hupdate
  | index i =>
      obtain ⟨items, hc, hi⟩ := hs
      cases mode with
      | insert =>
          simp only [updateChild, hc, Nat.le_of_lt hi, if_true] at hupdate
          cases hupdate
      | replace =>
          simp only [updateChild, hc, hi, if_true] at hupdate
          cases hupdate

theorem foldlM_of_run {α : Type} {place : α → Location}
    {step : Tree → α → Except Conflict Tree} {t t' : Tree} {as : List α}
    (h : run p place step t as = .ok t') :
    as.foldlM (fun t a => (step t a).toOption) t = some t' := by
  rw [← toOption_run place, h]
  rfl

/-- A target is there when its turn comes. -/
theorem Turn.present {ed : Edit} {mode : Mode}
    (hserves : ed.Serves fun t l => (update mode content t l).toOption) {d t₀ t : Tree}
    (hd : d.DistinctKeys) (hext : p.rewrite ed.extending p.start d = some t₀) {l : Location}
    (h : Turn p id (update mode content) t₀ (p.targets p.start d).reverse l t) :
    Present l t := by
  obtain ⟨done, rest, hsplit, hdone⟩ := h
  have hl : l ∈ p.targets p.start d := by
    rw [← List.mem_reverse, hsplit]
    simp
  exact present_of_get? (Pattern.ne_nil_of_mem_targets hl)
    (Pattern.isSome_get?_of_serve hserves hd hext hsplit (foldlM_of_run hdone))

/-! ## Plans of walks -/

/-- **Every step of the plan finds its place when its turn comes.** -/
structure InTurn (plan : Plan) (content d : Tree) : Prop where
  /-- a sequence that was overrun -/
  extended : ∀ s t,
    Turn plan.pattern Stub.location (grow plan.pattern content) d plan.extended s t →
      Vacant plan.pattern s t
  /-- a target of an insertion -/
  inserted : ∀ t₀, plan.runExtensions content d = .ok t₀ → ∀ l t,
    Turn plan.pattern id (update .insert content) t₀ plan.targets.reverse l t → Present l t
  /-- a place for missing structure -/
  grown : plan.targets = [] → ∀ t₀, plan.runExtensions content d = .ok t₀ → ∀ s t,
    Turn plan.pattern Stub.location (grow plan.pattern content) t₀ plan.growths s t →
      Vacant plan.pattern s t
  /-- a target of a replacement -/
  replaced : ∀ l t, Turn plan.pattern id (update .replace content) d plan.targets.reverse l t →
    Present l t

/-- The plan of a walk that went through is carried out in turn. -/
theorem inTurn_ofWalk {d : Tree} (hd : d.DistinctKeys) (hp : p.isRoot = false)
    (h : (Verb.fullWalk p d).accepted.isSome = true) (content : Tree) :
    (ofWalk p (Verb.fullWalk p d)).InTurn content d where
  extended s t hturn := by
    obtain ⟨old, hs⟩ := hturn.exists_open (fun r hr => open_of_mem_extended hd hp h hr)
      (extended_apart hd hp h)
    exact hs.vacant
  inserted t₀ hext l t hturn := by
    rw [targets_ofWalk hp h] at hturn
    have hextending : p.rewrite (Edit.insertion content).extending p.start d = some t₀ := by
      rw [← Pattern.extend_eq_rewrite extends_grow hd p.start, ← extended_ofWalk hd hp h]
      exact foldlM_of_run hext
    exact hturn.present serves_update hd hextending
  grown htargets t₀ hext s t hturn := by
    have hfound : (Verb.fullWalk p d).foundNodes = [] := List.map_eq_nil_iff.mp htargets
    obtain ⟨old, hs⟩ := Turn.exists_open (fun r hr => open_of_mem_grown hd hp h hfound hr)
      (grown_apart hd hp h hfound) (hturn.append_left hext)
    exact hs.vacant
  replaced l t hturn := by
    rw [targets_ofWalk hp h] at hturn
    exact hturn.present serves_replacement hd (Pattern.rewrite_extending_fixed ..)

/-- A plan whose steps find their places does not report one as gone. -/
theorem InTurn.not_gone_of_insert {plan : Plan} {d : Tree} (hplan : plan.InTurn content d)
    {error : Conflict.Located} (h : plan.insert content d = .error error) :
    ¬ Gone error.cause := by
  unfold Plan.insert at h
  cases hext : plan.runExtensions content d with
  | error e =>
      rw [hext] at h
      cases h
      obtain ⟨s, t, hturn, hfail⟩ := exists_turn_of_run hext
      exact not_gone_of_grow (hplan.extended s t hturn) hfail
  | ok t₀ =>
      rw [hext] at h
      simp only [bind, Except.bind] at h
      cases htargets : plan.runTargets .insert content t₀ with
      | error e =>
          rw [htargets] at h
          cases h
          obtain ⟨l, t, hturn, hfail⟩ := exists_turn_of_run htargets
          exact not_gone_of_update (hplan.inserted t₀ hext l t hturn) hfail
      | ok t₁ =>
          rw [htargets] at h
          simp only at h
          split at h
          · rename_i hnone
            have hnil : plan.targets = [] := List.isEmpty_iff.mp hnone
            obtain rfl : t₀ = t₁ := by
              rw [runTargets, hnil] at htargets
              exact Except.ok.inj htargets
            obtain ⟨s, t, hturn, hfail⟩ := exists_turn_of_run h
            exact not_gone_of_grow (hplan.grown hnil t₀ hext s t hturn) hfail
          · cases h

theorem InTurn.not_gone_of_replace {plan : Plan} {d : Tree} (hplan : plan.InTurn content d)
    {error : Conflict.Located} (h : plan.replace content d = .error error) :
    ¬ Gone error.cause := by
  obtain ⟨l, t, hturn, hfail⟩ := exists_turn_of_run h
  exact not_gone_of_update (hplan.replaced l t hturn) hfail

end Plan

namespace Verb

variable {p : Pattern} {content : Tree}

/-- The place of a conflict is told by its label, the cause is that of the step. -/
theorem ofLocated_eq_conflict_iff {r : Except Conflict.Located Tree} {location : String}
    {cause : Conflict} :
    ofLocated r = .error (.conflict location cause) ↔ r = .error ⟨location, cause⟩ := by
  cases r with
  | ok t => simp [ofLocated]
  | error e =>
      obtain ⟨place, reason⟩ := e
      simp [ofLocated]

/-- A replacement is its plan, carried out, or fails with the walk. -/
theorem replace_eq (hp : p.isRoot = false) (listDelimiter : String) (d : Tree) :
    (replace content).apply p listDelimiter d =
      if (fullWalk p d).accepted.isSome then
        ofLocated ((Plan.ofWalk p (fullWalk p d)).replace content d)
      else .error (.nestedSequences p.raw) := by
  cases h : (fullWalk p d).accepted.isSome with
  | true => simp [apply, checkWalk, h, hp, bind, Except.bind]
  | false => simp [apply, checkWalk, h, bind, Except.bind]

/--
**No step of an insertion or a replacement finds its place gone.** When the turn of a target comes
it leads to a node, so a mapping has its key. Where structure is built for a key the mapping there
does not have it, and where it is built for a position the sequence there is not longer than that.
-/
theorem not_gone {d : Tree} (hd : d.DistinctKeys) (p : Pattern) (content : Tree)
    (listDelimiter : String) :
    (∀ location cause,
      (insert content).apply p listDelimiter d = .error (.conflict location cause) →
        ¬ Plan.Gone cause) ∧
    (∀ location cause,
      (replace content).apply p listDelimiter d = .error (.conflict location cause) →
        ¬ Plan.Gone cause) ∧
    (p.isRoot = false → (fullWalk p d).accepted.isSome = true →
      (Plan.ofWalk p (fullWalk p d)).InTurn content d) := by
  cases hp : p.isRoot with
  | true =>
      have hwalk : (fullWalk p d).accepted.isSome = true := by simp [fullWalk, Pattern.walk, hp]
      refine ⟨fun location cause h => ?_, fun location cause h => ?_, fun hroot => ?_⟩
      · simp only [apply, checkWalk, hwalk, hp, if_true, bind, Except.bind] at h
        cases hmerge : d.merge content with
        | ok t =>
            rw [hmerge] at h
            cases h
        | error e =>
            rw [hmerge] at h
            cases h
            exact Plan.not_gone_of_merge hmerge
      · simp only [apply, checkWalk, hwalk, hp, if_true, bind, Except.bind] at h
        cases h
      · cases hroot
  | false =>
      have hplan : (fullWalk p d).accepted.isSome = true →
          (Plan.ofWalk p (fullWalk p d)).InTurn content d :=
        fun hwalk => Plan.inTurn_ofWalk hd hp hwalk content
      refine ⟨fun location cause h => ?_, fun location cause h => ?_, fun _ => hplan⟩
      · rw [insert_eq hp] at h
        split at h
        · rename_i hwalk
          exact (hplan hwalk).not_gone_of_insert (ofLocated_eq_conflict_iff.mp h)
        · cases h
      · rw [replace_eq hp] at h
        split at h
        · rename_i hwalk
          exact (hplan hwalk).not_gone_of_replace (ofLocated_eq_conflict_iff.mp h)
        · cases h

/-- The last target takes the content, the first refuses it and is there all the same. -/
theorem not_gone_refused :
    let d : Tree := .mapping
      [(.string "a", .mapping [(.string "b", .bool true), (.string "c", .null)])]
    let d₁ : Tree := .mapping
      [(.string "a", .mapping [(.string "b", .bool true), (.string "c", .bool false)])]
    let p : Pattern := ⟨"*.*", ".", [.wildcard, .wildcard]⟩
    let cause := Conflict.refused .bool .bool
    d.DistinctKeys ∧ (insert (.bool false)).apply p "." d = .error (.conflict "a.b" cause) ∧
      ¬ Plan.Gone cause ∧ Plan.Present [.key (.string "a"), .key (.string "b")] d₁ := by
  intro d d₁ p cause
  have hd : d.DistinctKeys := by decide +kernel
  have hwalk : (fullWalk p d).accepted.isSome = true := by decide +kernel
  have hinsert : (insert (.bool false)).apply p "." d = .error (.conflict "a.b" cause) := by
    decide +kernel
  have hgone := not_gone hd p (.bool false) "."
  have hplan := hgone.2.2 (by decide) hwalk
  have hturn : Plan.Turn p id (Plan.update .insert (.bool false)) d
      (Plan.ofWalk p (fullWalk p d)).targets.reverse
      [.key (.string "a"), .key (.string "b")] d₁ :=
    ⟨[[.key (.string "a"), .key (.string "c")]], [], by decide +kernel, by decide +kernel⟩
  exact ⟨hd, hinsert, hgone.1 _ _ hinsert, hplan.inserted d (by decide +kernel) _ _ hturn⟩

end Verb

end TreeEdit
