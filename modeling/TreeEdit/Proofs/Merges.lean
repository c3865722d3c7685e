import TreeEdit.Edit.Merge
import TreeEdit.Proofs.InsertedEntries
import TreeEdit.Proofs.Nodes

/-!
# A series of merges

Contents are merged into a node one after the other, and one that is refused leaves the node as it
is (`Tree.mergeInto`, `Tree.mergeAll`). Only an empty place can change its kind. Once the node is a
mapping it stays one, and what the accepted contents bring comes to one insertion of all their
entries; once it is a sequence it stays one and grows at its end; once it is a scalar with something
in it, it never changes again.

Tags are looked through in the node, and not in the content: a tagged mapping is refused by a
mapping, and a tagged sequence is one item to a sequence.
-/

namespace TreeEdit.Tree

/-- The node after content was merged into it, or as it was if the content is refused. -/
def mergeInto (t content : Tree) : Tree :=
  match t.merge content with
  | .ok t' => t'
  | .error _ => t

/-- The node after contents were merged into it one after the other. -/
def mergeAll (t : Tree) (contents : List Tree) : Tree := contents.foldl mergeInto t

/-- The contents that are accepted when their turn comes. -/
def accepted : Tree → List Tree → List Tree
  | _, [] => []
  | t, content :: contents =>
    if (t.merge content).isOk then content :: accepted (t.mergeInto content) contents
    else accepted (t.mergeInto content) contents

/-- What a sequence takes content for: the items of an untagged sequence, or one item. -/
def asItems : Tree → List Tree
  | .sequence items => items
  | t => [t]

variable {t : Tree} {es : Entries} {items : List Tree}

/-! ## One merge -/

theorem merge_of_mapping (h : t.untag = .mapping es) (content : Tree) : t.merge content =
    if content.kind = .mapping then .ok (t.retag (.mapping (es.insertAll content.entries)))
    else .error (.refused content.kind .mapping) := by
  have hblank : t.isBlank = false := by rw [isBlank, h]
  unfold merge
  rw [hblank, h]
  cases content <;> rfl

theorem merge_of_sequence (h : t.untag = .sequence items) (content : Tree) :
    t.merge content = .ok (t.retag (.sequence (items ++ content.asItems))) := by
  have hblank : t.isBlank = false := by rw [isBlank, h]
  unfold merge
  rw [hblank, h]
  cases content <;> rfl

theorem merge_of_solid (h : t.isScalar = true) (hblank : t.isBlank = false) (content : Tree) :
    t.merge content = .error (.refused content.kind t.untag.kind) := by
  unfold isScalar at h
  unfold merge
  rw [hblank]
  cases hc : t.untag with
  | sequence items =>
      rw [hc] at h
      cases h
  | mapping es =>
      rw [hc] at h
      cases h
  | null | bool _ | number _ | string _ | tagged _ _ => rfl

/-- A mapping takes mappings, a sequence and an empty place take everything, and no other node takes
anything. -/
theorem merge_isOk_iff (t content : Tree) : (t.merge content).isOk = true ↔
    t.isBlank = true ∨ t.isSequence = true ∨ t.untag.kind = .mapping ∧ content.kind = .mapping := by
  rcases t.untag_cases with ⟨es, hc⟩ | ⟨items, hc⟩ | hc
  · rw [merge_of_mapping hc, isBlank, isSequence, hc]
    by_cases hkind : content.kind = .mapping
    · rw [if_pos hkind]
      exact ⟨fun _ => .inr (.inr ⟨rfl, hkind⟩), fun _ => rfl⟩
    · -- refused, for a mapping is neither blank nor a sequence
      rw [if_neg hkind]
      constructor
      · intro h
        exact absurd h Bool.false_ne_true
      · intro h
        rcases h with h | h | ⟨-, h⟩
        · exact absurd h Bool.false_ne_true
        · exact absurd h Bool.false_ne_true
        · exact absurd h hkind
  · rw [merge_of_sequence hc, isSequence, hc]
    exact ⟨fun _ => .inr (.inl rfl), fun _ => rfl⟩
  · cases hblank : t.isBlank with
    | true => simp [merge, hblank, Except.isOk, Except.toBool]
    | false =>
        rw [merge_of_solid hc hblank, isSequence]
        unfold isScalar at hc
        cases hcore : t.untag with
        | sequence items =>
            rw [hcore] at hc
            cases hc
        | mapping es =>
            rw [hcore] at hc
            cases hc
        | null | bool _ | number _ | string _ | tagged _ _ =>
            simp [kind, Except.isOk, Except.toBool]

/-! ## A series of merges -/

theorem mergeAll_cons (t content : Tree) (contents : List Tree) :
    t.mergeAll (content :: contents) = (t.mergeInto content).mergeAll contents := rfl

theorem accepted_cons (t content : Tree) (contents : List Tree) :
    t.accepted (content :: contents) =
      if (t.merge content).isOk then content :: (t.mergeInto content).accepted contents
      else (t.mergeInto content).accepted contents := rfl

/-- **A mapping takes the entries of all the mappings, as if they came at once.** -/
theorem mergeAll_of_mapping (h : t.untag = .mapping es) (contents : List Tree) :
    t.accepted contents = contents.filter (·.kind = .mapping) ∧
      t.mergeAll contents =
        t.retag (.mapping (es.insertAll ((t.accepted contents).flatMap entries))) := by
  induction contents generalizing t es with
  | nil =>
      refine ⟨rfl, ?_⟩
      rw [accepted, List.flatMap_nil]
      exact (retag_untag t).symm.trans (congrArg t.retag h)
  | cons content contents ih =>
      rw [mergeAll_cons, accepted_cons, mergeInto, merge_of_mapping h]
      by_cases hkind : content.kind = .mapping
      · obtain ⟨haccepted, hall⟩ :=
          ih (untag_retag t (.mapping (es.insertAll content.entries)))
        rw [if_pos hkind, List.filter_cons_of_pos (by simpa using hkind), hall,
          retag_retag _ t rfl, haccepted]
        refine ⟨rfl, ?_⟩
        rw [← Entries.insertAll_append]
        rfl
      · rw [if_neg hkind, List.filter_cons_of_neg (by simpa using hkind)]
        exact ih h

/-- **A sequence takes every content, one after the other.** -/
theorem mergeAll_of_sequence (h : t.untag = .sequence items) (contents : List Tree) :
    t.accepted contents = contents ∧
      t.mergeAll contents = t.retag (.sequence (items ++ contents.flatMap asItems)) := by
  induction contents generalizing t items with
  | nil =>
      refine ⟨rfl, ?_⟩
      rw [List.flatMap_nil, List.append_nil]
      exact (retag_untag t).symm.trans (congrArg t.retag h)
  | cons content contents ih =>
      obtain ⟨haccepted, hall⟩ := ih (untag_retag t (.sequence (items ++ content.asItems)))
      rw [mergeAll_cons, accepted_cons, mergeInto, merge_of_sequence h]
      dsimp only
      rw [haccepted, hall, retag_retag _ t rfl, List.flatMap_cons, List.append_assoc]
      exact ⟨rfl, rfl⟩

/-- **A scalar that is not blank takes nothing.** -/
theorem mergeAll_of_solid (h : t.isScalar = true) (hblank : t.isBlank = false)
    (contents : List Tree) : t.accepted contents = [] ∧ t.mergeAll contents = t := by
  induction contents with
  | nil => exact ⟨rfl, rfl⟩
  | cons content contents ih =>
      rw [mergeAll_cons, accepted_cons, mergeInto, merge_of_solid h hblank]
      exact ih

theorem keys_flatMap_entries (contents : List Tree) :
    Entries.keys (contents.flatMap entries) = contents.flatMap (·.entries.keys) := List.map_flatMap

/-- Of the contents that have a key the last one gives its value. -/
theorem find?_flatMap_entries {contents : List Tree} (hd : ∀ c ∈ contents, c.entries.Distinct)
    (k : Tree) : Entries.find? k (contents.flatMap entries).reverse =
      contents.reverse.findSome? fun c => Entries.find? k c.entries := by
  induction contents with
  | nil => rfl
  | cons c contents ih =>
      obtain ⟨hc, hcontents⟩ := List.forall_mem_cons.mp hd
      rw [List.flatMap_cons, List.reverse_append, Entries.find?_append, ih hcontents,
        hc.find?_reverse, List.reverse_cons, List.findSome?_append]
      exact congrArg _ List.findSome?_singleton.symm

theorem forall_mem_accepted {P : Tree → Prop} {contents : List Tree} (h : ∀ c ∈ contents, P c)
    (t : Tree) : ∀ c ∈ t.accepted contents, P c := by
  induction contents generalizing t with
  | nil =>
      intro c hc
      cases hc
  | cons content contents ih =>
      obtain ⟨hcontent, hcontents⟩ := List.forall_mem_cons.mp h
      rw [accepted_cons]
      split
      · exact List.forall_mem_cons.mpr ⟨hcontent, ih hcontents _⟩
      · exact ih hcontents _

/--
**Merging keeps what is there.** Whatever a node has become by earlier merges, from then on:

* a merge that fails leaves it as it is, and which ones fail is a matter of kinds;
* a mapping keeps its tags and its keys, and behind them come new keys, each where it first appears
  in an accepted content; a key has the value of the last accepted content with that key, and
  without any the value that it had;
* a sequence takes everything at its end;
* a scalar that is not blank takes nothing.
-/
theorem mergeAll_keeps (t : Tree) (before after : List Tree)
    (hd : ∀ c ∈ after, c.entries.Distinct) :
    let u := t.mergeAll before
    let taken := u.accepted after
    t.mergeAll (before ++ after) = u.mergeAll after ∧
    (∀ content, ((u.merge content).isOk = true ↔ u.isBlank = true ∨ u.isSequence = true ∨
        u.untag.kind = .mapping ∧ content.kind = .mapping) ∧
      ((u.merge content).isOk = false → u.mergeInto content = u)) ∧
    (∀ es : Entries, u.untag = .mapping es →
      taken = after.filter (·.kind = .mapping) ∧
      ∃ es' : Entries, u.mergeAll after = u.retag (.mapping es') ∧
        es'.keys = es.keys ++ Entries.firstKeys
          ((taken.flatMap (·.entries.keys)).filter fun k => (Entries.find? k es).isNone) ∧
        ∀ k, Entries.find? k es' =
          (taken.reverse.findSome? fun c => Entries.find? k c.entries).or (Entries.find? k es)) ∧
    (∀ items, u.untag = .sequence items →
      taken = after ∧ u.mergeAll after = u.retag (.sequence (items ++ after.flatMap asItems))) ∧
    (u.isScalar = true → u.isBlank = false → taken = [] ∧ u.mergeAll after = u) := by
  intro u taken
  refine ⟨List.foldl_append .., fun content => ⟨merge_isOk_iff u content, fun hrefused => ?_⟩,
    fun es hes => ?_, fun items hitems => mergeAll_of_sequence hitems after,
    fun hscalar hblank => mergeAll_of_solid hscalar hblank after⟩
  · unfold mergeInto
    cases hmerge : u.merge content with
    | ok t' =>
        rw [hmerge] at hrefused
        cases hrefused
    | error e => rfl
  · obtain ⟨haccepted, hall⟩ := mergeAll_of_mapping hes after
    refine ⟨haccepted, _, hall, ?_, fun k => ?_⟩
    · rw [Entries.keys_insertAll, keys_flatMap_entries]
    · rw [Entries.find?_insertAll, find?_flatMap_entries (forall_mem_accepted hd u)]

/--
An empty place becomes a tagged mapping. After that a text and a tagged mapping are refused, and the
key `b` keeps the place that it got first with the value that it got last.
-/
theorem mergeAll_keeps_mapping :
    let t : Tree := .tagged ⟨"s"⟩ (.string " ")
    let before : List Tree := [.tagged ⟨"t"⟩ (.mapping [(.string "x", .null)])]
    let after : List Tree := [.mapping [(.string "b", .null), (.null, .bool true)], .string "b",
      .mapping [(.string "x", .string "y")], .tagged ⟨"t"⟩ (.mapping [(.string "a", .null)]),
      .mapping [(.sequence [], .null), (.string "b", .bool false)]]
    let u := t.mergeAll before
    (∀ c ∈ after, c.entries.Distinct) ∧ u.untag = .mapping [(.string "x", .null)] ∧
      ∃ es' : Entries, u.mergeAll after = u.retag (.mapping es') ∧
        es'.keys = [.string "x", .string "b", .null, .sequence []] ∧
        Entries.find? (.string "x") es' = some (.string "y") ∧
        Entries.find? (.string "b") es' = some (.bool false) := by
  intro t before after u
  have hd : ∀ c ∈ after, c.entries.Distinct := by decide +kernel
  have hu : u.untag = .mapping [(.string "x", .null)] := by decide +kernel
  obtain ⟨-, -, hmapping, -, -⟩ := mergeAll_keeps t before after hd
  obtain ⟨-, es', hall, hkeys, hvalues⟩ := hmapping _ hu
  refine ⟨hd, hu, es', hall, ?_, ?_, ?_⟩
  · rw [hkeys]
    decide +kernel
  · rw [hvalues]
    decide +kernel
  · rw [hvalues]
    decide +kernel

end TreeEdit.Tree
