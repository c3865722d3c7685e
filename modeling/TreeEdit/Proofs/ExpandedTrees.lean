import TreeEdit.Proofs.InsertedEntries
import TreeEdit.Proofs.MacroPieces
import TreeEdit.Proofs.PlainDocuments

/-!
# Documents with their macros replaced

Macros are replaced in the strings of a document and in its tags, keys included. `Tree.texts` lists
those texts in the order in which they are come to, a tag before what it stands at and a key before
its value. Expansion fails exactly where the first of them does, and a document in whose texts no
macro is written stays as it is.

`Macro.Expands` says what a document with its macros replaced should be: item for item and entry for
entry, but for tags of which nothing is left. That is what comes out exactly if no two keys of one
mapping come to be the same. Where two do, the entries are put into the new mapping one after the
other, and the later one takes the value of the earlier.
-/

namespace TreeEdit

/-- The texts of a document in which macros are replaced. -/
def Tree.texts : Tree → List String
  | .string s => [s]
  | .sequence items => textsOfItems items
  | .mapping entries => textsOfEntries entries
  | .tagged tag value => tag.text :: value.texts
  | .null | .bool _ | .number _ => []
where
  /-- The texts in the items of a sequence. -/
  textsOfItems : List Tree → List String
    | [] => []
    | x :: xs => x.texts ++ textsOfItems xs
  /-- The texts in the entries of a mapping. -/
  textsOfEntries : List (Tree × Tree) → List String
    | [] => []
    | (k, v) :: es => k.texts ++ v.texts ++ textsOfEntries es

namespace Macro

variable {scope : Scope}

/-! ## Where expansion fails -/

/-- The first failure of a list of texts. -/
def firstFault? (scope : Scope) (texts : List String) : Option Error :=
  texts.findSome? fun s => fault? (expand scope s)

theorem firstFault?_append (texts texts' : List String) :
    firstFault? scope (texts ++ texts') =
      (firstFault? scope texts).or (firstFault? scope texts') :=
  List.findSome?_append

mutual

theorem fault?_expandTree : ∀ t : Tree, fault? (expandTree scope t) = firstFault? scope t.texts
  | .null | .bool _ | .number _ => rfl
  | .string s => by
      rw [expandTree, fault?_bind_pure, Tree.texts, firstFault?, List.findSome?_cons]
      cases fault? (expand scope s) <;> rfl
  | .sequence items => by
      rw [expandTree, fault?_bind_pure, fault?_expandItems items, Tree.texts]
  | .mapping entries => by
      rw [expandTree, fault?_bind_pure (fun es => Tree.mapping (Entries.ofList es)),
        fault?_expandEntries entries, Tree.texts]
  | .tagged tag value => by
      have hvalue (text : String) :
          fault? (do
            let value ← expandTree scope value
            if text.toList.all (· = '!') then return value
            else return .tagged (.ofText text) value) = fault? (expandTree scope value) := by
        cases expandTree scope value with
        | error e => rfl
        | ok value => by_cases htext : text.toList.all (· = '!') = true <;> simp [htext, fault?]
      rw [expandTree, fault?_bind hvalue, fault?_expandTree value, Tree.texts, firstFault?,
        firstFault?, List.findSome?_cons]
      cases fault? (expand scope tag.text) <;> rfl

theorem fault?_expandItems : ∀ xs : List Tree,
    fault? (expandItems scope xs) = firstFault? scope (Tree.texts.textsOfItems xs)
  | [] => rfl
  | x :: xs => by
      rw [expandItems, fault?_bind (fun y => fault?_bind_pure (y :: ·) (expandItems scope xs)),
        fault?_expandTree x, fault?_expandItems xs, ← firstFault?_append, Tree.texts.textsOfItems]

theorem fault?_expandEntries : ∀ es : List (Tree × Tree),
    fault? (expandEntries scope es) = firstFault? scope (Tree.texts.textsOfEntries es)
  | [] => rfl
  | (k, v) :: es => by
      have hrest (l w : Tree) := fault?_bind_pure ((l, w) :: ·) (expandEntries scope es)
      rw [expandEntries, fault?_bind fun l => fault?_bind fun w => hrest l w, fault?_expandTree k,
        fault?_expandTree v, fault?_expandEntries es, ← firstFault?_append, ← firstFault?_append,
        ← List.append_assoc, Tree.texts.textsOfEntries]

end

/-- A document fails at the first of its texts that does. -/
theorem expandTree_eq_error_iff {t : Tree} {e : Error} :
    expandTree scope t = .error e ↔
      ∃ before s after, t.texts = before ++ s :: after ∧
        (∀ u ∈ before, ∃ v, expand scope u = .ok v) ∧ expand scope s = .error e := by
  rw [← fault?_eq_some_iff, fault?_expandTree, firstFault?, List.findSome?_eq_some_iff]
  simp only [fault?_eq_some_iff, fault?_eq_none_iff, and_comm]

/-! ## Documents without macros -/

/-- The text of a tag names the tag again. -/
theorem ofText_text {tag : Tag} (h : tag.name ≠ "") : Tag.ofText tag.text = tag := by
  obtain ⟨c, rest, hname⟩ := List.exists_cons_of_ne_nil (mt String.toList_eq_nil_iff.mp h)
  have htext : tag.text.toList = '!' :: c :: rest := by
    rw [Tag.text, String.toList_append, hname]
    rfl
  rw [Tag.ofText, htext]
  exact congrArg Tag.mk (by rw [← hname, String.ofList_toList])

/-- A tag with a proper name is none of which nothing is left. -/
theorem all_text_eq_false {tag : Tag} (h : ∃ c ∈ tag.name.toList, c ≠ '!') :
    tag.text.toList.all (· = '!') = false := by
  obtain ⟨c, hc, hne⟩ := h
  rw [← Bool.not_eq_true, List.all_eq_true]
  intro hall
  have hmem : c ∈ tag.text.toList := by
    rw [Tag.text, String.toList_append]
    exact List.mem_append_right _ hc
  exact hne (by simpa using hall c hmem)

mutual

theorem expandTree_of_not_holds : ∀ {t : Tree}, (∀ es ∈ t.mappings, es.Distinct) →
    (∀ s ∈ t.texts, ¬ Holds s.toList) →
    (∀ tag ∈ t.tags, ∃ c ∈ tag.name.toList, c ≠ '!') → expandTree scope t = .ok t
  | .null, _, _, _ | .bool _, _, _, _ | .number _, _, _, _ => rfl
  | .string s, _, htexts, _ => by
      rw [expandTree, expand_of_not_holds (htexts s (List.mem_singleton_self s))]
      rfl
  | .sequence items, hdistinct, htexts, htags => by
      rw [expandTree, expandItems_of_not_holds hdistinct htexts htags]
      rfl
  | .mapping entries, hdistinct, htexts, htags => by
      obtain ⟨hentries, hbelow⟩ := List.forall_mem_cons.mp hdistinct
      rw [expandTree, expandEntries_of_not_holds hbelow htexts htags]
      exact congrArg (fun es => Except.ok (Tree.mapping es)) (Entries.ofList_of_distinct hentries)
  | .tagged tag value, hdistinct, htexts, htags => by
      obtain ⟨htext, hvalue⟩ := List.forall_mem_cons.mp htexts
      obtain ⟨htag, htags⟩ := List.forall_mem_cons.mp htags
      have hname : tag.name ≠ "" := by
        intro hempty
        obtain ⟨c, hc, -⟩ := htag
        rw [hempty] at hc
        cases hc
      have hexpand : expandTree scope value = .ok value :=
        expandTree_of_not_holds hdistinct hvalue htags
      rw [expandTree, expand_of_not_holds htext, hexpand]
      simp only [bind, Except.bind, all_text_eq_false htag, ofText_text hname]
      rfl

theorem expandItems_of_not_holds : ∀ {xs : List Tree},
    (∀ es ∈ Tree.mappings.mappingsOfItems xs, es.Distinct) →
    (∀ s ∈ Tree.texts.textsOfItems xs, ¬ Holds s.toList) →
    (∀ tag ∈ Tree.tags.ofItems xs, ∃ c ∈ tag.name.toList, c ≠ '!') →
    expandItems scope xs = .ok xs
  | [], _, _, _ => rfl
  | x :: xs, hdistinct, htexts, htags => by
      obtain ⟨hx, hxs⟩ := List.forall_mem_append.mp hdistinct
      obtain ⟨hx', hxs'⟩ := List.forall_mem_append.mp htexts
      obtain ⟨hx'', hxs''⟩ := List.forall_mem_append.mp htags
      rw [expandItems, expandTree_of_not_holds hx hx' hx'', expandItems_of_not_holds hxs hxs' hxs'']
      rfl

theorem expandEntries_of_not_holds : ∀ {es : List (Tree × Tree)},
    (∀ es' ∈ Tree.mappings.mappingsOfEntries es, es'.Distinct) →
    (∀ s ∈ Tree.texts.textsOfEntries es, ¬ Holds s.toList) →
    (∀ tag ∈ Tree.tags.ofEntries es, ∃ c ∈ tag.name.toList, c ≠ '!') →
    expandEntries scope es = .ok es
  | [], _, _, _ => rfl
  | (k, v) :: es, hdistinct, htexts, htags => by
      obtain ⟨hkv, hes⟩ := List.forall_mem_append.mp hdistinct
      obtain ⟨hk, hv⟩ := List.forall_mem_append.mp hkv
      obtain ⟨hkv', hes'⟩ := List.forall_mem_append.mp htexts
      obtain ⟨hk', hv'⟩ := List.forall_mem_append.mp hkv'
      obtain ⟨hkv'', hes''⟩ := List.forall_mem_append.mp htags
      obtain ⟨hk'', hv''⟩ := List.forall_mem_append.mp hkv''
      rw [expandEntries, expandTree_of_not_holds hk hk' hk'', expandTree_of_not_holds hv hv' hv'',
        expandEntries_of_not_holds hes hes' hes'']
      rfl

end

/--
**Expansion of a document fails at the first of its texts that fails, and changes nothing where no
macro is written.** The mappings of a document have distinct keys; a tag without a proper name is
dropped in any case (`tags` lists all tags).
-/
theorem expandTree_of_texts (scope : Scope) (t : Tree) :
    (∀ e, expandTree scope t = .error e ↔
      ∃ before s after, t.texts = before ++ s :: after ∧
        (∀ u ∈ before, ∃ v, expand scope u = .ok v) ∧ expand scope s = .error e) ∧
    ((∀ es ∈ t.mappings, es.Distinct) → (∀ s ∈ t.texts, ¬ Holds s.toList) →
      (∀ tag ∈ t.tags, ∃ c ∈ tag.name.toList, c ≠ '!') → expandTree scope t = .ok t) :=
  ⟨fun _ => expandTree_eq_error_iff, expandTree_of_not_holds⟩

/-- What is no macro stays, in tags and in keys of every kind. -/
theorem expandTree_of_texts_unfinished :
    let t : Tree := .tagged ⟨"!a$\x7b?b::\x7d"⟩ (.mapping
      [(.mapping [(.string "$\x7ba:b\x7d", .number (.double .nan))], .string "$$\x7b::c\x7d"),
        (.null, .sequence [.tagged ⟨"d!"⟩ (.string "\x7d$\x7bd::")])])
    (∀ es ∈ t.mappings, es.Distinct) ∧ (∀ s ∈ t.texts, ¬ Holds s.toList) ∧
      (∀ tag ∈ t.tags, ∃ c ∈ tag.name.toList, c ≠ '!') ∧
      ∀ scope, expandTree scope t = .ok t := by
  intro t
  have hdistinct : ∀ es ∈ t.mappings, es.Distinct := by decide +kernel
  have htexts : ∀ s ∈ t.texts, ¬ Holds s.toList := by decide +kernel
  have hnames : (t.tags.all fun tag => tag.name.toList.any (· ≠ '!')) = true := by decide
  have htags : ∀ tag ∈ t.tags, ∃ c ∈ tag.name.toList, c ≠ '!' := fun tag htag => by
    simpa using List.all_eq_true.mp hnames tag htag
  exact ⟨hdistinct, htexts, htags, fun scope =>
    (expandTree_of_texts scope t).2 hdistinct htexts htags⟩

end Macro

/-- Entries come out as many as they went in only if their keys are distinct. -/
theorem Entries.distinct_of_length {pairs : Entries}
    (h : (ofList pairs).length = pairs.length) : pairs.Distinct ∧ ofList pairs = pairs := by
  have hpairs : ofList pairs = pairs := insertAll_eq_append (by simpa [ofList] using h)
  exact ⟨hpairs ▸ distinct_ofList pairs, hpairs⟩

namespace Macro

/-! ## Item for item and entry for entry -/

mutual

/-- The second document is the first with its macros replaced, and nothing of it is lost. -/
inductive Expands (scope : Scope) : Tree → Tree → Prop where
  | null : Expands scope .null .null
  | bool {b : Bool} : Expands scope (.bool b) (.bool b)
  | number {n : Number} : Expands scope (.number n) (.number n)
  | string {s s' : String} : expand scope s = .ok s' → Expands scope (.string s) (.string s')
  | sequence {xs ys : List Tree} :
      ExpandsItems scope xs ys → Expands scope (.sequence xs) (.sequence ys)
  | mapping {es fs : Entries} :
      ExpandsEntries scope es fs → Expands scope (.mapping es) (.mapping fs)
  | tagged {tag : Tag} {text : String} {v w : Tree} :
      expand scope tag.text = .ok text → text.toList.all (· = '!') = false → Expands scope v w →
      Expands scope (.tagged tag v) (.tagged (.ofText text) w)
  /-- a tag of which nothing is left is dropped -/
  | untagged {tag : Tag} {text : String} {v w : Tree} :
      expand scope tag.text = .ok text → text.toList.all (· = '!') = true → Expands scope v w →
      Expands scope (.tagged tag v) w

/-- The items are those of a sequence with its macros replaced. -/
inductive ExpandsItems (scope : Scope) : List Tree → List Tree → Prop where
  | nil : ExpandsItems scope [] []
  | cons {x y : Tree} {xs ys : List Tree} :
      Expands scope x y → ExpandsItems scope xs ys → ExpandsItems scope (x :: xs) (y :: ys)

/-- The entries are those of a mapping with its macros replaced. -/
inductive ExpandsEntries (scope : Scope) : List (Tree × Tree) → List (Tree × Tree) → Prop where
  | nil : ExpandsEntries scope [] []
  | cons {k l v w : Tree} {es fs : List (Tree × Tree)} :
      Expands scope k l → Expands scope v w → ExpandsEntries scope es fs →
      ExpandsEntries scope ((k, v) :: es) ((l, w) :: fs)

end

variable {scope : Scope}

theorem expands_mapping_iff {es fs : Entries} :
    Expands scope (.mapping es) (.mapping fs) ↔ ExpandsEntries scope es fs :=
  ⟨fun h => by cases h with | mapping hentries => exact hentries, .mapping⟩

/-- What becomes of a tagged node: its tag stays if something is left of it. -/
theorem expands_tagged_iff {tag : Tag} {text : String} (htext : expand scope tag.text = .ok text)
    {v t' : Tree} :
    Expands scope (.tagged tag v) t' ↔
      ∃ w, Expands scope v w ∧
        t' = if text.toList.all (· = '!') then w else .tagged (.ofText text) w := by
  constructor
  · intro h
    cases h with
    | tagged htext' hall hv =>
        cases htext.symm.trans htext'
        exact ⟨_, hv, by rw [hall, if_neg Bool.false_ne_true]⟩
    | untagged htext' hall hv =>
        cases htext.symm.trans htext'
        exact ⟨_, hv, by rw [hall, if_pos rfl]⟩
  · rintro ⟨w, hv, rfl⟩
    split
    · exact .untagged htext ‹_› hv
    · exact .tagged htext (Bool.eq_false_iff.mpr ‹_›) hv

theorem ExpandsEntries.length_eq {es fs : Entries} (h : ExpandsEntries scope es fs) :
    fs.length = es.length := by
  induction es generalizing fs with
  | nil => cases h; rfl
  | cons e es ih =>
      cases h with
      | cons _ _ hes => exact congrArg (· + 1) (ih hes)

/-- No two keys of the entries come to be the same. -/
def KeysApart (scope : Scope) (es : Entries) : Prop :=
  es.Pairwise fun a b => ∀ k l, expandTree scope a.1 = .ok k → expandTree scope b.1 = .ok l →
    ¬ k.Same l

theorem expandItems_cons_ok {x : Tree} {xs zs : List Tree}
    (h : expandItems scope (x :: xs) = .ok zs) :
    ∃ y ys, expandTree scope x = .ok y ∧ expandItems scope xs = .ok ys ∧ zs = y :: ys := by
  rw [expandItems] at h
  obtain ⟨y, hy, h⟩ := bind_eq_ok_iff.mp h
  obtain ⟨ys, hys, h⟩ := bind_eq_ok_iff.mp h
  exact ⟨y, ys, hy, hys, (Except.ok.inj h).symm⟩

theorem expandEntries_cons_ok {k v : Tree} {es gs : List (Tree × Tree)}
    (h : expandEntries scope ((k, v) :: es) = .ok gs) :
    ∃ l w fs, expandTree scope k = .ok l ∧ expandTree scope v = .ok w ∧
      expandEntries scope es = .ok fs ∧ gs = (l, w) :: fs := by
  rw [expandEntries] at h
  obtain ⟨l, hl, h⟩ := bind_eq_ok_iff.mp h
  obtain ⟨w, hw, h⟩ := bind_eq_ok_iff.mp h
  obtain ⟨fs, hfs, h⟩ := bind_eq_ok_iff.mp h
  exact ⟨l, w, fs, hl, hw, hfs, (Except.ok.inj h).symm⟩

theorem expandTree_tagged_ok {tag : Tag} {v t' : Tree}
    (h : expandTree scope (.tagged tag v) = .ok t') :
    ∃ text w, expand scope tag.text = .ok text ∧ expandTree scope v = .ok w ∧
      t' = if text.toList.all (· = '!') then w else .tagged (.ofText text) w := by
  rw [expandTree] at h
  obtain ⟨text, htext, h⟩ := bind_eq_ok_iff.mp h
  obtain ⟨w, hw, h⟩ := bind_eq_ok_iff.mp h
  refine ⟨text, w, htext, hw, ?_⟩
  split at h
  · rw [if_pos ‹_›]
    exact (Except.ok.inj h).symm
  · rw [if_neg ‹_›]
    exact (Except.ok.inj h).symm

theorem map_expandTree_keys {es fs : Entries} (h : expandEntries scope es = .ok fs) :
    es.map (fun e => expandTree scope e.1) = fs.map fun f => .ok f.1 := by
  induction es generalizing fs with
  | nil => cases h; rfl
  | cons e es ih =>
      obtain ⟨l, w, fs, hl, -, hfs, rfl⟩ := expandEntries_cons_ok h
      rw [List.map_cons, List.map_cons, hl, ih hfs]

/-- Keys stay apart exactly if those that they come to be are distinct. -/
theorem distinct_iff_keysApart {es fs : Entries} (h : expandEntries scope es = .ok fs) :
    fs.Distinct ↔ KeysApart scope es := by
  have hes : KeysApart scope es ↔ (es.map fun e => expandTree scope e.1).Pairwise
      fun a b => ∀ k l, a = .ok k → b = .ok l → ¬ k.Same l := by
    rw [KeysApart, List.pairwise_map]
  rw [hes, map_expandTree_keys h, List.pairwise_map]
  simp [Entries.Distinct]

/-- A mapping takes all the entries that are put into it only if their keys stay apart. -/
theorem expandsEntries_ofList_iff {es fs : Entries} (h : expandEntries scope es = .ok fs) :
    ExpandsEntries scope es (Entries.ofList fs) ↔
      KeysApart scope es ∧ ExpandsEntries scope es fs := by
  constructor
  · intro hexpands
    have hlength : es.length = fs.length := by
      simpa using congrArg List.length (map_expandTree_keys h)
    obtain ⟨hdistinct, hlist⟩ := Entries.distinct_of_length (hexpands.length_eq.trans hlength)
    rw [hlist] at hexpands
    exact ⟨(distinct_iff_keysApart h).mp hdistinct, hexpands⟩
  · rintro ⟨hes, hexpands⟩
    rwa [Entries.ofList_of_distinct ((distinct_iff_keysApart h).mpr hes)]

mutual

theorem expands_iff : ∀ {t t' : Tree}, expandTree scope t = .ok t' →
    (Expands scope t t' ↔ ∀ es ∈ t.mappings, KeysApart scope es)
  | .null, _, h => by
      cases h
      exact ⟨fun _ _ hes => absurd hes List.not_mem_nil, fun _ => .null⟩
  | .bool b, _, h => by
      cases h
      exact ⟨fun _ _ hes => absurd hes List.not_mem_nil, fun _ => .bool⟩
  | .number n, _, h => by
      cases h
      exact ⟨fun _ _ hes => absurd hes List.not_mem_nil, fun _ => .number⟩
  | .string s, _, h => by
      rw [expandTree] at h
      obtain ⟨s', hs', h⟩ := bind_eq_ok_iff.mp h
      cases h
      exact ⟨fun _ _ hes => absurd hes List.not_mem_nil, fun _ => .string hs'⟩
  | .sequence xs, _, h => by
      rw [expandTree] at h
      obtain ⟨ys, hys, h⟩ := bind_eq_ok_iff.mp h
      cases h
      have ih := expandsItems_iff hys
      exact ⟨fun h => by cases h with | sequence hitems => exact ih.mp hitems,
        fun h => .sequence (ih.mpr h)⟩
  | .mapping es, _, h => by
      rw [expandTree] at h
      obtain ⟨fs, hfs, h⟩ := bind_eq_ok_iff.mp h
      cases h
      rw [Tree.mappings, List.forall_mem_cons, expands_mapping_iff, expandsEntries_ofList_iff hfs,
        expandsEntries_iff hfs]
  | .tagged tag v, _, h => by
      obtain ⟨text, w, htext, hw, rfl⟩ := expandTree_tagged_ok h
      rw [Tree.mappings, ← expands_iff hw, expands_tagged_iff htext]
      constructor
      · rintro ⟨w', hv, hw'⟩
        split at hw'
        · rwa [hw']
        · rwa [(Tree.tagged.inj hw').2]
      · exact fun hv => ⟨w, hv, rfl⟩

theorem expandsItems_iff : ∀ {xs ys : List Tree}, expandItems scope xs = .ok ys →
    (ExpandsItems scope xs ys ↔ ∀ es ∈ Tree.mappings.mappingsOfItems xs, KeysApart scope es)
  | [], _, h => by
      cases h
      exact ⟨fun _ _ hes => absurd hes List.not_mem_nil, fun _ => .nil⟩
  | x :: xs, _, h => by
      obtain ⟨y, ys, hy, hys, rfl⟩ := expandItems_cons_ok h
      rw [Tree.mappings.mappingsOfItems, List.forall_mem_append, ← expands_iff hy,
        ← expandsItems_iff hys]
      exact ⟨fun h => by cases h with | cons hx hxs => exact ⟨hx, hxs⟩, fun h => .cons h.1 h.2⟩

theorem expandsEntries_iff : ∀ {es fs : List (Tree × Tree)}, expandEntries scope es = .ok fs →
    (ExpandsEntries scope es fs ↔
      ∀ es' ∈ Tree.mappings.mappingsOfEntries es, KeysApart scope es')
  | [], _, h => by
      cases h
      exact ⟨fun _ _ hes => absurd hes List.not_mem_nil, fun _ => .nil⟩
  | (k, v) :: es, _, h => by
      obtain ⟨l, w, fs, hl, hw, hfs, rfl⟩ := expandEntries_cons_ok h
      rw [Tree.mappings.mappingsOfEntries, List.forall_mem_append, List.forall_mem_append,
        ← expands_iff hl, ← expands_iff hw, ← expandsEntries_iff hfs]
      exact ⟨fun h => by cases h with | cons hk hv hes => exact ⟨⟨hk, hv⟩, hes⟩,
        fun h => .cons h.1.1 h.1.2 h.2⟩

end

theorem expandEntries_append_ok {es es' gs : Entries}
    (h : expandEntries scope (es ++ es') = .ok gs) :
    ∃ fs fs', expandEntries scope es = .ok fs ∧ expandEntries scope es' = .ok fs' ∧
      gs = fs ++ fs' := by
  induction es generalizing gs with
  | nil => exact ⟨[], gs, rfl, h, rfl⟩
  | cons e es ih =>
      obtain ⟨l, w, gs, hl, hw, hgs, rfl⟩ := expandEntries_cons_ok h
      obtain ⟨fs, fs', hfs, hfs', rfl⟩ := ih hgs
      refine ⟨(l, w) :: fs, fs', ?_, hfs', rfl⟩
      rw [expandEntries, hl, hw, hfs]
      rfl

/-- Of entries whose keys come to be the same the last one gives the value. -/
theorem find?_of_last {before after gs : Entries} {k v l w : Tree}
    (h : expandTree scope (.mapping (before ++ (k, v) :: after)) = .ok (.mapping gs))
    (hk : expandTree scope k = .ok l) (hv : expandTree scope v = .ok w)
    (hafter : ∀ e ∈ after, ∀ l', expandTree scope e.1 = .ok l' → ¬ l.Same l') :
    Entries.find? l gs = some w := by
  rw [expandTree] at h
  obtain ⟨fs, hfs, h⟩ := bind_eq_ok_iff.mp h
  obtain ⟨fsBefore, rest, -, hrest, rfl⟩ := expandEntries_append_ok hfs
  obtain ⟨l', w', fsAfter, hl', hw', hfsAfter, rfl⟩ := expandEntries_cons_ok hrest
  cases hk.symm.trans hl'
  cases hv.symm.trans hw'
  cases h
  refine Entries.find?_ofList fsBefore fun f hf => ?_
  have hmem : .ok f.1 ∈ after.map fun e => expandTree scope e.1 := by
    rw [map_expandTree_keys hfsAfter]
    exact List.mem_map_of_mem hf
  obtain ⟨e, he, hkey⟩ := List.mem_map.mp hmem
  exact hafter e he f.1 hkey

/--
**A document with its macros replaced is complete exactly if no two keys of one mapping come to be
the same.** This is about every mapping of it, those inside keys and under tags included. Of the
entries of a mapping whose keys come to be the same only one is left, with the value of the last.
-/
theorem expands_iff_keysApart {t t' : Tree} (h : expandTree scope t = .ok t') :
    (Expands scope t t' ↔ ∀ es ∈ t.mappings, KeysApart scope es) ∧
    ∀ (before : Entries) k v after (gs : Entries) l w,
      t = .mapping (before ++ (k, v) :: after) → t' = .mapping gs →
      expandTree scope k = .ok l → expandTree scope v = .ok w →
      (∀ e ∈ after, ∀ l', expandTree scope e.1 = .ok l' → ¬ l.Same l') →
      gs.Distinct ∧ Entries.find? l gs = some w := by
  refine ⟨expands_iff h, ?_⟩
  rintro before k v after gs l w rfl rfl hk hv hafter
  refine ⟨?_, find?_of_last h hk hv hafter⟩
  rw [expandTree] at h
  obtain ⟨fs, -, h⟩ := bind_eq_ok_iff.mp h
  cases h
  exact Entries.distinct_ofList fs

/-- Keys that differ behind the same macro stay apart, and a tag without a value is dropped. -/
theorem expands_iff_keysApart_numbered :
    let scope : Scope := fun _ key => if key = "n" then some "1" else none
    let t : Tree := .mapping
      [(.string "a$\x7bx::n\x7d", .tagged ⟨"$\x7b?x::m\x7d"⟩ (.sequence [.null, .string "$"])),
        (.string "b$\x7bx::n\x7d", .tagged ⟨"t$\x7bx::n\x7d"⟩ .null)]
    let t' : Tree := .mapping
      [(.string "a1", .sequence [.null, .string "$"]), (.string "b1", .tagged ⟨"t1"⟩ .null)]
    expandTree scope t = .ok t' ∧ Expands scope t t' := by
  intro scope t t'
  have hexpand : expandTree scope t = .ok t' := by decide +kernel
  refine ⟨hexpand, (expands_iff_keysApart hexpand).1.mpr fun es hes => ?_⟩
  obtain rfl := List.mem_singleton.mp hes
  have hentries : expandEntries scope
      [(.string "a$\x7bx::n\x7d", .tagged ⟨"$\x7b?x::m\x7d"⟩ (.sequence [.null, .string "$"])),
        (.string "b$\x7bx::n\x7d", .tagged ⟨"t$\x7bx::n\x7d"⟩ .null)] =
      .ok [(.string "a1", .sequence [.null, .string "$"]),
        (.string "b1", .tagged ⟨"t1"⟩ .null)] := by decide +kernel
  exact (distinct_iff_keysApart hentries).mp (by decide)

/-- Two keys with the same value become one, and the value of the first is lost. -/
theorem expandTree_of_clash :
    let scope : Scope := fun _ _ => some "k"
    let t : Tree := .mapping
      [(.string "$\x7ba::x\x7d", .bool true), (.string "$\x7ba::y\x7d", .bool false)]
    let t' : Tree := .mapping [(.string "k", .bool false)]
    (∀ es ∈ t.mappings, es.Distinct) ∧ expandTree scope t = .ok t' ∧ ¬ Expands scope t t' := by
  intro scope t t'
  refine ⟨by decide +kernel, by decide +kernel, fun h => ?_⟩
  exact absurd (ExpandsEntries.length_eq (expands_mapping_iff.mp h)) (by decide)

end Macro

end TreeEdit
