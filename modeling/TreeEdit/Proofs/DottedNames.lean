import TreeEdit.Proofs.FallibleSteps
import TreeEdit.Proofs.Kept

/-!
# Properties under dotted names

The properties of a document are its leaves, the values that are no mappings
(`Tree.leaves`). Flattening goes down with the name so far and puts every leaf under the name it has
come to, so a set of properties is what setting one leaf after the other leaves behind
(`Context.flatten_eq`), and all or nothing of it becomes known under the namespace.

A leaf is found under the texts of its keys, joined by dots. One thing is off: a name that is empty
is taken for the top of the document, and no dot is put behind it. So the empty keys that a path
begins with are lost, and the leaf is found under the name of what follows them
(`Context.leafName`). An empty key further down keeps its dot.
-/

namespace TreeEdit

namespace Dictionary

variable {α : Type}

/-- The dictionary with values for several names, set one after the other. -/
def setAll (d : Dictionary α) (pairs : List (String × α)) : Dictionary α :=
  pairs.foldl (fun d e => d.set e.1 e.2) d

theorem get?_append (name : String) (d d' : Dictionary α) :
    get? name (d ++ d') = (get? name d).or (get? name d') := by
  induction d with
  | nil => rfl
  | cons e d ih =>
      rw [List.cons_append, get?, get?, ih]
      split <;> rfl

theorem get?_eq_none_iff {name : String} {d : Dictionary α} :
    get? name d = none ↔ ∀ e ∈ d, e.1 ≠ name := by
  induction d with
  | nil => exact ⟨fun _ _ h => absurd h List.not_mem_nil, fun _ => rfl⟩
  | cons e d ih =>
      rw [List.forall_mem_cons, get?, ← ih]
      by_cases hname : name = e.1
      · rw [if_pos hname]
        constructor
        · intro h
          cases h
        · intro h
          exact absurd hname.symm h.1
      · rw [if_neg hname]
        constructor
        · intro h
          exact ⟨Ne.symm hname, h⟩
        · intro h
          exact h.2

/-- Of the values set for a name the last one counts. -/
theorem get?_setAll (name : String) (d : Dictionary α) (pairs : List (String × α)) :
    get? name (d.setAll pairs) = (get? name pairs.reverse).or (get? name d) := by
  induction pairs generalizing d with
  | nil => rfl
  | cons e pairs ih =>
      calc get? name (d.setAll (e :: pairs))
        _ = (get? name pairs.reverse).or (get? name (d.set e.1 e.2)) := ih _
        _ = (get? name pairs.reverse).or ((get? name [e]).or (get? name d)) := by
            rw [get?_set, get?, get?]
            split <;> rfl
        _ = (get? name (e :: pairs).reverse).or (get? name d) := by
            rw [← Option.or_assoc, ← get?_append, List.reverse_cons]

end Dictionary

namespace Tree

mutual

/--
The values in a document that are no untagged mappings, with the texts of the keys that lead to
them. What stands under a key without a text is left out.
-/
def leaves : Tree → List (List String × Tree)
  | .mapping entries => leavesOfEntries entries
  | t => [([], t)]

def leavesOfEntries : List (Tree × Tree) → List (List String × Tree)
  | [] => []
  | (k, v) :: es =>
    match k.text? with
    | none => leavesOfEntries es
    | some key => v.leaves.map (fun l => (key :: l.1, l.2)) ++ leavesOfEntries es

end

end Tree

namespace Context

/-! ## Names -/

/-- The name of a leaf: the texts of its keys joined by dots, from the first that is not empty. -/
def leafName (keys : List String) : String := Text.joinWith "." (keys.dropWhile (· = ""))

/-- An empty key at the top is lost. -/
theorem leafName_cons_empty (keys : List String) : leafName ("" :: keys) = leafName keys := rfl

theorem leafName_cons_of_ne {key : String} (h : key ≠ "") (keys : List String) :
    leafName (key :: keys) = Text.joinWith "." (key :: keys) := by
  rw [leafName, List.dropWhile_cons_of_neg (by simpa using h)]

theorem foldl_dotted {name : String} (h : name ≠ "") (keys : List String) :
    keys.foldl dotted name = Text.joinWith "." (name :: keys) := by
  induction keys generalizing name with
  | nil => exact String.intercalate_singleton.symm
  | cons key keys ih =>
      have hdotted : dotted name key = name ++ "." ++ key := if_neg h
      have hne : name ++ "." ++ key ≠ "" := by
        intro hempty
        have hlength := congrArg String.length hempty
        simp at hlength
      rw [List.foldl_cons, hdotted, ih hne]
      simp only [Text.joinWith, String.intercalate_cons_append, String.intercalate_cons_cons]

/-- Going down from the top comes to the name of the leaf. -/
theorem foldl_dotted_top (keys : List String) : keys.foldl dotted "" = leafName keys := by
  induction keys with
  | nil => rfl
  | cons key keys ih =>
      rw [List.foldl_cons, show dotted "" key = key from rfl]
      by_cases hkey : key = ""
      · rw [hkey, ih, leafName_cons_empty]
      · rw [foldl_dotted hkey, leafName_cons_of_ne hkey]

theorem length_leafName_le (keys : List String) :
    (leafName keys).length ≤ (Text.joinWith "." keys).length := by
  induction keys with
  | nil => exact Nat.le_refl _
  | cons key keys ih =>
      by_cases hkey : key = ""
      · rw [hkey, leafName_cons_empty]
        cases keys with
        | nil => exact Nat.zero_le _
        | cons next keys =>
            simp only [Text.joinWith, String.intercalate_cons_cons, String.length_append] at ih ⊢
            omega
      · exact Nat.le_of_eq (congrArg String.length (leafName_cons_of_ne hkey keys))

/-- The name of a leaf is its dotted name exactly if its path begins with no empty key. -/
theorem leafName_eq_iff {keys : List String} :
    leafName keys = Text.joinWith "." keys ↔ (keys.head? = some "" → keys = [""]) := by
  cases keys with
  | nil => exact ⟨fun _ h => (by cases h), fun _ => rfl⟩
  | cons key keys =>
      by_cases hkey : key = ""
      · rw [hkey, leafName_cons_empty]
        cases keys with
        | nil => exact ⟨fun _ _ => rfl, fun _ => rfl⟩
        | cons next keys =>
            -- the dotted name has a dot more than the name can have
            have hle := length_leafName_le (next :: keys)
            have hlength : (Text.joinWith "." ("" :: next :: keys)).length =
                (Text.joinWith "." (next :: keys)).length + 1 := by
              simp only [Text.joinWith, String.intercalate_cons_cons, String.length_append]
              rw [show "".length = 0 from rfl, show ".".length = 1 from rfl]
              omega
            constructor
            · intro heq
              rw [heq, hlength] at hle
              omega
            · intro h
              cases h rfl
      · rw [leafName_cons_of_ne hkey]
        exact ⟨fun _ h => absurd (Option.some.inj h) hkey, fun _ => rfl⟩

/-! ## Flattening -/

/-- A leaf put among the properties, under the name that its keys come to below `name`. -/
def setLeaf (name : String) (found : Dictionary String) (l : List String × Tree) :
    Except Error (Dictionary String) := do
  return found.set (l.1.foldl dotted name) (← l.2.plainText)

mutual

/-- **Flattening sets one leaf after the other.** -/
theorem flatten_eq : ∀ (name : String) (found : Dictionary String) (t : Tree),
    flatten name found t = t.leaves.foldlM (setLeaf name) found
  | name, found, .mapping entries => flattenEntries_eq name found entries
  | _, _, .null | _, _, .bool _ | _, _, .number _ | _, _, .string _ | _, _, .sequence _
  | _, _, .tagged _ _ => (bind_pure _).symm

theorem flattenEntries_eq : ∀ (name : String) (found : Dictionary String)
    (es : List (Tree × Tree)),
    flattenEntries name found es = (Tree.leavesOfEntries es).foldlM (setLeaf name) found
  | name, found, [] => rfl
  | name, found, (k, v) :: es => by
      rw [flattenEntries, Tree.leavesOfEntries]
      cases k.text? with
      | none => exact flattenEntries_eq name found es
      | some key =>
          dsimp only
          rw [List.foldlM_append, List.foldlM_map, flatten_eq (dotted name key) found v]
          refine bind_congr fun found' => ?_
          exact flattenEntries_eq name found' es

end

/-- The entry of a leaf: its name and its text. -/
def leafEntry (l : List String × Tree) : String × String :=
  (leafName l.1, l.2.plainText.toOption.getD "")

/-- Every leaf is set, or one of them has no text. -/
theorem foldlM_setLeaf_eq_ok_iff {ls : List (List String × Tree)}
    {found found' : Dictionary String} : ls.foldlM (setLeaf "") found = .ok found' ↔
      (∀ l ∈ ls, l.2.plainText.isOk = true) ∧ found' = found.setAll (ls.map leafEntry) := by
  induction ls generalizing found with
  | nil =>
      rw [List.foldlM_nil]
      exact ok_eq_ok_iff_of_nil
  | cons l ls ih =>
      rw [List.foldlM_cons, List.forall_mem_cons, setLeaf, foldl_dotted_top]
      cases htext : l.2.plainText with
      | error e =>
          constructor
          · intro h
            cases h
          · rintro ⟨⟨h, -⟩, -⟩
            cases h
      | ok text =>
          have hentry : leafEntry l = (leafName l.1, text) := by
            rw [leafEntry, htext]
            rfl
          have hall : found.setAll ((l :: ls).map leafEntry) =
              (found.set (leafName l.1) text).setAll (ls.map leafEntry) := by
            rw [List.map_cons, hentry]
            rfl
          rw [hall]
          refine ih.trans ?_
          constructor
          · intro h
            exact ⟨⟨rfl, h.1⟩, h.2⟩
          · intro h
            exact ⟨h.1.2, h.2⟩

/-- A document has properties if it is an untagged mapping and every leaf of it has a text. -/
theorem propertiesOf_eq_ok_iff {space : String} {t : Tree} {found : Dictionary String} :
    propertiesOf space t = .ok found ↔ (t.kind = .mapping ∧
      ∀ l ∈ t.leaves, l.2.plainText.isOk = true) ∧
        found = Dictionary.setAll [] (t.leaves.map leafEntry) := by
  cases t with
  | mapping entries =>
      have hleaves : (Tree.mapping entries).leaves = Tree.leavesOfEntries entries := rfl
      rw [propertiesOf, flattenEntries_eq, foldlM_setLeaf_eq_ok_iff, hleaves]
      constructor
      · intro h
        exact ⟨⟨rfl, h.1⟩, h.2⟩
      · intro h
        exact ⟨h.1.2, h.2⟩
  | null | bool _ | number _ | string _ | sequence _ | tagged _ _ =>
      constructor
      · intro h
        cases h
      · rintro ⟨⟨h, -⟩, -⟩
        cases h

/-! ## Looking up -/

theorem scope_eq {space : String} (hbatch : space ≠ "BATCH") (henv : space ≠ "ENV") (c : Context)
    (name : String) : c.scope space name = (c.namespaces.get? space).bind (·.get? name) := by
  unfold scope
  split
  · exact absurd rfl hbatch
  · exact absurd rfl henv
  · rfl

/-- Another namespace is looked up as before. -/
theorem scope_setProperties_of_ne {space other : String} (h : other ≠ space)
    (found : Dictionary String) (c : Context) (name : String) :
    (c.setProperties space found).scope other name = c.scope other name := by
  by_cases hbatch : other = "BATCH"
  · subst hbatch
    rfl
  · by_cases henv : other = "ENV"
    · subst henv
      rfl
    · rw [scope_eq hbatch henv, scope_eq hbatch henv, setProperties, Dictionary.get?_set, if_neg h]

theorem scope_setProperties {space : String} (hbatch : space ≠ "BATCH") (henv : space ≠ "ENV")
    (found : Dictionary String) (c : Context) (name : String) :
    (c.setProperties space found).scope space name = found.get? name := by
  rw [scope_eq hbatch henv, setProperties, Dictionary.get?_set, if_pos rfl]
  rfl

/-- Of the leaves with a name the last one gives its value. -/
theorem get?_leafEntries {ls : List (List String × Tree)} {before after : List (List String × Tree)}
    {l : List String × Tree} (hls : ls = before ++ l :: after)
    (hlast : ∀ l' ∈ after, leafName l'.1 ≠ leafName l.1) :
    Dictionary.get? (leafName l.1) (Dictionary.setAll [] (ls.map leafEntry)) =
      some (l.2.plainText.toOption.getD "") := by
  have hnone : Dictionary.get? (leafName l.1) (after.map leafEntry).reverse = none := by
    refine Dictionary.get?_eq_none_iff.mpr fun e he => ?_
    obtain ⟨l', hl', rfl⟩ := List.mem_map.mp (List.mem_reverse.mp he)
    exact hlast l' hl'
  have hfirst : Dictionary.get? (leafName l.1) (leafEntry l :: (before.map leafEntry).reverse) =
      some (l.2.plainText.toOption.getD "") := if_pos rfl
  rw [hls, Dictionary.get?_setAll, List.map_append, List.map_cons, List.reverse_append,
    List.reverse_cons, List.append_assoc, Dictionary.get?_append, hnone, Option.none_or,
    List.singleton_append, hfirst]
  rfl

theorem get?_leafEntries_eq_none {ls : List (List String × Tree)} {name : String}
    (h : ∀ l ∈ ls, leafName l.1 ≠ name) :
    Dictionary.get? name (Dictionary.setAll [] (ls.map leafEntry)) = none := by
  have hnone : Dictionary.get? name (ls.map leafEntry).reverse = none := by
    refine Dictionary.get?_eq_none_iff.mpr fun e he => ?_
    obtain ⟨l, hl, rfl⟩ := List.mem_map.mp (List.mem_reverse.mp he)
    exact h l hl
  rw [Dictionary.get?_setAll, hnone]
  rfl

end Context

namespace Run

/-- Loading fails without a change, or makes the properties known. -/
theorem loadProperties_cases (space : String) (t : Tree) (w : World) :
    (∃ e, Context.propertiesOf space t = .error e ∧ loadProperties space t w = (.error e, w)) ∨
      ∃ found, Context.propertiesOf space t = .ok found ∧ (loadProperties space t w).1 = .ok () ∧
        (loadProperties space t w).2.context = w.context.setProperties space found := by
  unfold loadProperties
  cases hfound : Context.propertiesOf space t with
  | error e => exact .inl ⟨e, rfl, rfl⟩
  | ok found =>
      refine .inr ⟨found, rfl, rfl, ?_⟩
      exact congrArg (Context.setProperties space found) (keeps_context_tell _ w)

/--
**Properties are found under their dotted names.** Loading them succeeds exactly if the document is
an untagged mapping and every leaf of it has a text; if not, nothing changes. Then a leaf is found
under its name unless a later one has the same, under no other name anything is found, and other
namespaces and the rest of the context are as before. The name of a leaf is the texts of its keys
joined by dots, exactly if its path begins with no empty key.
-/
theorem loadProperties_finds {space : String} (hbatch : space ≠ "BATCH") (henv : space ≠ "ENV")
    (t : Tree) (w : World) :
    let r := loadProperties space t w
    (r.1 = .ok () ↔ t.kind = .mapping ∧ ∀ l ∈ t.leaves, l.2.plainText.isOk = true) ∧
    (r.1 ≠ .ok () → r.2 = w) ∧
    (r.1 = .ok () →
      (∀ before keys leaf after, t.leaves = before ++ (keys, leaf) :: after →
        (∀ l ∈ after, Context.leafName l.1 ≠ Context.leafName keys) →
        ∃ text, leaf.plainText = .ok text ∧
          r.2.context.scope space (Context.leafName keys) = some text) ∧
      (∀ name, (∀ l ∈ t.leaves, Context.leafName l.1 ≠ name) →
        r.2.context.scope space name = none) ∧
      (∀ other name, other ≠ space →
        r.2.context.scope other name = w.context.scope other name) ∧
      { r.2.context with namespaces := w.context.namespaces } = w.context) ∧
    ∀ keys, Context.leafName keys = Text.joinWith "." keys ↔
      (keys.head? = some "" → keys = [""]) := by
  intro r
  refine ⟨?_, ?_, fun hr => ?_, fun _ => Context.leafName_eq_iff⟩
  · rcases loadProperties_cases space t w with ⟨e, hfound, hload⟩ | ⟨found, hfound, hload, -⟩
    · constructor
      · intro hr
        rw [show r = _ from hload] at hr
        cases hr
      · intro h
        rw [Context.propertiesOf_eq_ok_iff.mpr ⟨h, rfl⟩] at hfound
        cases hfound
    · exact ⟨fun _ => (Context.propertiesOf_eq_ok_iff.mp hfound).1, fun _ => hload⟩
  · intro hr
    rcases loadProperties_cases space t w with ⟨e, -, hload⟩ | ⟨found, -, hload, -⟩
    · exact congrArg Prod.snd hload
    · exact absurd hload hr
  · rcases loadProperties_cases space t w with ⟨e, -, hload⟩ | ⟨found, hfound, -, hcontext⟩
    · rw [show r = _ from hload] at hr
      cases hr
    · obtain ⟨⟨-, htexts⟩, rfl⟩ := Context.propertiesOf_eq_ok_iff.mp hfound
      have hscope := Context.scope_setProperties hbatch henv
        (Dictionary.setAll [] (t.leaves.map Context.leafEntry)) w.context
      rw [show r.2.context = _ from hcontext]
      refine ⟨fun before keys leaf after hleaves hlast => ?_, fun name hname => ?_,
        fun other name hother => Context.scope_setProperties_of_ne hother _ _ _, rfl⟩
      · have htext := htexts (keys, leaf) (by rw [hleaves]; simp)
        cases hleaf : leaf.plainText with
        | error e =>
            rw [hleaf] at htext
            cases htext
        | ok text =>
            refine ⟨text, rfl, ?_⟩
            rw [hscope, Context.get?_leafEntries hleaves hlast, hleaf]
            rfl
      · rw [hscope, Context.get?_leafEntries_eq_none hname]

/-- A collection is found as JSON under its name, and an empty key further down keeps its dot. -/
theorem loadProperties_finds_nested :
    let t : Tree := .mapping [(.string "limits", .mapping [(.string "max", .string "5"),
      (.null, .sequence [.null, .bool true])]), (.bool false, .tagged ⟨"t"⟩ (.string "x"))]
    let r := loadProperties "app" t {}
    "app" ≠ "BATCH" ∧ "app" ≠ "ENV" ∧ r.1 = .ok () ∧
      r.2.context.scope "app" "limits.max" = some "5" ∧
      r.2.context.scope "app" "limits." = some "[null,true]" ∧
      r.2.context.scope "app" "limits" = none := by
  intro t r
  have hbatch : "app" ≠ "BATCH" := by decide
  have henv : "app" ≠ "ENV" := by decide
  have hload : r.1 = .ok () := rfl
  have hleaves : t.leaves = [(["limits", "max"], .string "5"),
      (["limits", ""], .sequence [.null, .bool true]),
      (["false"], .tagged ⟨"t"⟩ (.string "x"))] := by decide +kernel
  obtain ⟨-, -, hfinds, -⟩ := loadProperties_finds hbatch henv t {}
  obtain ⟨hleaf, hnone, -, -⟩ := hfinds hload
  obtain ⟨max, hmax, hfoundMax⟩ := hleaf [] _ _ _ hleaves (by decide +kernel)
  obtain ⟨inner, hinner, hfoundInner⟩ :=
    hleaf [(["limits", "max"], .string "5")] _ _ _ hleaves (by decide +kernel)
  obtain rfl : "5" = max := Except.ok.inj hmax
  have hjson : (Tree.sequence [.null, .bool true]).plainText = .ok "[null,true]" := by
    decide +kernel
  obtain rfl := Except.ok.inj (hjson.symm.trans hinner)
  exact ⟨hbatch, henv, hload, hfoundMax, hfoundInner,
    hnone "limits" (by rw [hleaves]; decide +kernel)⟩

/--
The empty key is lost where it comes first: the leaf is not found under its dotted name, but under a
name that no leaf has.
-/
theorem loadProperties_of_empty_key :
    let t : Tree := .mapping [(.string "", .mapping [(.string "a", .string "1")])]
    let r := loadProperties "app" t {}
    t.leaves = [(["", "a"], .string "1")] ∧ Text.joinWith "." ["", "a"] = ".a" ∧ r.1 = .ok () ∧
      r.2.context.scope "app" ".a" = none ∧ r.2.context.scope "app" "a" = some "1" := by
  intro t r
  exact ⟨by decide +kernel, by decide +kernel, rfl, by decide +kernel, by decide +kernel⟩

end Run

end TreeEdit
