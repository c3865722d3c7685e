import Mathlib.Data.List.Nodup
import TreeEdit.Proofs.Children

/-!
# The nodes of a document and where they are

`Tree.nodes` lists a document in preorder: every node with its location, a node before what is
below it and the children of a node in their order. Locations are written with the keys as they
stand in the document.

A mapping never holds one key twice. Entry lists are plain lists here, so this is said of documents
(`DistinctKeys`), and it is what makes a location lead to one node only: `Reaches t l u` says that
`l` leads from `t` to `u`, and `DistinctKeys.reaches` that every listed location does.

The rest is how a change at one location looks from others (`Reaches.set?_apart`,
`Reaches.set?_above`, `Reaches.set?_self`).
-/

namespace TreeEdit

namespace Tree

/-- A step put in front of the locations of some nodes. -/
def under (s : Step) (ns : List (Location × Tree)) : List (Location × Tree) :=
  ns.map fun n => (s :: n.1, n.2)

mutual

/-- The nodes below a node in preorder, with the locations that lead to them from it. -/
def descendants : Tree → List (Location × Tree)
  | .tagged _ t => t.descendants
  | .mapping es => descendantsOfEntries es
  | .sequence items => descendantsOfItems 0 items
  | .null | .bool _ | .number _ | .string _ => []

def descendantsOfEntries : List (Tree × Tree) → List (Location × Tree)
  | [] => []
  | (k, v) :: es => under (.key k) (([], v) :: v.descendants) ++ descendantsOfEntries es

def descendantsOfItems : Nat → List Tree → List (Location × Tree)
  | _, [] => []
  | i, t :: items => under (.index i) (([], t) :: t.descendants) ++ descendantsOfItems (i + 1) items

end

/-- All nodes of a document in preorder, the document itself first. -/
def nodes (t : Tree) : List (Location × Tree) := ([], t) :: t.descendants

theorem descendantsOfEntries_eq (es : Entries) :
    descendantsOfEntries es = (entrySteps es).flatMap fun e => under e.1 e.2.nodes := by
  induction es with
  | nil => rfl
  | cons e es ih =>
      rw [descendantsOfEntries, ih]
      rfl

theorem descendantsOfItems_eq (i : Nat) (items : List Tree) :
    descendantsOfItems i items = (itemSteps i items).flatMap fun e => under e.1 e.2.nodes := by
  induction items generalizing i with
  | nil => rfl
  | cons t items ih =>
      rw [descendantsOfItems, ih]
      rfl

/-- Below a node are its children, each followed by what is below it. -/
theorem descendants_eq : ∀ t : Tree, t.descendants = t.children.flatMap fun e => under e.1 e.2.nodes
  | .tagged _ t => descendants_eq t
  | .mapping es => descendantsOfEntries_eq es
  | .sequence items => descendantsOfItems_eq 0 items
  | .null | .bool _ | .number _ | .string _ => rfl

theorem nodes_eq (t : Tree) :
    t.nodes = ([], t) :: t.children.flatMap fun e => under e.1 e.2.nodes := by
  rw [nodes, descendants_eq]

theorem mem_under {s : Step} {l : Location} {u : Tree} {ns : List (Location × Tree)} :
    (l, u) ∈ under s ns ↔ ∃ m, l = s :: m ∧ (m, u) ∈ ns := by
  simp only [under, List.mem_map, Prod.mk.injEq]
  constructor
  · rintro ⟨n, hn, rfl, rfl⟩; exact ⟨n.1, rfl, hn⟩
  · rintro ⟨m, rfl, h⟩; exact ⟨(m, u), h, rfl, rfl⟩

theorem mem_nodes_nil {t u : Tree} : ([], u) ∈ t.nodes ↔ u = t := by
  rw [nodes_eq]
  simp only [List.mem_cons, Prod.mk.injEq, true_and, List.mem_flatMap]
  constructor
  · rintro (h | ⟨e, -, he⟩)
    · exact h
    · obtain ⟨m, hm, -⟩ := mem_under.mp he
      exact absurd hm (by simp)
  · exact .inl

/-- What stands below a step stands below the child that the step leads to. -/
theorem mem_nodes_cons {t u : Tree} {s : Step} {l : Location} :
    (s :: l, u) ∈ t.nodes ↔ ∃ c, (s, c) ∈ t.children ∧ (l, u) ∈ c.nodes := by
  rw [nodes_eq]
  simp only [List.mem_cons, Prod.mk.injEq, reduceCtorEq, false_and, false_or, List.mem_flatMap]
  constructor
  · rintro ⟨⟨r, c⟩, hc, he⟩
    obtain ⟨m, hm, hu⟩ := mem_under.mp he
    obtain ⟨rfl, rfl⟩ := List.cons.inj hm
    exact ⟨c, hc, hu⟩
  · rintro ⟨c, hc, hu⟩
    exact ⟨(s, c), hc, mem_under.mpr ⟨l, rfl, hu⟩⟩

theorem ne_nil_of_mem_descendants {t u : Tree} {l : Location} (h : (l, u) ∈ t.descendants) :
    l ≠ [] := by
  rw [descendants_eq, List.mem_flatMap] at h
  obtain ⟨e, -, he⟩ := h
  obtain ⟨m, rfl, -⟩ := mem_under.mp he
  exact List.cons_ne_nil _ _

/-! ## Keys are distinct -/

/-- The entries of a mapping, tags looked through; other nodes have none. -/
def entries (t : Tree) : Entries :=
  match t.untag with
  | .mapping es => es
  | _ => []

theorem entries_of_untag {t : Tree} {es : Entries} (h : t.untag = .mapping es) :
    t.entries = es := by
  simp [entries, h]

theorem entries_of_isScalar {t : Tree} (h : t.isScalar = true) : t.entries = [] := by
  unfold entries
  split
  · rename_i es hc
    rw [isScalar, hc] at h
    cases h
  · rfl

/-- No mapping of the document holds one key twice. -/
def DistinctKeys (t : Tree) : Prop := ∀ n ∈ t.nodes, n.2.entries.Distinct

instance (t : Tree) : Decidable t.DistinctKeys := inferInstanceAs (Decidable (∀ n ∈ t.nodes, _))

theorem DistinctKeys.entries {t : Tree} (h : t.DistinctKeys) : t.entries.Distinct :=
  h ([], t) (List.mem_cons_self ..)

/-- Distinct keys are kept on the way down. -/
theorem DistinctKeys.child {t u : Tree} {s : Step} (h : t.DistinctKeys)
    (hu : (s, u) ∈ t.children) : u.DistinctKeys := by
  rintro ⟨l, w⟩ hw
  exact h (s :: l, w) (mem_nodes_cons.mpr ⟨u, hu, hw⟩)

theorem DistinctKeys.node {t u : Tree} {l : Location} (h : t.DistinctKeys)
    (hu : (l, u) ∈ t.nodes) : u.DistinctKeys := by
  induction l generalizing t with
  | nil => rw [mem_nodes_nil.mp hu]; exact h
  | cons s l ih =>
      obtain ⟨c, hc, hu⟩ := mem_nodes_cons.mp hu
      exact ih (h.child hc) hu

/-- Keys are distinct in a document if they are at its root and in every child. -/
theorem distinctKeys_of_children {t : Tree} (h : t.entries.Distinct)
    (hbelow : ∀ e ∈ t.children, e.2.DistinctKeys) : t.DistinctKeys := by
  rintro ⟨l, u⟩ hu
  cases l with
  | nil =>
      obtain rfl := mem_nodes_nil.mp hu
      exact h
  | cons s l =>
      obtain ⟨c, hc, hu⟩ := mem_nodes_cons.mp hu
      exact hbelow (s, c) hc (l, u) hu

/-- Where keys are distinct the step to a child leads to it. -/
theorem DistinctKeys.leads {t u : Tree} {s : Step} (h : t.DistinctKeys)
    (hu : (s, u) ∈ t.children) : t.Leads s u := by
  rcases t.untag_cases with ⟨es, hc⟩ | ⟨items, hc⟩ | hc
  · rw [children_of_untag hc] at hu
    obtain ⟨k, rfl, hk⟩ := mem_entrySteps.mp hu
    obtain ⟨pre, post, rfl⟩ := List.append_of_mem hk
    have hd := h.entries
    rw [entries_of_untag hc] at hd
    refine .entry hc (Entries.lookup?_eq_some_iff.mpr ⟨pre, post, rfl, fun e he hsame => ?_⟩)
    exact (List.pairwise_append.mp hd).2.2 e he (k, u) (List.mem_cons_self ..) hsame.symm
  · rw [children_of_untag hc] at hu
    obtain ⟨n, rfl, hn⟩ := mem_itemSteps.mp hu
    exact .item hc (by simpa using hn)
  · rw [children_eq_nil_of_isScalar hc] at hu
    exact absurd hu (List.not_mem_nil)

/-- Where keys are distinct no step leads to two children. -/
theorem DistinctKeys.nodup_steps {t : Tree} (h : t.DistinctKeys) :
    (t.children.map Prod.fst).Nodup := by
  rcases t.untag_cases with ⟨es, hc⟩ | ⟨items, hc⟩ | hc
  · have hd := h.entries
    rw [entries_of_untag hc] at hd
    rw [children_of_untag hc, children, entrySteps, List.map_map, List.Nodup, List.pairwise_map]
    refine hd.imp fun {a b} hab heq => hab ?_
    simp only [Function.comp_apply, Step.key.injEq] at heq
    rw [heq]
    exact .refl _
  · rw [children_of_untag hc, children]
    have hnd : ∀ (items : List Tree) (i : Nat), ((itemSteps i items).map Prod.fst).Nodup := by
      intro items
      induction items with
      | nil => intro i; exact List.nodup_nil
      | cons t items ih =>
          intro i
          refine List.nodup_cons.mpr ⟨fun hmem => ?_, ih (i + 1)⟩
          obtain ⟨⟨s, u⟩, hu, hs⟩ := List.mem_map.mp hmem
          obtain ⟨n, rfl, -⟩ := mem_itemSteps.mp hu
          simp only [Step.index.injEq] at hs
          omega
    exact hnd items 0
  · simp [children_eq_nil_of_isScalar hc]

/-- Where keys are distinct no location is listed twice. -/
theorem DistinctKeys.nodup_nodes {t : Tree} (h : t.DistinctKeys) :
    (t.nodes.map Prod.fst).Nodup := by
  induction t using childInduction with
  | step t ih =>
    have hunder : ∀ (s : Step) (u : Tree), (under s u.nodes).map Prod.fst
        = (u.nodes.map Prod.fst).map (s :: ·) := by
      intro s u; simp [under, Function.comp_def]
    rw [nodes_eq]
    simp only [List.map_cons, List.nodup_cons, List.map_flatMap, hunder]
    constructor
    · simp
    · refine List.nodup_flatMap.mpr ⟨fun e he => ?_, ?_⟩
      · exact (ih e.1 e.2 he (h.child he)).map (fun a b hab => (List.cons.inj hab).2)
      · refine (List.pairwise_map.mp h.nodup_steps).imp fun {a b} hab l hla hlb => ?_
        obtain ⟨m, -, rfl⟩ := List.mem_map.mp hla
        obtain ⟨m', -, hm'⟩ := List.mem_map.mp hlb
        exact hab (List.cons.inj hm').1.symm

/-! ## Where a location leads -/

/-- The location, written as its keys stand in the document, leads to the node. -/
inductive Reaches : Tree → Location → Tree → Prop where
  | here {t : Tree} : Reaches t [] t
  | down {t c u : Tree} {s : Step} {l : Location} :
      Leads t s c → Reaches c l u → Reaches t (s :: l) u

/-- What is reached is what is found. -/
theorem Reaches.get?_eq {t u : Tree} {l : Location} (h : Reaches t l u) :
    t.get? l = some u := by
  induction h with
  | here => rfl
  | down hs _ ih => simpa [get?, hs.child?_eq] using ih

/-- A location leads to one node only. -/
theorem Reaches.unique {t u v : Tree} {l : Location} (hu : Reaches t l u) (hv : Reaches t l v) :
    u = v := by
  have := hu.get?_eq
  rw [hv.get?_eq] at this
  exact (Option.some.inj this).symm

theorem Reaches.mem_nodes {t u : Tree} {l : Location} (h : Reaches t l u) : (l, u) ∈ t.nodes := by
  induction h with
  | here => exact mem_nodes_nil.mpr rfl
  | down hs _ ih => exact mem_nodes_cons.mpr ⟨_, hs.mem_children, ih⟩

/-- Where keys are distinct every listed location leads to its node. -/
theorem DistinctKeys.reaches {t u : Tree} {l : Location} (h : t.DistinctKeys)
    (hu : (l, u) ∈ t.nodes) : Reaches t l u := by
  induction l generalizing t with
  | nil => rw [mem_nodes_nil.mp hu]; exact .here
  | cons s l ih =>
      obtain ⟨c, hc, hu⟩ := mem_nodes_cons.mp hu
      exact .down (h.leads hc) (ih (h.child hc) hu)

theorem Reaches.append {t u v : Tree} {l m : Location} (hl : Reaches t l u) (hm : Reaches u m v) :
    Reaches t (l ++ m) v := by
  induction hl with
  | here => exact hm
  | down hs _ ih => exact .down hs (ih hm)

/-- Every location on the way is reached. -/
theorem Reaches.of_append {t v : Tree} {l m : Location} (h : Reaches t (l ++ m) v) :
    ∃ u, Reaches t l u ∧ Reaches u m v := by
  induction l generalizing t with
  | nil => exact ⟨t, .here, h⟩
  | cons s l ih =>
      cases h with
      | down hs h =>
          obtain ⟨u, hu, hv⟩ := ih h
          exact ⟨u, .down hs hu, hv⟩

/-- Two locations that lead to the same place, as written, are one. -/
theorem Reaches.eq_of_same {t u v : Tree} {l m : Location} (hl : Reaches t l u)
    (hm : Reaches t m v) (h : Location.Same l m) : l = m := by
  induction hl generalizing m with
  | here =>
      cases hm with
      | here => rfl
      | down => exact h.elim
  | down hs _ ih =>
      cases hm with
      | here => exact h.elim
      | down hr hm =>
          obtain ⟨rfl, rfl⟩ := hs.eq_of_same hr h.1
          rw [ih hm h.2]

/-! ## A change seen from elsewhere -/

/-- A change below a step is a change of the child, put back in its place. -/
theorem Leads.set?_cons {t c : Tree} {s : Step} (h : t.Leads s c) (l : Location) (v : Tree) :
    t.set? (s :: l) v = (c.set? l v).map (t.setChild s) := by
  simp [set?, h.child?_eq]

theorem Leads.get?_cons {t c : Tree} {s : Step} (h : t.Leads s c) (l : Location) :
    t.get? (s :: l) = c.get? l := by
  simp [get?, h.child?_eq]

/-- What was put at a location is there. -/
theorem Reaches.set?_self {t t' u v : Tree} {l : Location} (hl : Reaches t l u)
    (h : t.set? l v = some t') : Reaches t' l v := by
  induction hl generalizing t' with
  | here =>
      obtain rfl := Option.some.inj h
      exact .here
  | down hs _ ih =>
      rw [hs.set?_cons] at h
      obtain ⟨c', hc', rfl⟩ := Option.map_eq_some_iff.mp h
      exact .down (hs.setChild c') (ih hc')

/-- A change is not seen where neither location continues the other. -/
theorem Reaches.set?_apart {t t' u v w : Tree} {l m : Location} (hl : Reaches t l u)
    (h : t.set? l v = some t') (hm : Reaches t m w) (hlm : ¬ l <+: m) (hml : ¬ m <+: l) :
    Reaches t' m w := by
  induction hl generalizing t' m with
  | here => exact absurd (List.nil_prefix) hlm
  | @down _ _ _ s _ hs _ ih =>
      rw [hs.set?_cons] at h
      obtain ⟨c', hc', rfl⟩ := Option.map_eq_some_iff.mp h
      cases hm with
      | here => exact absurd (List.nil_prefix) hml
      | @down _ c _ r m hr hm =>
          by_cases hrs : r = s
          · -- both go into the same child and part further down
            subst hrs
            obtain ⟨-, rfl⟩ := hr.eq_of_same hs (.refl r)
            refine .down (hs.setChild c') (ih hc' hm ?_ ?_)
            · exact fun hp => hlm (List.cons_prefix_cons.mpr ⟨rfl, hp⟩)
            · exact fun hp => hml (List.cons_prefix_cons.mpr ⟨rfl, hp⟩)
          · exact .down (hr.setChild_of_ne hs hrs c') hm

/-- The same tags over a mapping with the same keys, or over a sequence of the same length. -/
inductive SameFrame (t t' : Tree) : Prop where
  | mapping {es es' : Entries} : t.untag = .mapping es → t' = t.retag (.mapping es') →
      es'.map Prod.fst = es.map Prod.fst → SameFrame t t'
  | sequence {items items' : List Tree} : t.untag = .sequence items →
      t' = t.retag (.sequence items') → items'.length = items.length → SameFrame t t'

theorem Leads.sameFrame_refl {t c : Tree} {s : Step} (h : t.Leads s c) : t.SameFrame t := by
  cases h with
  | entry hc _ => exact .mapping hc (by rw [← hc, retag_untag]) rfl
  | item hc _ => exact .sequence hc (by rw [← hc, retag_untag]) rfl

theorem SameFrame.trans {t t' t'' : Tree} (h : t.SameFrame t') (h' : t'.SameFrame t'') :
    t.SameFrame t'' := by
  cases h with
  | @mapping _ es' hc ht hes =>
      subst ht
      cases h' with
      | mapping hc' ht' hes' =>
          obtain rfl : es' = _ := by simpa [untag_retag, untag] using hc'
          exact .mapping hc (by rw [ht', retag_retag _ _ rfl]) (hes'.trans hes)
      | sequence hc' => simp [untag_retag, untag] at hc'
  | @sequence _ items' hc ht hlen =>
      subst ht
      cases h' with
      | mapping hc' => simp [untag_retag, untag] at hc'
      | sequence hc' ht' hlen' =>
          obtain rfl : items' = _ := by simpa [untag_retag, untag] using hc'
          exact .sequence hc (by rw [ht', retag_retag _ _ rfl]) (hlen'.trans hlen)

/-- Putting a child back in its place keeps the frame. -/
theorem Loses.sameFrame_setChild {t u rest : Tree} {s : Step} (h : t.Loses s u rest) (v : Tree) :
    t.SameFrame (t.setChild s v) := by
  cases h with
  | entry hc hk hpre =>
      rw [setChild_key hc, Entries.insert_of_find? hk hpre]
      exact .mapping hc rfl (by simp)
  | item hc =>
      rw [setChild_index hc]
      exact .sequence hc rfl (List.length_set ..)

theorem Leads.sameFrame_setChild {t c : Tree} {s : Step} (h : t.Leads s c) (v : Tree) :
    t.SameFrame (t.setChild s v) :=
  (loses_of_child? h.child?_eq).sameFrame_setChild v

/-- Above a change only values change: keys, lengths and tags stay. -/
theorem Reaches.set?_above {t t' u v w : Tree} {m : Location} {s : Step} {l : Location}
    (hm : Reaches t m w) (hl : Reaches t (m ++ s :: l) u)
    (h : t.set? (m ++ s :: l) v = some t') : ∃ w', Reaches t' m w' ∧ w.SameFrame w' := by
  induction hm generalizing t' with
  | here =>
      cases hl with
      | down hs hl =>
          rw [List.nil_append, hs.set?_cons] at h
          obtain ⟨c', hc', rfl⟩ := Option.map_eq_some_iff.mp h
          exact ⟨_, .here, hs.sameFrame_setChild c'⟩
  | down hr _ ih =>
      cases hl with
      | down hr' hl =>
          obtain ⟨-, rfl⟩ := hr.eq_of_same hr' (.refl _)
          rw [List.cons_append, hr.set?_cons] at h
          obtain ⟨c', hc', rfl⟩ := Option.map_eq_some_iff.mp h
          obtain ⟨w', hw', hframe⟩ := ih hl hc'
          exact ⟨w', .down (hr.setChild c') hw', hframe⟩

end Tree

end TreeEdit
