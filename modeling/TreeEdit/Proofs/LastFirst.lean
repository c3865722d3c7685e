import TreeEdit.Proofs.Rewrite

/-!
# Changes made one after the other, the last first

A verb notes places on a walk and then serves them one by one, the last one first. Serving a place
never moves the places before it, so the whole comes to a rewrite in one pass. There are two such
runs:

* over the sequences that were overrun, which a position fills up (`Pattern.extend_eq_rewrite`);
* over the matches, each served at its parent (`Pattern.serve_eq_rewrite`).

The second may start from the outcome of the first, although it goes by places noted before:
overrun sequences hold no match, so what the first run added is not among them. Both inductions go
over the document and meet the children of a node in `foldlM_reverse_flatMap`.
-/

namespace TreeEdit

/--
If serving the marks of each thing puts what it becomes in its place, whatever follows, then serving
all of them from the last to the first puts all of it together.
-/
theorem foldlM_reverse_flatMap {α β γ : Type} {f : Tree → α → Option Tree} {marks : γ → List α}
    {before : γ → β} {after : γ → Option (List β)} {xs : List γ} (build : List β → Tree)
    (pre : List β)
    (h : ∀ xs₁ x xs₂, xs = xs₁ ++ x :: xs₂ → ∀ post,
      (marks x).reverse.foldlM f (build (pre ++ xs₁.map before ++ before x :: post)) =
        (after x).map fun ys => build (pre ++ xs₁.map before ++ (ys ++ post))) :
    (xs.flatMap marks).reverse.foldlM f (build (pre ++ xs.map before)) =
      (collect after xs).map fun ys => build (pre ++ ys) := by
  induction xs generalizing pre with
  | nil => rfl
  | cons x xs ih =>
      -- the others are served first, with `x` still as it was in front of them
      have hrest := ih (pre ++ [before x]) fun xs₁ y xs₂ hxs post => by
        simpa using h (x :: xs₁) y xs₂ (by rw [hxs]; rfl) post
      have hfirst := h [] x xs rfl
      simp only [List.map_nil, List.append_nil] at hfirst
      rw [List.append_assoc, List.singleton_append] at hrest
      rw [List.flatMap_cons, List.reverse_append, List.foldlM_append, List.map_cons, hrest, collect]
      cases hys : collect after xs with
      | none => cases after x <;> rfl
      | some ys =>
          have := hfirst ys
          simp only [Option.map_some, List.append_assoc, List.singleton_append]
          rw [show (some (build (pre ++ before x :: ys)) >>= fun t =>
            (marks x).reverse.foldlM f t) = _ from this]
          cases after x <;> rfl

namespace Tree

/--
The place of a child in a node, at the end of a step. `put` gives the node with some values there:
a mapping holds each of them under the key of the step, a sequence holds all of them.
-/
inductive Slot : (s : Step) → (put : List Tree → Tree) → Prop where
  | entry (t : Tree) {k : Tree} {pre : Entries} (post : Entries) : (∀ e ∈ pre, ¬ k.Same e.1) →
      Slot (.key k) fun vs => t.retag (.mapping (pre ++ (vs.map (k, ·) ++ post)))
  | item (t : Tree) (pre post : List Tree) :
      Slot (.index pre.length) fun us => t.retag (.sequence (pre ++ (us ++ post)))

theorem Slot.leads {s : Step} {put : List Tree → Tree} (h : Slot s put) (v : Tree) :
    (put [v]).Leads s v := by
  cases h with
  | entry t post hpre =>
      exact .entry (by rw [untag_retag]; rfl) (Entries.lookup?_eq_some_iff.mpr ⟨_, post, rfl, hpre⟩)
  | item t pre post => exact .item (by rw [untag_retag]; rfl) (by simp)

theorem Slot.setChild {s : Step} {put : List Tree → Tree} (h : Slot s put) (v w : Tree) :
    (put [v]).setChild s w = put [w] := by
  cases h with
  | entry t post hpre =>
      simp only [List.map_cons, List.map_nil, List.singleton_append]
      rw [setChild_key (untag_retag ..), Entries.insert_of_lookup? hpre, retag_retag _ t rfl]
  | item t pre post =>
      simp only [List.singleton_append]
      rw [setChild_index (untag_retag ..), retag_retag _ t rfl]
      simp

/-- What is served below a child is served in the child. -/
theorem Slot.foldlM {α : Type} {s : Step} {put : List Tree → Tree} (h : Slot s put)
    {f : Tree → α → Option Tree} {shift : α → α} {as : List α}
    (hf : ∀ {t u : Tree} {a : α}, t.Leads s u → a ∈ as → f t (shift a) = (f u a).map (t.setChild s))
    (v : Tree) : (as.map shift).foldlM f (put [v]) = (as.foldlM f v).map fun w => put [w] := by
  induction as generalizing v with
  | nil => rfl
  | cons a as ih =>
      have hput : (put [v]).setChild s = fun w => put [w] := funext fun w => h.setChild v w
      have hrest := fun u => ih (fun ht ha => hf ht (List.mem_cons_of_mem _ ha)) u
      rw [List.map_cons, List.foldlM_cons, List.foldlM_cons, hf (h.leads v) (List.mem_cons_self ..),
        hput]
      cases f v a with
      | none => rfl
      | some u => exact hrest u

/-- The entries in front of an entry have other keys. -/
theorem not_same_of_split {es es₁ es₂ : Entries} {e : Tree × Tree} (h : es.Distinct)
    (hes : es = es₁ ++ e :: es₂) : ∀ e' ∈ es₁, ¬ e.1.Same e'.1 := by
  subst hes
  intro e' he' hsame
  exact (List.pairwise_append.mp h).2.2 e' he' e (List.mem_cons_self ..) hsame.symm

/-- The step to an item is its position. -/
theorem eq_index_of_split {items : List Tree} {xs₁ xs₂ : List (Step × Tree)} {x : Step × Tree}
    {i : Nat} (h : itemSteps i items = xs₁ ++ x :: xs₂) : x.1 = .index (i + xs₁.length) := by
  induction xs₁ generalizing i items with
  | nil =>
      cases items with
      | nil => cases h
      | cons t items =>
          obtain ⟨rfl, -⟩ := List.cons.inj h
          rfl
  | cons y xs₁ ih =>
      cases items with
      | nil => cases h
      | cons t items =>
          obtain ⟨-, h⟩ := List.cons.inj h
          rw [ih h, List.length_cons, Nat.add_assoc, Nat.add_comm 1]

/--
**Serving a node child by child, the last child first.** It may start from a node in which every
child has been replaced by another value already.
-/
theorem foldlM_children {α : Type} {f : Tree → α → Option Tree} {marks : Step × Tree → List α}
    {before : Step × Tree → Tree} {after : Step × Tree → Option (List Tree)} {t t' : Tree}
    (hd : t.entries.Distinct) (ht : t.rebuild (fun e => some [before e]) = some t')
    (h : ∀ e ∈ t.children, ∀ put, Slot e.1 put →
      (marks e).reverse.foldlM f (put [before e]) = (after e).map put) :
    (t.children.flatMap marks).reverse.foldlM f t' = t.rebuild after := by
  rcases t.untag_cases with ⟨es, hc⟩ | ⟨items, hc⟩ | hc
  · rw [entries_of_untag hc] at hd
    have hbefore : entryAfter (fun e => some [before e])
        = fun e => some [(e.1, before (.key e.1, e.2))] := rfl
    rw [rebuild_of_mapping hc, hbefore, collect_singletons] at ht
    obtain rfl := Option.some.inj ht
    rw [children_of_untag hc] at h ⊢
    rw [rebuild_of_mapping hc, children, entrySteps, List.flatMap_map]
    refine foldlM_reverse_flatMap (fun es => t.retag (.mapping es)) []
      fun es₁ e es₂ hes post => ?_
    have hmem : (.key e.1, e.2) ∈ entrySteps es := mem_entrySteps.mpr ⟨e.1, rfl, by simp [hes]⟩
    have hpre : ∀ e' ∈ es₁.map fun e => (e.1, before (.key e.1, e.2)), ¬ e.1.Same e'.1 := by
      intro e' he'
      obtain ⟨e₁, he₁, rfl⟩ := List.mem_map.mp he'
      exact not_same_of_split hd hes e₁ he₁
    rw [entryAfter, Option.map_map]
    exact h _ hmem _ (.entry t post hpre)
  · rw [rebuild_of_sequence hc, collect_singletons] at ht
    obtain rfl := Option.some.inj ht
    rw [children_of_untag hc] at h ⊢
    rw [rebuild_of_sequence hc, children]
    refine foldlM_reverse_flatMap (fun items => t.retag (.sequence items)) []
      fun xs₁ e xs₂ hxs post => ?_
    have hslot := Slot.item t (xs₁.map before) post
    rw [List.length_map, ← Nat.zero_add xs₁.length, ← eq_index_of_split hxs] at hslot
    have hmem : e ∈ itemSteps 0 items := by simp [hxs]
    exact h e hmem _ hslot
  · rw [rebuild_of_isScalar hc] at ht ⊢
    rw [children_eq_nil_of_isScalar hc]
    exact ht.symm

theorem rebuild_self (t : Tree) : t.rebuild (fun e => some [e.2]) = some t := by
  have hitems : ∀ (items : List Tree) (i : Nat), (itemSteps i items).map Prod.snd = items := by
    intro items
    induction items with
    | nil => exact fun _ => rfl
    | cons t items ih =>
        intro i
        rw [itemSteps, List.map_cons, ih]
  rcases t.untag_cases with ⟨es, hc⟩ | ⟨items, hc⟩ | hc
  · have hentry : entryAfter (fun e => some [e.2]) = fun e => some [e] := rfl
    rw [rebuild_of_mapping hc, hentry, collect_singletons (fun e => e), List.map_id',
      Option.map_some, ← hc, retag_untag]
  · rw [rebuild_of_sequence hc, collect_singletons, hitems, Option.map_some, ← hc, retag_untag]
  · exact rebuild_of_isScalar hc

end Tree

/-! ## The places to serve, child by child -/

/-- The stub seen from one step further up. -/
def Stub.under (s : Step) (r : Stub) : Stub := { r with location := s :: r.location }

namespace Pattern

variable (p : Pattern)

/-- The places below a node that match, in document order. -/
def finds (c : Cursor) (t : Tree) : List Visit := (p.visits c t.descendants).filter p.hits

/-- The places at and below a child that match. Nothing lies below a match. -/
def findsOfChild (c : Cursor) (e : Step × Tree) : List Visit :=
  match p.step? c e.1 with
  | none => []
  | some c' =>
    if p.hits ⟨[], e.2, c'⟩ then [⟨[e.1], e.2, c'⟩] else (p.finds c' e.2).map (Visit.under e.1)

/-- The locations below a node that match, in document order. -/
def targets (c : Cursor) (t : Tree) : List Location :=
  ((p.visits c t.descendants).filter p.hits).map Visit.location

/-- The matches at and below a child. -/
def targetsOfChild (c : Cursor) (e : Step × Tree) : List Location :=
  match p.step? c e.1 with
  | none => []
  | some c' => if p.hits ⟨[], e.2, c'⟩ then [[e.1]] else (p.targets c' e.2).map (e.1 :: ·)

/-- The sequences at and below a node that are overrun, in document order. -/
def overrunStubs (c : Cursor) (t : Tree) : List Stub :=
  ((p.visits c t.nodes).filter p.overruns).map (stub [])

/-- The sequences at and below a child that are overrun. -/
def overrunStubsOfChild (c : Cursor) (e : Step × Tree) : List Stub :=
  match p.step? c e.1 with
  | none => []
  | some c' => (p.overrunStubs c' e.2).map (Stub.under e.1)

theorem finds_eq (c : Cursor) (t : Tree) :
    p.finds c t = t.children.flatMap (p.findsOfChild c) := by
  rw [finds, visits_descendants, List.filter_flatMap]
  refine List.flatMap_congr fun e _ => ?_
  unfold visitsOfChild findsOfChild
  cases p.step? c e.1 with
  | none => rfl
  | some c' =>
      have hunder : p.hits ∘ Visit.under e.1 = p.hits := rfl
      simp only [List.filter_map, hunder, visits_nodes]
      by_cases hhit : p.hits ⟨[], e.2, c'⟩ = true
      · have hnone : p.visits c' e.2.descendants = [] := p.visits_descendants_of_hits hhit
        simp [hhit, hnone, Visit.under]
      · rw [List.filter_cons_of_neg hhit, if_neg hhit]
        rfl

theorem targets_eq (c : Cursor) (t : Tree) :
    p.targets c t = t.children.flatMap (p.targetsOfChild c) := by
  rw [show p.targets c t = (p.finds c t).map Visit.location from rfl, finds_eq, List.map_flatMap]
  refine List.flatMap_congr fun e _ => ?_
  unfold findsOfChild targetsOfChild
  cases p.step? c e.1 with
  | none => rfl
  | some c' =>
      simp only
      split
      · rfl
      · rw [targets, List.map_map, List.map_map]
        rfl

theorem overrunStubs_eq (c : Cursor) (t : Tree) : p.overrunStubs c t =
    if p.overruns ⟨[], t, c⟩ then [⟨[], c⟩] else t.children.flatMap (p.overrunStubsOfChild c) := by
  have hbelow : ((p.visits c t.descendants).filter p.overruns).map (stub []) =
      t.children.flatMap (p.overrunStubsOfChild c) := by
    rw [visits_descendants, List.filter_flatMap, List.map_flatMap]
    refine List.flatMap_congr fun e _ => ?_
    unfold visitsOfChild overrunStubsOfChild
    cases p.step? c e.1 with
    | none => rfl
    | some c' =>
        have hunder : p.overruns ∘ Visit.under e.1 = p.overruns := rfl
        simp only [List.filter_map, hunder, List.map_map, overrunStubs]
        rfl
  rw [overrunStubs, visits_nodes]
  split
  · rename_i hover
    have hdead : p.visits c t.descendants = [] := p.visits_descendants_of_overruns hover
    simp [hover, hdead, stub]
  · rename_i hover
    rw [List.filter_cons_of_neg hover, hbelow]

end Pattern

/-! ## What serving one place does -/

namespace Edit

/-- The edit that only extends overrun sequences. -/
def extending (ed : Edit) : Edit := { ed with matched := fun _ t => some [t] }

/-- A change at a location puts what the edit says in the place of the child there. -/
structure Serves (ed : Edit) (f : Tree → Location → Option Tree) : Prop where
  inside : ∀ {t u : Tree} {s : Step} {l : Location}, t.Leads s u → l ≠ [] →
    f t (s :: l) = (f u l).map (t.setChild s)
  here : ∀ {s : Step} {put : List Tree → Tree} (u : Tree), Tree.Slot s put →
    f (put [u]) [s] = (ed.matched s u).map put

/-- A change at a stub makes of an overrun sequence what the edit says. -/
structure Extends (ed : Edit) (p : Pattern) (f : Tree → Stub → Option Tree) : Prop where
  inside : ∀ {t u : Tree} {s : Step} (r : Stub), t.Leads s u →
    f t (r.under s) = (f u r).map (t.setChild s)
  here : ∀ {t : Tree} {items : List Tree} {c : Cursor} {n : Nat}, t.untag = .sequence items →
    p.past? c items.length = some n →
    f t ⟨[], c⟩ = (ed.overrun n (p.segments.drop (c.pos + 1)) items).map fun items' =>
      t.retag (.sequence items')

end Edit

/-! ## Serving all of them is a rewrite -/

namespace Pattern

variable {p : Pattern} {ed : Edit}

/-- A match is not overrun, and nothing lies below it. -/
theorem overrunStubs_of_hits {c : Cursor} {t : Tree} (h : p.hits ⟨[], t, c⟩ = true) :
    p.overrunStubs c t = [] := by
  have hnone : p.visits c t.descendants = [] := p.visits_descendants_of_hits h
  have hover : ¬ p.overruns ⟨[], t, c⟩ = true := by
    intro hover
    obtain ⟨items, n, hc, hpast⟩ := p.exists_past_of_overruns hover
    rw [p.past?_of_hits h hc] at hpast
    cases hpast
  rw [overrunStubs, visits_nodes, hnone, List.filter_cons_of_neg hover]
  rfl

/-- **Extending the overrun sequences from the last to the first is a rewrite.** -/
theorem extend_eq_rewrite {f : Tree → Stub → Option Tree} (hf : ed.Extends p f) {t : Tree}
    (hd : t.DistinctKeys) (c : Cursor) :
    (p.overrunStubs c t).reverse.foldlM f t = p.rewrite ed.extending c t := by
  induction t using Tree.childInduction generalizing c with
  | step t ih =>
    rw [p.overrunStubs_eq]
    split
    · rename_i hover
      obtain ⟨items, n, hc, hpast⟩ := p.exists_past_of_overruns hover
      rw [p.rewrite_of_past ed.extending c hpast hc]
      simp [hf.here hc hpast, Edit.extending]
    · rename_i hover
      rw [p.rewrite_eq_rebuild ed.extending c hover]
      refine Tree.foldlM_children hd.entries t.rebuild_self fun e he put hslot => ?_
      unfold overrunStubsOfChild rewriteChild
      cases p.step? c e.1 with
      | none => rfl
      | some c' =>
          simp only
          split
          · rename_i hhit
            rw [overrunStubs_of_hits hhit]
            rfl
          · rw [← List.map_reverse, hslot.foldlM (fun ht _ => hf.inside _ ht),
              ih e.1 e.2 he (hd.child he) c', Option.map_map]
            rfl

/-- What a child is once the overrun sequences have been extended. -/
def extendChild (p : Pattern) (ed : Edit) (c : Cursor) (e : Step × Tree) : Option Tree :=
  match p.step? c e.1 with
  | none => some e.2
  | some c' => if p.hits ⟨[], e.2, c'⟩ then some e.2 else p.rewrite ed.extending c' e.2

theorem rewriteChild_extending (c : Cursor) (e : Step × Tree) :
    p.rewriteChild ed.extending c e = (p.extendChild ed c e).map ([·]) := by
  unfold rewriteChild extendChild
  cases p.step? c e.1 with
  | none => rfl
  | some c' =>
      simp only
      split <;> rfl

theorem targets_of_overruns {c : Cursor} {t : Tree} (h : p.overruns ⟨[], t, c⟩ = true) :
    p.targets c t = [] := by
  rw [targets_eq, List.flatMap_eq_nil_iff]
  intro e he
  rw [targetsOfChild, show p.step? c e.1 = none from p.step?_of_overruns h he]

/-- What cannot be extended cannot be rewritten either. -/
theorem rewriteChild_eq_none {c : Cursor} {e : Step × Tree}
    (ih : ∀ c', p.rewrite ed.extending c' e.2 = none → p.rewrite ed c' e.2 = none)
    (h : p.extendChild ed c e = none) : p.rewriteChild ed c e = none := by
  unfold extendChild at h
  unfold rewriteChild
  cases hstep : p.step? c e.1 with
  | none => rw [hstep] at h; cases h
  | some c' =>
      rw [hstep] at h
      simp only at h ⊢
      by_cases hhit : p.hits ⟨[], e.2, c'⟩ = true
      · rw [if_pos hhit] at h
        cases h
      · rw [if_neg hhit] at h ⊢
        rw [ih c' h]
        rfl

/-- The matches at and below a child are served in its slot. -/
theorem serve_child {f : Tree → Location → Option Tree} (hf : ed.Serves f) {c : Cursor}
    {e : Step × Tree} {put : List Tree → Tree} (hslot : Tree.Slot e.1 put) {v : Tree}
    (ih : ∀ c', p.rewrite ed.extending c' e.2 = some v →
      (p.targets c' e.2).reverse.foldlM f v = p.rewrite ed c' e.2)
    (hv : p.extendChild ed c e = some v) :
    (p.targetsOfChild c e).reverse.foldlM f (put [v]) = (p.rewriteChild ed c e).map put := by
  unfold extendChild at hv
  unfold targetsOfChild rewriteChild
  cases hstep : p.step? c e.1 with
  | none =>
      rw [hstep] at hv
      obtain rfl := Option.some.inj hv
      rfl
  | some c' =>
      rw [hstep] at hv
      simp only at hv ⊢
      by_cases hhit : p.hits ⟨[], e.2, c'⟩ = true
      · rw [if_pos hhit] at hv
        obtain rfl := Option.some.inj hv
        rw [if_pos hhit, if_pos hhit]
        simpa using hf.here e.2 hslot
      · rw [if_neg hhit] at hv
        have hinside : ∀ {t u : Tree} {l : Location}, t.Leads e.1 u →
            l ∈ (p.targets c' e.2).reverse → f t (e.1 :: l) = (f u l).map (t.setChild e.1) := by
          intro t u l ht hl
          obtain ⟨w, hw, rfl⟩ := List.mem_map.mp (List.mem_reverse.mp hl)
          have hnode := (p.mem_visits.mp (List.mem_filter.mp hw).1).1
          exact hf.inside ht (Tree.ne_nil_of_mem_descendants hnode)
        rw [if_neg hhit, if_neg hhit, ← List.map_reverse, hslot.foldlM hinside, ih c' hv,
          Option.map_map]
        rfl

/--
**Serving the matches from the last to the first is a rewrite**, and it may come after the overrun
sequences have been extended.
-/
theorem serve_eq_rewrite {f : Tree → Location → Option Tree} (hf : ed.Serves f) {t : Tree}
    (hd : t.DistinctKeys) (c : Cursor) :
    ((p.rewrite ed.extending c t).bind fun t' => (p.targets c t).reverse.foldlM f t') =
      p.rewrite ed c t := by
  induction t using Tree.childInduction generalizing c with
  | step t ih =>
    cases hover : p.overruns ⟨[], t, c⟩ with
    | true =>
        obtain ⟨items, n, hc, hpast⟩ := p.exists_past_of_overruns hover
        rw [targets_of_overruns hover, p.rewrite_of_past ed.extending c hpast hc,
          p.rewrite_of_past ed c hpast hc]
        simp [Edit.extending]
    | false =>
        have hnot : ¬ p.overruns ⟨[], t, c⟩ = true := by simp [hover]
        rw [p.rewrite_eq_rebuild ed.extending c hnot, p.rewrite_eq_rebuild ed c hnot, p.targets_eq]
        cases ht' : t.rebuild (p.rewriteChild ed.extending c) with
        | none =>
            obtain ⟨e, he, hnone⟩ := Tree.rebuild_eq_none_iff.mp ht'
            rw [rewriteChild_extending, Option.map_eq_none_iff] at hnone
            have hchild := rewriteChild_eq_none (fun c' h => by
              rw [← ih e.1 e.2 he (hd.child he) c', h]
              rfl) hnone
            exact (Tree.rebuild_eq_none_iff.mpr ⟨e, he, hchild⟩).symm
        | some t' =>
            have hsome : ∀ e ∈ t.children,
                p.extendChild ed c e = some ((p.extendChild ed c e).getD e.2) := by
              intro e he
              cases hext : p.extendChild ed c e with
              | some v => rfl
              | none =>
                  have : t.rebuild (p.rewriteChild ed.extending c) = none :=
                    Tree.rebuild_eq_none_iff.mpr ⟨e, he, by rw [rewriteChild_extending, hext]; rfl⟩
                  rw [ht'] at this
                  cases this
            have hbefore :
                t.rebuild (fun e => some [(p.extendChild ed c e).getD e.2]) = some t' := by
              rw [← ht']
              refine Tree.rebuild_congr fun e he => ?_
              rw [rewriteChild_extending, hsome e he]
              rfl
            refine Tree.foldlM_children hd.entries hbefore fun e he put hslot => ?_
            refine serve_child hf hslot (fun c' h => ?_) (hsome e he)
            rw [← ih e.1 e.2 he (hd.child he) c', h, Option.bind_some]

end Pattern

end TreeEdit
