import Mathlib.Data.List.Forall2

/-!
# Steps that may fail

Everything that can go wrong goes wrong in `Except`, so proofs about a result take the same two
things apart again and again: one step after another, and one step for every item of a list. A step
sequence succeeds if every step does (`bind_eq_ok_iff`, `forall₂_of_mapM`), and fails with the first
fault (`fault?_bind`, `fault?_mapM`).
-/

namespace TreeEdit

/-- Two steps succeed if the first does and then the second. -/
theorem bind_eq_ok_iff {step : Except ε α} {next : α → Except ε β} {b : β} :
    (step >>= next) = .ok b ↔ ∃ a, step = .ok a ∧ next a = .ok b := by
  cases step with
  | error e => simp [bind, Except.bind]
  | ok a => simp [bind, Except.bind]

theorem map_eq_ok_iff {f : α → β} {step : Except ε α} {b : β} :
    step.map f = .ok b ↔ ∃ a, step = .ok a ∧ f a = b := by
  cases step with
  | error e => simp [Except.map]
  | ok a => simp [Except.map]

/-- Steps for no item succeed, with what there was before. -/
theorem ok_eq_ok_iff_of_nil {P : α → Prop} {before after : β} :
    (.ok before : Except ε β) = .ok after ↔ (∀ x ∈ ([] : List α), P x) ∧ after = before := by
  rw [Except.ok.injEq]
  constructor
  · intro h
    exact ⟨fun x hx => absurd hx List.not_mem_nil, h.symm⟩
  · intro h
    exact h.2.symm

/-- The failure of a step, if it fails. -/
def fault? : Except ε α → Option ε
  | .ok _ => none
  | .error e => some e

theorem fault?_eq_some_iff {step : Except ε α} {e : ε} :
    fault? step = some e ↔ step = .error e := by
  cases step <;> simp [fault?]

theorem fault?_eq_none_iff {step : Except ε α} : fault? step = none ↔ ∃ a, step = .ok a := by
  cases step <;> simp [fault?]

theorem fault?_map (f : α → β) (step : Except ε α) : fault? (step.map f) = fault? step := by
  cases step <;> rfl

theorem fault?_bind_pure (f : α → β) (step : Except ε α) :
    fault? (do return f (← step)) = fault? step := by
  cases step <;> rfl

/-- Two steps fail where the first does, and else where the second does. -/
theorem fault?_bind {step : Except ε α} {next : α → Except ε β} {fault : Option ε}
    (h : ∀ a, fault? (next a) = fault) : fault? (step >>= next) = (fault? step).or fault := by
  cases step with
  | error e => rfl
  | ok a => exact h a

/-- A list fails where its first item does that fails. -/
theorem fault?_mapM (f : α → Except ε β) (xs : List α) :
    fault? (xs.mapM f) = xs.findSome? fun x => fault? (f x) := by
  induction xs with
  | nil => rfl
  | cons x xs ih =>
      rw [List.mapM_cons, fault?_bind (fun b => fault?_bind_pure (b :: ·) (xs.mapM f)), ih,
        List.findSome?_cons]
      cases fault? (f x) <;> rfl

/-- If no item fails, the list is that of the results. -/
theorem mapM_eq_ok {f : α → Except ε β} {g : α → β} {xs : List α}
    (h : ∀ x ∈ xs, f x = .ok (g x)) : xs.mapM f = .ok (xs.map g) := by
  induction xs with
  | nil => rfl
  | cons x xs ih =>
      obtain ⟨hx, hxs⟩ := List.forall_mem_cons.mp h
      rw [List.mapM_cons, hx, ih hxs]
      rfl

/-- Steps for every item give what they give for each. -/
theorem forall₂_of_mapM {f : α → Except ε β} {xs : List α} {ys : List β} (h : xs.mapM f = .ok ys) :
    List.Forall₂ (fun x y => f x = .ok y) xs ys := by
  induction xs generalizing ys with
  | nil =>
      cases h
      exact .nil
  | cons x xs ih =>
      rw [List.mapM_cons] at h
      obtain ⟨y, hy, h⟩ := bind_eq_ok_iff.mp h
      obtain ⟨ys', hys, h⟩ := bind_eq_ok_iff.mp h
      cases h
      exact .cons hy (ih hys)

theorem mapM_congr {f g : α → Except ε β} {xs : List α} (h : ∀ x ∈ xs, f x = g x) :
    xs.mapM f = xs.mapM g := by
  induction xs with
  | nil => rfl
  | cons x xs ih =>
      obtain ⟨hx, hxs⟩ := List.forall_mem_cons.mp h
      rw [List.mapM_cons, List.mapM_cons, hx, ih hxs]

end TreeEdit
