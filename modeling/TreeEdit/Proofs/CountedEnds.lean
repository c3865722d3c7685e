import TreeEdit.Proofs.Brackets

/-!
# Ends found by counting

`matchingEnd` counts brackets with a depth that goes up and down. What it finds is said here without
that depth: from a `foreach` it finds the first position behind it up to which there are as many
`end` as `foreach` lines (`FirstEven`), whether the lines are balanced or not. The step is that the
depth of the scan stands for the `foreach` lines before it that are still open, so that each line
shifts the count by one (`asMany_cons_foreach`, `asMany_cons_end`).

The line where the search starts is not looked at before the count is: from an `end` it is already
even, and the `end` is found to close itself (`matchingEnd_of_isEnd`).
-/

namespace TreeEdit.Script

/-- There are as many `end` lines as `foreach` lines, `depth` more of the latter standing before. -/
def AsMany (depth : Nat) (ls : List Line) : Prop :=
  depth + ls.countP Line.isForeach = ls.countP Line.isEnd

/-- The lines from one position to another, both of them included. -/
def upTo (ls : List Line) (i e : Nat) : List Line := (ls.drop i).take (e + 1 - i)

/--
The lines from `i` to `e` hold as many `end` as `foreach` lines, and `e` is the smallest position
above `i` with this property.
-/
structure FirstEven (ls : List Line) (i e : Nat) : Prop where
  above : i < e
  inside : e < ls.length
  even : AsMany 0 (upTo ls i e)
  first : ∀ k, i < k → k < e → ¬ AsMany 0 (upTo ls i k)

/-! ## The count of a scan -/

section

variable {depth : Nat} {l : Line}

theorem asMany_cons_foreach (hf : l.isForeach = true) (ls : List Line) :
    AsMany depth (l :: ls) ↔ AsMany (depth + 1) ls := by
  have he : l.isEnd = false := by
    cases he : l.isEnd with
    | true => exact absurd hf (by simp [Line.not_isForeach_of_isEnd he])
    | false => rfl
  simp only [AsMany, List.countP_cons, hf, he, if_true, Bool.false_eq_true, if_false]
  omega

theorem asMany_cons_end (he : l.isEnd = true) (ls : List Line) :
    AsMany (depth + 1) (l :: ls) ↔ AsMany depth ls := by
  have hf := Line.not_isForeach_of_isEnd he
  simp only [AsMany, List.countP_cons, hf, he, if_true, Bool.false_eq_true, if_false]
  omega

theorem asMany_cons_plain (hf : l.isForeach = false) (he : l.isEnd = false) (ls : List Line) :
    AsMany depth (l :: ls) ↔ AsMany depth ls := by
  simp [AsMany, hf, he]

theorem not_asMany_nil : ¬ AsMany (depth + 1) [] := by simp [AsMany]

end

/-- The line at `k` is the first one up to which, it included, the count is even. -/
def FirstAt (depth : Nat) (ls : List Line) (k : Nat) : Prop :=
  k < ls.length ∧ AsMany depth (ls.take (k + 1)) ∧ ∀ j < k, ¬ AsMany depth (ls.take (j + 1))

/-- A line that leaves loops open is not the first one, and only shifts the count. -/
theorem firstAt_cons {depth depth' : Nat} {l : Line}
    (hcount : ∀ more, AsMany depth (l :: more) ↔ AsMany (depth' + 1) more) (ls : List Line)
    (k : Nat) : FirstAt depth (l :: ls) k ↔ ∃ k', k = k' + 1 ∧ FirstAt (depth' + 1) ls k' := by
  have hopen : ¬ AsMany depth [l] := by
    rw [hcount]
    exact not_asMany_nil
  constructor
  · rintro ⟨hk, heven, hfirst⟩
    cases k with
    | zero => exact absurd heven hopen
    | succ k =>
        refine ⟨k, rfl, Nat.lt_of_succ_lt_succ hk, (hcount _).mp heven, fun j hj hj' => ?_⟩
        exact hfirst (j + 1) (Nat.succ_lt_succ hj) ((hcount _).mpr hj')
  · rintro ⟨k, rfl, hk, heven, hfirst⟩
    refine ⟨Nat.succ_lt_succ hk, (hcount _).mpr heven, fun j hj => ?_⟩
    cases j with
    | zero => exact hopen
    | succ j => exact fun hj' => hfirst j (Nat.lt_of_succ_lt_succ hj) ((hcount _).mp hj')

/-- The `end` of the last open loop is the first one. -/
theorem firstAt_one_cons_end {l : Line} (he : l.isEnd = true) (ls : List Line) (k : Nat) :
    FirstAt 1 (l :: ls) k ↔ k = 0 := by
  have hzero : AsMany 1 [l] := (asMany_cons_end he []).mpr rfl
  constructor
  · rintro ⟨-, -, hfirst⟩
    cases k with
    | zero => rfl
    | succ k => exact absurd hzero (hfirst 0 (Nat.succ_pos k))
  · rintro rfl
    exact ⟨Nat.succ_pos _, hzero, fun j hj => absurd hj (Nat.not_lt_zero j)⟩

/-- **A scan with loops open finds the first line where the count is even.** -/
theorem scanEnd_eq_some_iff (depth i e : Nat) (ls : List Line) :
    scanEnd (depth + 1) i ls = some e ↔ ∃ k, e = i + k ∧ FirstAt (depth + 1) ls k := by
  induction ls generalizing depth i with
  | nil => simp [scanEnd, FirstAt]
  | cons l ls ih =>
      -- a line that leaves loops open hands the search on to the lines behind it
      have hrest {depth' : Nat}
          (hcount : ∀ more, AsMany (depth + 1) (l :: more) ↔ AsMany (depth' + 1) more) :
          scanEnd (depth' + 1) (i + 1) ls = some e ↔
            ∃ k, e = i + k ∧ FirstAt (depth + 1) (l :: ls) k := by
        simp only [ih, firstAt_cons hcount]
        constructor
        · rintro ⟨k, rfl, hk⟩
          exact ⟨k + 1, by omega, k, rfl, hk⟩
        · rintro ⟨-, rfl, k, rfl, hk⟩
          exact ⟨k, by omega, hk⟩
      rw [scanEnd]
      split
      · rename_i hf
        exact hrest (asMany_cons_foreach hf)
      · rename_i hf
        split
        · rename_i he
          cases depth with
          | zero => simp [firstAt_one_cons_end he, eq_comm]
          | succ depth =>
              rw [if_neg (by omega)]
              exact hrest (asMany_cons_end he)
        · rename_i he
          rw [if_neg (by omega)]
          exact hrest (asMany_cons_plain (by simpa using hf) (by simpa using he))

/-! ## The search from a line -/

/-- From a `foreach`, the search finds the first position with as many ends. -/
theorem matchingEnd_of_isForeach {ls : List Line} {i e : Nat} {l : Line} (hl : ls[i]? = some l)
    (hf : l.isForeach = true) : matchingEnd ls i = .ok e ↔ FirstEven ls i e := by
  obtain ⟨hi, rfl⟩ := List.getElem?_eq_some_iff.mp hl
  have hdrop := List.drop_eq_getElem_cons hi
  have hcount (k : Nat) : AsMany 0 (upTo ls i (i + 1 + k)) ↔
      AsMany 1 ((ls.drop (i + 1)).take (k + 1)) := by
    rw [upTo, show i + 1 + k + 1 - i = k + 1 + 1 by omega, hdrop, List.take_succ_cons,
      asMany_cons_foreach hf]
  have hscan : matchingEnd ls i = .ok e ↔ scanEnd 1 (i + 1) (ls.drop (i + 1)) = some e := by
    rw [matchingEnd, hdrop, scanEnd, if_pos hf]
    cases scanEnd (0 + 1) (i + 1) (ls.drop (i + 1)) <;> simp
  rw [hscan, scanEnd_eq_some_iff]
  constructor
  · rintro ⟨k, rfl, hk, heven, hfirst⟩
    rw [List.length_drop] at hk
    refine ⟨by omega, by omega, (hcount k).mpr heven, fun j hij hj => ?_⟩
    obtain ⟨j, rfl⟩ := Nat.exists_eq_add_of_lt hij
    rw [show i + j + 1 = i + 1 + j by omega, hcount]
    exact hfirst j (by omega)
  · rintro ⟨habove, hinside, heven, hfirst⟩
    obtain ⟨k, rfl⟩ := Nat.exists_eq_add_of_lt habove
    rw [show i + k + 1 = i + 1 + k by omega] at *
    refine ⟨k, rfl, by rw [List.length_drop]; omega, (hcount k).mp heven, fun j hj => ?_⟩
    rw [← hcount]
    exact hfirst (i + 1 + j) (by omega) (by omega)

/-- Behind the last line there is nothing to find. -/
theorem matchingEnd_of_none {ls : List Line} {i : Nat} (h : ls[i]? = none) :
    matchingEnd ls i = .error (grammar 0 .unclosedForeach) := by
  rw [matchingEnd, List.drop_eq_nil_of_le (List.getElem?_eq_none_iff.mp h), h]
  rfl

/-- Every refusal names the line where the search starts. -/
theorem matchingEnd_error {ls : List Line} {i : Nat} {error : Error}
    (h : matchingEnd ls i = .error error) :
    error = grammar ((ls[i]?).elim 0 Line.number) .unclosedForeach := by
  unfold matchingEnd at h
  split at h
  · cases h
  · exact (Except.error.inj h).symm

/-- What the search finds, from every line. -/
theorem matchingEnd_ok_iff {ls : List Line} {i e : Nat} : matchingEnd ls i = .ok e ↔
    (HasAt Line.isForeach ls i ∧ FirstEven ls i e) ∨ (HasAt Line.isEnd ls i ∧ e = i) := by
  cases hl : ls[i]? with
  | none =>
      have hno (kind : Line → Bool) : ¬ HasAt kind ls i := by
        rintro ⟨l, hl', -⟩
        rw [hl] at hl'
        cases hl'
      simp [matchingEnd_of_none hl, hno]
  | some l =>
      have hat (kind : Line → Bool) : HasAt kind ls i ↔ kind l = true := by simp [HasAt, hl]
      rw [hat, hat]
      cases he : l.isEnd with
      | true =>
          rw [matchingEnd_of_isEnd hl he, Line.not_isForeach_of_isEnd he]
          simp [eq_comm]
      | false =>
          cases hf : l.isForeach with
          | true => simp [matchingEnd_of_isForeach hl hf]
          | false => simp [matchingEnd_of_plain hl hf he]

/--
**Where the search for the end of a loop comes out**, for all lines and every start. From a
`foreach` it is the first position above up to which the lines hold as many ends as `foreach`
lines, and from an `end` it is that line itself. In every other case the search is refused with the
number of the line where it starts, or 0 if there is none.
-/
theorem matchingEnd_iff (ls : List Line) (start : Nat) :
    (∀ e, matchingEnd ls start = .ok e ↔
      (HasAt Line.isForeach ls start ∧ FirstEven ls start e) ∨
        (HasAt Line.isEnd ls start ∧ e = start)) ∧
      ∀ error, matchingEnd ls start = .error error ↔
        error = grammar ((ls[start]?).elim 0 Line.number) .unclosedForeach ∧
          ¬ HasAt Line.isEnd ls start ∧
            ∀ e, ¬ (HasAt Line.isForeach ls start ∧ FirstEven ls start e) := by
  refine ⟨fun e => matchingEnd_ok_iff, fun error => ⟨fun h => ?_, ?_⟩⟩
  · have hno (e : Nat) : ¬ matchingEnd ls start = .ok e := by simp [h]
    simp only [matchingEnd_ok_iff, not_or] at hno
    exact ⟨matchingEnd_error h, fun hend => (hno start).2 ⟨hend, rfl⟩, fun e => (hno e).1⟩
  · rintro ⟨rfl, hend, hfirst⟩
    cases h : matchingEnd ls start with
    | ok e =>
        rcases matchingEnd_ok_iff.mp h with hfound | ⟨hend', -⟩
        · exact absurd hfound (hfirst e)
        · exact absurd hend' hend
    | error error => rw [matchingEnd_error h]

/-- An `end` on its own is found to close itself, though it is no `foreach`. -/
theorem matchingEnd_from_end : matchingEnd [⟨1, "end"⟩] 0 = .ok 0 ∧
    ¬ (HasAt Line.isForeach [⟨1, "end"⟩] 0 ∧ FirstEven [⟨1, "end"⟩] 0 0) :=
  ⟨matchingEnd_of_isEnd rfl (by decide +kernel), fun h => Nat.lt_irrefl 0 h.2.above⟩

end TreeEdit.Script
