import Mathlib.Tactic.Linarith
import Mathlib.Tactic.Ring
import TreeEdit.Number.Shortest
import TreeEdit.Proofs.Digits

/-!
# Numbers near a binary64 number round to it

`m.Rounds num den` says that the quotient, in units of `2 ^ -1074`, lies in the interval of the
reals that round to the magnitude `m`: half a step away at most, a quarter below a power of two, the
ends included when the mantissa is even. All of it is comparison of naturals, and it depends on the
quotient alone (`Magnitude.Rounds.congr`).

* Rounding gives `m` for every such quotient (`Magnitude.ofRatio?_of_rounds`), and so does reading
  decimal digits (`Double.ofDecimal_of_rounds`).
* The fewest digits of `m` are such a quotient (`Magnitude.rounds_shortest`): each grid point that
  the search accepts lies in the interval, and the search ends, since the interval is wider than the
  grid of twenty digits.

Together they say that the fewest digits read back.
-/

namespace TreeEdit

namespace Magnitude

/-! ## Rounding a quotient -/

/-- A quotient rounds to a number that is half a unit away at most, an odd one less. -/
theorem roundRatio_eq {num den m : Nat} (hden : 0 < den) (hlow : 2 * (m * den) ≤ 2 * num + den)
    (hhigh : 2 * num ≤ 2 * (m * den) + den)
    (hodd : m % 2 = 1 → 2 * (m * den) < 2 * num + den ∧ 2 * num < 2 * (m * den) + den) :
    roundRatio num den = m := by
  have hdiv : num / den * den + num % den = num := Nat.div_add_mod' num den
  have hmod : num % den < den := Nat.mod_lt _ hden
  have hle : num / den ≤ m := by
    by_contra h
    have := Nat.mul_le_mul_right den (show m + 1 ≤ num / den by omega)
    rw [Nat.add_mul, Nat.one_mul] at this
    omega
  have hge : m ≤ num / den + 1 := by
    by_contra h
    have := Nat.mul_le_mul_right den (show num / den + 2 ≤ m by omega)
    rw [Nat.add_mul] at this
    omega
  unfold roundRatio
  obtain rfl | rfl : m = num / den ∨ m = num / den + 1 := by omega
  · simp only []
    split
    · rfl
    · split
      · omega
      · split <;> omega
  · rw [Nat.add_mul, Nat.one_mul] at hlow hhigh hodd
    simp only []
    split
    · omega
    · split
      · rfl
      · split <;> omega

/-- How far below a magnitude reals round to it, in quarter units. -/
def below (m : Magnitude) : Nat :=
  if m.mantissa = Nat.pow 2 52 && m.scale ≠ 0 then Nat.pow 2 m.scale else 2 * Nat.pow 2 m.scale

/-- The quotient, in units of `2 ^ -1074`, rounds to the magnitude. -/
structure Rounds (m : Magnitude) (num den : Nat) : Prop where
  pos : 0 < den
  low : 4 * m.units * den ≤ 4 * num + m.below * den
  high : 4 * num ≤ 4 * m.units * den + 2 * Nat.pow 2 m.scale * den
  odd : m.mantissa % 2 = 1 → 4 * m.units * den < 4 * num + m.below * den ∧
    4 * num < 4 * m.units * den + 2 * Nat.pow 2 m.scale * den

theorem below_le (m : Magnitude) : m.below ≤ 2 * Nat.pow 2 m.scale := by
  unfold below
  split <;> omega

/-- Whether a quotient rounds to a magnitude depends on its value alone. -/
theorem Rounds.congr {m : Magnitude} {num den num' den' : Nat} (h : m.Rounds num den)
    (hpos : 0 < den') (heq : num * den' = num' * den) : m.Rounds num' den' := by
  -- both sides of each bound, over the common denominator
  have hvalue : ∀ a : Nat, a * den' * den = a * den * den' := fun a => by ring
  have hnum : 4 * num' * den = 4 * num * den' := by rw [Nat.mul_assoc, ← heq, Nat.mul_assoc]
  have hup : (4 * num' + m.below * den') * den = (4 * num + m.below * den) * den' := by
    rw [Nat.add_mul, Nat.add_mul, hnum, hvalue]
  have hdown : (4 * m.units * den' + 2 * Nat.pow 2 m.scale * den') * den =
      (4 * m.units * den + 2 * Nat.pow 2 m.scale * den) * den' := by
    rw [Nat.add_mul, Nat.add_mul, hvalue, hvalue]
  refine ⟨hpos, ?_, ?_, fun hodd => ⟨?_, ?_⟩⟩
  · refine Nat.le_of_mul_le_mul_right ?_ h.pos
    rw [hvalue, hup]
    exact Nat.mul_le_mul_right den' h.low
  · refine Nat.le_of_mul_le_mul_right ?_ h.pos
    rw [hnum, hdown]
    exact Nat.mul_le_mul_right den' h.high
  · refine Nat.lt_of_mul_lt_mul_right (a := den) ?_
    rw [hvalue, hup]
    exact Nat.mul_lt_mul_of_pos_right (h.odd hodd).1 hpos
  · refine Nat.lt_of_mul_lt_mul_right (a := den) ?_
    rw [hnum, hdown]
    exact Nat.mul_lt_mul_of_pos_right (h.odd hodd).2 hpos

theorem below_of_odd {m : Magnitude} (h : m.mantissa % 2 = 1) :
    m.below = 2 * Nat.pow 2 m.scale := by
  have h52 : Nat.pow 2 52 = 4503599627370496 := rfl
  have hne : m.mantissa ≠ Nat.pow 2 52 := by omega
  rw [below, if_neg (by simp [hne])]

theorem pow_two_add_mul (s k den : Nat) :
    Nat.pow 2 (s + k) * den = Nat.pow 2 k * (den * Nat.pow 2 s) := by
  rw [show Nat.pow 2 (s + k) = Nat.pow 2 s * Nat.pow 2 k from Nat.pow_add ..]
  ring

/-- A quotient below a power of two has no bit there. -/
theorem log2_div_lt {num den k : Nat} (hden : 0 < den) (h : num < Nat.pow 2 (k + 1) * den) :
    Nat.log2 (num / den) < k + 1 := by
  have hlt : num / den < Nat.pow 2 (k + 1) := (Nat.div_lt_iff_lt_mul hden).mpr h
  by_cases hzero : num / den = 0
  · rw [hzero]
    exact Nat.succ_pos k
  · exact (Nat.log2_lt hzero).mpr hlt

/-- The leading bit of a quotient between two powers of two. -/
theorem log2_div {num den k : Nat} (hden : 0 < den) (hlow : Nat.pow 2 k * den ≤ num)
    (hhigh : num < Nat.pow 2 (k + 1) * den) : Nat.log2 (num / den) = k := by
  have hle : Nat.pow 2 k ≤ num / den := (Nat.le_div_iff_mul_le hden).mpr hlow
  have hne : num / den ≠ 0 := Nat.ne_of_gt (Nat.lt_of_lt_of_le (Nat.two_pow_pos k) hle)
  have hge : ¬ Nat.log2 (num / den) < k := fun h => by
    have := (Nat.log2_lt hne).mp h
    exact absurd hle (Nat.not_le_of_lt this)
  have := log2_div_lt hden hhigh
  omega

/-- The magnitude nearest to a quotient that is given in units of `2 ^ -1074`. -/
def ofUnits? (units den : Nat) : Option Magnitude :=
  let scale := Nat.log2 (units / den) - 52
  let rounded := roundRatio units (den * Nat.pow 2 scale)
  let (mantissa, scale) :=
    if rounded = Nat.pow 2 53 then (Nat.pow 2 52, scale + 1) else (rounded, scale)
  if h : Canonical mantissa scale then some ⟨mantissa, scale, h⟩ else none

theorem ofRatio?_eq_ofUnits? (num den : Nat) :
    ofRatio? num den = ofUnits? (num * Nat.pow 2 1074) den := rfl

/-- The last steps of rounding, once scale and rounded mantissa are known. -/
theorem ofUnits?_eq {m : Magnitude} {units den scale rounded : Nat}
    (hscale : Nat.log2 (units / den) = scale + 52 ∨
      Nat.log2 (units / den) ≤ 52 ∧ scale = 0)
    (hrounded : roundRatio units (den * Nat.pow 2 scale) = rounded)
    (hm : rounded = m.mantissa ∧ scale = m.scale ∨
      rounded = Nat.pow 2 53 ∧ m.mantissa = Nat.pow 2 52 ∧ scale + 1 = m.scale) :
    ofUnits? units den = some m := by
  obtain ⟨M, s, hcanonical⟩ := m
  have hsub : Nat.log2 (units / den) - 52 = scale := by omega
  unfold ofUnits?
  simp only [hsub, hrounded]
  rcases hm with ⟨rfl, rfl⟩ | ⟨rfl, rfl, rfl⟩
  · have hne : rounded ≠ Nat.pow 2 53 := Nat.ne_of_lt hcanonical.1
    simp only [hne, if_false, dif_pos hcanonical]
  · simp only [if_true, dif_pos hcanonical]

/-- The interval of a magnitude, counted in steps of its mantissa. -/
theorem Rounds.steps {m : Magnitude} {units den : Nat} (h : m.Rounds units den) :
    4 * (m.mantissa * (den * Nat.pow 2 m.scale)) ≤ 4 * units + m.below * den ∧
      4 * units ≤ 4 * (m.mantissa * (den * Nat.pow 2 m.scale)) + 2 * (den * Nat.pow 2 m.scale) ∧
      m.below * den ≤ 2 * (den * Nat.pow 2 m.scale) ∧
      (m.mantissa % 2 = 1 →
        4 * (m.mantissa * (den * Nat.pow 2 m.scale)) < 4 * units + 2 * (den * Nat.pow 2 m.scale) ∧
        4 * units <
          4 * (m.mantissa * (den * Nat.pow 2 m.scale)) + 2 * (den * Nat.pow 2 m.scale)) := by
  obtain ⟨-, hlow, hhigh, hodd⟩ := h
  have hunits : 4 * m.units * den = 4 * (m.mantissa * (den * Nat.pow 2 m.scale)) := by
    rw [Magnitude.units]
    ring
  have hstep : 2 * Nat.pow 2 m.scale * den = 2 * (den * Nat.pow 2 m.scale) := by ring
  have hbelow := Nat.mul_le_mul_right den m.below_le
  rw [hstep] at hbelow
  rw [hunits] at hlow
  rw [hunits, hstep] at hhigh
  refine ⟨hlow, hhigh, hbelow, fun h => ?_⟩
  have hbounds := hodd h
  rwa [below_of_odd h, hunits, hstep] at hbounds

/-- A mantissa of fifty-three bits has room for what rounds to it. -/
theorem Rounds.lt_steps {m : Magnitude} {units den : Nat} (h : m.Rounds units den) :
    units < Nat.pow 2 53 * (den * Nat.pow 2 m.scale) := by
  have h53 : Nat.pow 2 53 = 9007199254740992 := rfl
  have hM : m.mantissa < 9007199254740992 := m.canonical.1
  have hpos : 0 < den * Nat.pow 2 m.scale := Nat.mul_pos h.pos (Nat.two_pow_pos _)
  obtain ⟨-, hhigh, -, -⟩ := h.steps
  have := Nat.mul_le_mul_right (den * Nat.pow 2 m.scale)
    (show m.mantissa ≤ 9007199254740991 by omega)
  rw [h53]
  omega

/-- What is as large as the power of two in its reach keeps the scale of the magnitude. -/
theorem Rounds.keeps_scale {m : Magnitude} {units den : Nat} (h : m.Rounds units den)
    (hlarge : m.scale = 0 ∨ Nat.pow 2 52 * (den * Nat.pow 2 m.scale) ≤ units) :
    ofUnits? units den = some m := by
  obtain ⟨hlow, hhigh, hbelow, hodd⟩ := h.steps
  have hupper := h.lt_steps
  have hpos : 0 < den * Nat.pow 2 m.scale := Nat.mul_pos h.pos (Nat.two_pow_pos _)
  have hrounded : roundRatio units (den * Nat.pow 2 m.scale) = m.mantissa := by
    refine roundRatio_eq hpos (by omega) (by omega) fun hM => ?_
    have := hodd hM
    omega
  refine ofUnits?_eq ?_ hrounded (.inl ⟨rfl, rfl⟩)
  rcases hlarge with hs | hlarge
  · refine .inr ⟨Nat.le_of_lt_succ (log2_div_lt h.pos ?_), hs⟩
    rw [← pow_two_add_mul, hs] at hupper
    exact hupper
  · refine .inl (log2_div h.pos ?_ ?_)
    · rwa [pow_two_add_mul]
    · rwa [Nat.add_assoc, pow_two_add_mul]

/-- Just below a power of two the mantissa fills up at the scale before, and is carried. -/
theorem Rounds.carries {m : Magnitude} {units den : Nat} (h : m.Rounds units den)
    (hs : m.scale ≠ 0) (hsmall : units < Nat.pow 2 52 * (den * Nat.pow 2 m.scale)) :
    ofUnits? units den = some m := by
  have h53 : Nat.pow 2 53 = 9007199254740992 := rfl
  have h52 : Nat.pow 2 52 = 4503599627370496 := rfl
  obtain ⟨hlow, -, hbelow, -⟩ := h.steps
  -- the interval reaches down to `units` from the power of two itself only
  have hM : m.mantissa = Nat.pow 2 52 := by
    obtain ⟨-, -, hnormal⟩ := m.canonical
    have hge := hnormal.resolve_left hs
    by_contra hne
    have := Nat.mul_le_mul_right (den * Nat.pow 2 m.scale)
      (show 4503599627370497 ≤ m.mantissa by omega)
    rw [h52] at hsmall
    omega
  obtain ⟨t, ht⟩ : ∃ t, m.scale = t + 1 := ⟨m.scale - 1, by omega⟩
  have hhalf : m.below * den = 2 * (den * Nat.pow 2 t) := by
    rw [below, if_pos (by simp [hM, hs]), ht,
      show Nat.pow 2 (t + 1) = Nat.pow 2 t * 2 from Nat.pow_succ ..]
    ring
  have hstep : den * Nat.pow 2 m.scale = 2 * (den * Nat.pow 2 t) := by
    rw [ht, show Nat.pow 2 (t + 1) = Nat.pow 2 t * 2 from Nat.pow_succ ..]
    ring
  rw [hstep, hhalf, hM, h52] at hlow
  rw [hstep, h52] at hsmall
  have hpos : 0 < den * Nat.pow 2 t := Nat.mul_pos h.pos (Nat.two_pow_pos _)
  have hrounded : roundRatio units (den * Nat.pow 2 t) = Nat.pow 2 53 := by
    rw [h53]
    exact roundRatio_eq hpos (by omega) (by omega) fun h => by omega
  refine ofUnits?_eq (.inl (log2_div h.pos ?_ ?_)) hrounded (.inr ⟨rfl, hM, ht.symm⟩)
  · rw [pow_two_add_mul, h52]
    omega
  · rw [Nat.add_assoc, pow_two_add_mul, h53]
    omega

/-- **A quotient that rounds to a magnitude is rounded to it.** -/
theorem ofUnits?_of_rounds {m : Magnitude} {units den : Nat} (h : m.Rounds units den) :
    ofUnits? units den = some m := by
  by_cases hlarge : m.scale = 0 ∨ Nat.pow 2 52 * (den * Nat.pow 2 m.scale) ≤ units
  · exact h.keeps_scale hlarge
  · obtain ⟨hs, hsmall⟩ := not_or.mp hlarge
    exact h.carries hs (Nat.lt_of_not_le hsmall)

/-! ## Decimal digits -/

/-- The numerator of a power of ten. -/
def tens (e : Int) : Nat := Nat.pow 10 e.toNat

/-- The denominator of a power of ten. -/
def tenths (e : Int) : Nat := Nat.pow 10 (-e).toNat

theorem tens_pos (e : Int) : 0 < tens e := Nat.pow_pos (by decide)

theorem tenths_pos (e : Int) : 0 < tenths e := Nat.pow_pos (by decide)

/-- Powers of ten may be divided by one another. -/
theorem tens_mul_tenths (e : Int) (k : Nat) :
    10 ^ k * tens (e - k) * tenths e = tens e * tenths (e - k) := by
  have hpow : ∀ n : Nat, Nat.pow 10 n = 10 ^ n := fun _ => rfl
  simp only [tens, tenths, hpow, ← pow_add]
  congr 1
  omega

/-- Decimal digits round to the magnitude. -/
def RoundsDecimal (m : Magnitude) (digits : Nat) (e : Int) : Prop :=
  m.Rounds (digits * tens e * Nat.pow 2 1074) (tenths e)

/-- Zeros at the end of decimal digits change nothing but the exponent. -/
theorem RoundsDecimal.shift {m : Magnitude} {digits : Nat} {e : Int} (k : Nat) :
    m.RoundsDecimal (digits * 10 ^ k) (e - k) ↔ m.RoundsDecimal digits e := by
  have htens := tens_mul_tenths e k
  have heq : digits * 10 ^ k * tens (e - k) * Nat.pow 2 1074 * tenths e =
      digits * tens e * Nat.pow 2 1074 * tenths (e - k) := by
    calc digits * 10 ^ k * tens (e - k) * Nat.pow 2 1074 * tenths e
        = digits * Nat.pow 2 1074 * (10 ^ k * tens (e - k) * tenths e) := by ring
      _ = digits * Nat.pow 2 1074 * (tens e * tenths (e - k)) := by rw [htens]
      _ = digits * tens e * Nat.pow 2 1074 * tenths (e - k) := by ring
  exact ⟨fun h => h.congr (tenths_pos e) heq, fun h => h.congr (tenths_pos _) heq.symm⟩

/-! ## The fewest digits -/

/-- Whether a point of a grid lies in an interval. All numbers are multiples of one unit. -/
def inside (value below above : Nat) (closed : Bool) (step p : Nat) : Bool :=
  let low := value - below
  let high := value + above
  if closed then low ≤ p * step && p * step ≤ high else low < p * step && p * step < high

/-- The point that a grid offers for a value, of those that may be offered. -/
def offered (isInside : Nat → Bool) (value step : Nat) : Option Nat :=
  let p := value / step
  let down := value - p * step
  let up := (p + 1) * step - value
  match isInside p, isInside (p + 1) with
  | true, true =>
    if down < up then some p else if up < down then some (p + 1)
    else some (if p % 2 = 0 then p else p + 1)
  | true, false => some p
  | false, true => some (p + 1)
  | false, false => none

theorem stepAndFactor_eq (unit : Nat) (power : Int) :
    (if 0 ≤ power then (unit * Nat.pow 10 power.toNat, 1) else (unit, Nat.pow 10 (-power).toNat)) =
      (unit * tens power, tenths power) := by
  unfold tens tenths
  split
  · rw [show (-power).toNat = 0 by omega, show Nat.pow 10 0 = 1 from rfl]
  · rw [show power.toNat = 0 by omega, show Nat.pow 10 0 = 1 from rfl, Nat.mul_one]

theorem gridPoint?_eq (value below above : Nat) (closed : Bool) (power : Int) :
    gridPoint? value below above closed power =
      offered (inside (value * tenths power) (below * tenths power) (above * tenths power) closed
        (4 * Nat.pow 2 1074 * tens power)) (value * tenths power)
        (4 * Nat.pow 2 1074 * tens power) := by
  unfold gridPoint?
  simp only [stepAndFactor_eq]
  rfl

/-- A point that is offered lies in the interval. -/
theorem inside_of_offered {isInside : Nat → Bool} {value step p : Nat}
    (h : offered isInside value step = some p) : isInside p = true := by
  simp only [offered] at h
  split at h
  · rename_i hdown hup
    split at h
    · exact Option.some.inj h ▸ hdown
    · split at h
      · exact Option.some.inj h ▸ hup
      · split at h
        · exact Option.some.inj h ▸ hdown
        · exact Option.some.inj h ▸ hup
  · rename_i hdown hup
    exact Option.some.inj h ▸ hdown
  · rename_i hdown hup
    exact Option.some.inj h ▸ hup
  · cases h

/-- A grid offers a point if the one below the value lies in the interval. -/
theorem isSome_offered {isInside : Nat → Bool} {value step : Nat}
    (h : isInside (value / step) = true) : (offered isInside value step).isSome = true := by
  simp only [offered, h]
  split
  · split
    · rfl
    · split <;> rfl
  · rfl
  · rfl
  · rename_i hdown _
    cases hdown

/-- A point in the interval of a magnitude rounds to it. -/
theorem roundsDecimal_of_inside {m : Magnitude} {power : Int} {p : Nat}
    (h : inside (4 * m.units * tenths power) (m.below * tenths power)
      (2 * Nat.pow 2 m.scale * tenths power) (m.mantissa % 2 = 0)
      (4 * Nat.pow 2 1074 * tens power) p = true) : m.RoundsDecimal p power := by
  have hpoint : p * (4 * Nat.pow 2 1074 * tens power) = 4 * (p * tens power * Nat.pow 2 1074) := by
    ring
  rw [inside, hpoint] at h
  split at h
  · rename_i heven
    simp only [Bool.and_eq_true, decide_eq_true_eq] at h heven
    exact ⟨tenths_pos power, by omega, by omega, fun hodd => by omega⟩
  · simp only [Bool.and_eq_true, decide_eq_true_eq] at h
    exact ⟨tenths_pos power, by omega, by omega, fun _ => ⟨by omega, by omega⟩⟩

/-- The search ends at a grid that offers a point, if there is one within its reach. -/
theorem firstGrid_spec {value below above : Nat} {closed : Bool} {top : Int} (fuel n : Nat)
    (h : ∃ k, n ≤ k ∧ k < n + fuel ∧
      (gridPoint? value below above closed (top - k)).isSome = true) :
    ∃ p, ∃ k : Nat, firstGrid value below above closed top fuel n = ⟨p, top - k⟩ ∧
      gridPoint? value below above closed (top - k) = some p := by
  induction fuel generalizing n with
  | zero =>
      obtain ⟨k, hn, hk, -⟩ := h
      omega
  | succ fuel ih =>
      rw [firstGrid]
      cases hg : gridPoint? value below above closed (top - n) with
      | some p => exact ⟨p, n, rfl, hg⟩
      | none =>
          obtain ⟨k, hn, hk, hsome⟩ := h
          have hne : k ≠ n := by
            rintro rfl
            rw [hg] at hsome
            cases hsome
          exact ih (n + 1) ⟨k, by omega, by omega, hsome⟩

theorem roundsDecimal_dropZeros {m : Magnitude} {d : Decimal} {fuel : Nat}
    (h : m.RoundsDecimal d.digits d.exponent) :
    m.RoundsDecimal (dropZeros fuel d).digits (dropZeros fuel d).exponent := by
  induction fuel generalizing d with
  | zero => exact h
  | succ fuel ih =>
      rw [dropZeros]
      split
      · rename_i hzero
        refine ih ?_
        have hdigits : d.digits = d.digits / 10 * 10 ^ 1 := by omega
        have hexponent : d.exponent = d.exponent + 1 - (1 : Nat) := by omega
        rw [hdigits, hexponent] at h
        exact (RoundsDecimal.shift 1).mp h
      · exact h

theorem le_lift {bound fuel n : Nat} (h : bound ≤ n * 10 ^ fuel) :
    bound ≤ n * 10 ^ lift bound fuel n := by
  induction fuel generalizing n with
  | zero => exact h
  | succ fuel ih =>
      rw [lift]
      split
      · rename_i hle
        simpa using hle
      · have := ih (n := n * 10) (by rw [pow_succ] at h; linarith)
        rw [pow_succ]
        linarith

/-- The decimal exponent of a quotient is not too large. -/
theorem tens_decimalExponent_le {num den : Nat} (hden : 0 < den) (hbound : den ≤ num * 10 ^ 400) :
    tens (decimalExponent num den - 1) * den ≤ num * tenths (decimalExponent num den - 1) := by
  have hpow : ∀ n : Nat, Nat.pow 10 n = 10 ^ n := fun _ => rfl
  unfold decimalExponent tens tenths
  split
  · rename_i hle
    have hpos : 0 < (Nat.toDigits 10 (num / den)).length := Nat.length_toDigits_pos
    have hdigits := Text.pow_pred_length_le (Nat.div_pos hle hden)
    rw [show (((Nat.toDigits 10 (num / den)).length : Int) - 1).toNat =
        (Nat.toDigits 10 (num / den)).length - 1 by omega,
      show (-(((Nat.toDigits 10 (num / den)).length : Int) - 1)).toNat = 0 by omega, hpow, hpow,
      pow_zero, Nat.mul_one]
    exact (Nat.le_div_iff_mul_le hden).mp hdigits
  · have := le_lift hbound
    rw [show (1 - (lift den 400 num : Int) - 1).toNat = 0 by omega,
      show (-(1 - (lift den 400 num : Int) - 1)).toNat = lift den 400 num by omega, hpow, hpow,
      pow_zero, Nat.one_mul]
    exact this

theorem mantissa_pos {m : Magnitude} (h : m ≠ .zero) : 0 < m.mantissa := by
  obtain ⟨M, s, hcanonical⟩ := m
  rcases Nat.eq_zero_or_pos M with rfl | hpos
  · obtain ⟨_, _, rfl | hM⟩ := hcanonical
    · exact absurd rfl h
    · exact absurd hM (by decide)
  · exact hpos

theorem units_pos {m : Magnitude} (h : m ≠ .zero) : 0 < m.units :=
  Nat.mul_pos (mantissa_pos h) (Nat.two_pow_pos _)

theorem scale_le_units {m : Magnitude} (h : m ≠ .zero) : Nat.pow 2 m.scale ≤ m.units :=
  Nat.le_mul_of_pos_left _ (mantissa_pos h)

/-- The grid of twenty digits is finer than the interval of a magnitude is wide. -/
theorem step_le {m : Magnitude} {unit : Nat} {top : Int}
    (h : tens (top - 1) * unit ≤ m.units * tenths (top - 1)) :
    4 * unit * tens (top - 20) ≤ m.below * tenths (top - 20) := by
  have htens := tens_mul_tenths (top - 1) 19
  rw [show top - 1 - ((19 : Nat) : Int) = top - 20 by omega] at htens
  have hwide : 4 * m.units ≤ m.below * 10 ^ 19 := by
    have hM : m.mantissa < 9007199254740992 := m.canonical.1
    have hbelow : Nat.pow 2 m.scale ≤ m.below := by
      unfold below
      split <;> omega
    have hunits := Nat.mul_le_mul_right (Nat.pow 2 m.scale)
      (show m.mantissa ≤ 9007199254740992 by omega)
    rw [units]
    omega
  have hpos : 0 < 10 ^ 19 * tenths (top - 1) := Nat.mul_pos (by decide) (tenths_pos _)
  refine Nat.le_of_mul_le_mul_right ?_ hpos
  calc 4 * unit * tens (top - 20) * (10 ^ 19 * tenths (top - 1))
      = 4 * unit * (10 ^ 19 * tens (top - 20) * tenths (top - 1)) := by ring
    _ = 4 * (tens (top - 1) * unit) * tenths (top - 20) := by rw [htens]; ring
    _ ≤ 4 * (m.units * tenths (top - 1)) * tenths (top - 20) := by gcongr
    _ = 4 * m.units * (tenths (top - 1) * tenths (top - 20)) := by ring
    _ ≤ m.below * 10 ^ 19 * (tenths (top - 1) * tenths (top - 20)) := by gcongr
    _ = m.below * tenths (top - 20) * (10 ^ 19 * tenths (top - 1)) := by ring

/-- The grid of twenty digits offers a point. -/
theorem isSome_gridPoint?_twenty {m : Magnitude} (h : m ≠ .zero) :
    (gridPoint? (4 * m.units) m.below (2 * Nat.pow 2 m.scale) (m.mantissa % 2 = 0)
      (decimalExponent m.units (Nat.pow 2 1074) - 20)).isSome = true := by
  have hpow : Nat.pow 2 1074 ≤ 10 ^ 400 := by decide +kernel
  have hunit := Nat.le_trans hpow (Nat.le_mul_of_pos_left (10 ^ 400) (units_pos h))
  have hone : 0 < Nat.pow 2 1074 := by decide +kernel
  have hstep := step_le (tens_decimalExponent_le hone hunit)
  have hscale := scale_le_units h
  rw [gridPoint?_eq]
  generalize decimalExponent m.units (Nat.pow 2 1074) - 20 = power at *
  have hpos : ∀ unit, 0 < unit → 0 < 4 * unit * tens power :=
    fun _ h => Nat.mul_pos (Nat.mul_pos (by decide) h) (tens_pos _)
  replace hpos := hpos _ hone
  generalize 4 * Nat.pow 2 1074 * tens power = step at *
  refine isSome_offered ?_
  -- the point just below the value is less than one step away
  have hdiv := Nat.div_add_mod' (4 * m.units * tenths power) step
  have hmod := Nat.mod_lt (4 * m.units * tenths power) hpos
  have hbelow : 2 * (m.below * tenths power) ≤ 4 * m.units * tenths power := by
    have := Nat.mul_le_mul_right (tenths power) (show 2 * m.below ≤ 4 * m.units by
      have := m.below_le
      omega)
    linarith
  have habove : 0 < 2 * Nat.pow 2 m.scale * tenths power :=
    Nat.mul_pos (Nat.mul_pos (by decide) (Nat.two_pow_pos _)) (tenths_pos _)
  rw [inside]
  split
  · simp only [Bool.and_eq_true, decide_eq_true_eq]
    omega
  · simp only [Bool.and_eq_true, decide_eq_true_eq]
    omega

/-- **The fewest digits of a magnitude round to it.** -/
theorem rounds_shortest {m : Magnitude} (h : m ≠ .zero) :
    m.RoundsDecimal m.shortest.digits m.shortest.exponent := by
  obtain ⟨p, k, heq, hg⟩ := firstGrid_spec 20 1
    ⟨20, by decide, by decide, isSome_gridPoint?_twenty h⟩
  rw [gridPoint?_eq] at hg
  refine roundsDecimal_dropZeros ?_
  have hfirst : m.RoundsDecimal p (decimalExponent m.units (Nat.pow 2 1074) - k) :=
    roundsDecimal_of_inside (inside_of_offered hg)
  unfold below at heq
  rwa [heq]

end Magnitude

namespace Double

open Magnitude

/-- The units of a magnitude are below `2 ^ (53 + k)` when its scale is at most `k`. -/
theorem units_le_pow {m : Magnitude} {k : Nat} (h : m.scale ≤ k) :
    m.units ≤ Nat.pow 2 (53 + k) :=
  calc m.units ≤ Nat.pow 2 53 * Nat.pow 2 k :=
        Nat.mul_le_mul (Nat.le_of_lt m.canonical.1) (Nat.pow_le_pow_right (by decide) h)
    _ = Nat.pow 2 (53 + k) := (Nat.pow_add 2 53 k).symm

/-- What rounds to a magnitude other than zero is half the least unit or more. -/
theorem tenths_le_of_rounds {m : Magnitude} {digits : Nat} {e : Int} (hm : m ≠ .zero)
    (h : m.RoundsDecimal digits e) :
    tenths e ≤ 2 * (digits * tens e * Nat.pow 2 1074) := by
  obtain ⟨-, hlow, -, -⟩ := h
  generalize Nat.pow 2 1074 = unit at *
  have hbelow := Nat.mul_le_mul_right (tenths e) (show m.below ≤ 2 * m.units by
    have := m.below_le
    have := scale_le_units hm
    omega)
  have := Nat.mul_le_mul_right (tenths e) (show 1 ≤ m.units from units_pos hm)
  linarith

/-- What rounds to a magnitude is at most half as large again as magnitudes can be. -/
theorem le_most_of_rounds {m : Magnitude} {digits : Nat} {e : Int} (hm : m ≠ .zero)
    (h : m.RoundsDecimal digits e) :
    4 * (digits * tens e * Nat.pow 2 1074) ≤ 6 * Nat.pow 2 (53 + 2045) * tenths e := by
  have hmost := units_le_pow m.canonical.2.1
  have hscale := scale_le_units hm
  obtain ⟨-, -, hhigh, -⟩ := h
  generalize Nat.pow 2 1074 = unit at *
  generalize Nat.pow 2 (53 + 2045) = most at *
  have := Nat.mul_le_mul_right (tenths e)
    (show 4 * m.units + 2 * Nat.pow 2 m.scale ≤ 6 * most by omega)
  linarith

theorem digits_pos_of_rounds {m : Magnitude} {digits : Nat} {e : Int} (hm : m ≠ .zero)
    (h : m.RoundsDecimal digits e) : 0 < digits := by
  have hle := tenths_le_of_rounds hm h
  generalize Nat.pow 2 1074 = unit at hle
  rcases Nat.eq_zero_or_pos digits with rfl | hpos
  · rw [Nat.zero_mul, Nat.zero_mul, Nat.mul_zero] at hle
    exact absurd hle (Nat.not_le_of_lt (tenths_pos e))
  · exact hpos

/-- Digits that round to a magnitude other than zero do not stand too far behind the point. -/
theorem neg_le_place_of_rounds {m : Magnitude} {digits : Nat} {e : Int} (hm : m ≠ .zero)
    (h : m.RoundsDecimal digits e) : -330 ≤ e + (Text.digitsOf digits).length := by
  have hleast : 2 * Nat.pow 2 1074 ≤ 10 ^ 330 := by decide +kernel
  have hone : 0 < Nat.pow 2 1074 := by decide +kernel
  have hlow := tenths_le_of_rounds hm h
  generalize Nat.pow 2 1074 = unit at *
  have hpow : ∀ n : Nat, Nat.pow 10 n = 10 ^ n := fun _ => rfl
  have hlt : 10 ^ (-e).toNat < 10 ^ ((Text.digitsOf digits).length + e.toNat + 330) := by
    calc 10 ^ (-e).toNat ≤ 2 * (digits * tens e * unit) := hlow
      _ < 2 * (10 ^ (Text.digitsOf digits).length * tens e * unit) := by
          have := Text.lt_pow_length digits
          have := tens_pos e
          gcongr
      _ = 10 ^ (Text.digitsOf digits).length * tens e * (2 * unit) := by ring
      _ ≤ 10 ^ (Text.digitsOf digits).length * tens e * 10 ^ 330 := by gcongr
      _ = 10 ^ ((Text.digitsOf digits).length + e.toNat + 330) := by
          rw [pow_add, pow_add, tens, hpow]
  have := (Nat.pow_lt_pow_iff_right (by decide)).mp hlt
  omega

/-- Digits that round to a magnitude do not stand too far in front of the point. -/
theorem place_le_of_rounds {m : Magnitude} {digits : Nat} {e : Int} (hm : m ≠ .zero)
    (h : m.RoundsDecimal digits e) : e + (Text.digitsOf digits).length ≤ 400 := by
  have hmost : 6 * Nat.pow 2 (53 + 2045) ≤ 4 * Nat.pow 2 1074 * 10 ^ 309 := by decide +kernel
  have hone : 0 < Nat.pow 2 1074 := by decide +kernel
  have hdigits := digits_pos_of_rounds hm h
  have hhigh := le_most_of_rounds hm h
  generalize Nat.pow 2 1074 = unit at *
  generalize Nat.pow 2 (53 + 2045) = most at *
  have hpow : ∀ n : Nat, Nat.pow 10 n = 10 ^ n := fun _ => rfl
  have hle : 10 ^ ((Text.digitsOf digits).length - 1 + e.toNat) ≤ 10 ^ (309 + (-e).toNat) := by
    refine Nat.le_of_mul_le_mul_left ?_ (Nat.mul_pos (show 0 < 4 by decide) hone)
    calc 4 * unit * 10 ^ ((Text.digitsOf digits).length - 1 + e.toNat)
        = 4 * (10 ^ ((Text.digitsOf digits).length - 1) * tens e * unit) := by
          rw [pow_add, tens, hpow]
          ring
      _ ≤ 4 * (digits * tens e * unit) := by
          have := Text.pow_pred_length_le hdigits
          gcongr
      _ ≤ 6 * most * tenths e := hhigh
      _ ≤ 4 * unit * 10 ^ 309 * tenths e := by gcongr
      _ = 4 * unit * 10 ^ (309 + (-e).toNat) := by
          rw [pow_add, tenths, hpow, Nat.mul_assoc]
  have := (Nat.pow_le_pow_iff_right (by decide)).mp hle
  omega

/-- **Digits that round to a magnitude are read as it.** -/
theorem ofDecimal_of_rounds {m : Magnitude} {digits : Nat} {e : Int} (hm : m ≠ .zero)
    (h : m.RoundsDecimal digits e) (negative : Bool) :
    ofDecimal negative digits e = .finite negative m := by
  have hpos := digits_pos_of_rounds hm h
  have hlow := neg_le_place_of_rounds hm h
  have hhigh := place_le_of_rounds hm h
  have hrounded : (if 0 ≤ e then ofRatio? (digits * Nat.pow 10 e.toNat) 1
      else ofRatio? digits (Nat.pow 10 (-e).toNat)) = some m := by
    have hone : Nat.pow 10 0 = 1 := rfl
    have := ofUnits?_of_rounds h
    rw [← ofRatio?_eq_ofUnits?] at this
    split
    · rwa [tenths, show (-e).toNat = 0 by omega] at this
    · rwa [tens, show e.toNat = 0 by omega, hone, Nat.mul_one] at this
  unfold Text.digitsOf at hlow hhigh
  unfold ofDecimal
  rw [if_neg (by simp; omega), if_neg (by simp; omega)]
  simp only [hrounded]

end Double

end TreeEdit
