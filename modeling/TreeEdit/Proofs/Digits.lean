import Mathlib.Data.Nat.Digits.Defs
import TreeEdit.Text.Blank

/-!
# Digits that are written and read

Numbers are written with `Nat.toDigits` and read one character at a time, and every format does so.
This module is about that reading alone: the digits of a number in a base up to sixteen give the
number back (`Text.natOfDigits?_toDigits`), zeros in front of them change nothing, and decimal
digits are digits (`Text.isDigit_of_mem_digitsOf`) of which only zero begins with a zero. The
other way round, a number is written with digits that it was read from (`Text.digitsOf_suffix`).
-/

namespace TreeEdit.Text

theorem isDigit_iff {c : Char} : isDigit c = true ↔ 48 ≤ c.toNat ∧ c.toNat ≤ 57 := by
  have hval : c.toNat = c.val.toNat := rfl
  have hcode : ('0' : Char).val.toNat = 48 ∧ ('9' : Char).val.toNat = 57 := by decide
  simp only [isDigit, Bool.and_eq_true, decide_eq_true_eq, Char.le_def, UInt32.le_iff_toNat_le,
    hcode, hval]

/-- A digit has the value that it stands for. -/
theorem digitValue?_digitChar {base d : Nat} (hd : d < base) (hbase : base ≤ 16) :
    digitValue? base (Nat.digitChar d) = some d := by
  have hcases : ∀ d < 16, ∀ base ≤ 16, d < base →
      digitValue? base (Nat.digitChar d) = some d := by decide
  exact hcases d (by omega) base hbase hd

theorem natFrom?_append (base value : Nat) (s t : List Char) :
    natFrom? base value (s ++ t) = (natFrom? base value s).bind fun v => natFrom? base v t := by
  induction s generalizing value with
  | nil => rfl
  | cons c s ih =>
      simp only [List.cons_append, natFrom?]
      cases digitValue? base c with
      | none => rfl
      | some d => exact ih _

/-- The digits of a number, read after others, shift these by as many places. -/
theorem natFrom?_toDigits {base : Nat} (h : 1 < base) (h' : base ≤ 16) (value n : Nat) :
    natFrom? base value (Nat.toDigits base n) =
      some (value * base ^ (Nat.toDigits base n).length + n) := by
  induction n using Nat.strongRecOn generalizing value with
  | ind n ih =>
    by_cases hn : n < base
    · simp [Nat.toDigits_of_lt_base hn, natFrom?, digitValue?_digitChar hn h']
    · have hle : base ≤ n := Nat.le_of_not_lt hn
      have hlast : n % base < base := Nat.mod_lt _ (by omega)
      rw [Nat.toDigits_of_base_le h hle, natFrom?_append, ih _ (Nat.div_lt_self (by omega) h)]
      simp only [Option.bind_some, natFrom?, digitValue?_digitChar hlast h', List.length_append,
        List.length_singleton, pow_succ]
      have hdiv := Nat.div_add_mod' n base
      congr 1
      calc (value * base ^ (Nat.toDigits base (n / base)).length + n / base) * base + n % base
          = value * (base ^ (Nat.toDigits base (n / base)).length * base)
            + (n / base * base + n % base) := by ring
        _ = value * (base ^ (Nat.toDigits base (n / base)).length * base) + n := by rw [hdiv]

/-- **The digits of a number are read as the number.** -/
theorem natOfDigits?_toDigits {base : Nat} (h : 1 < base) (h' : base ≤ 16) (n : Nat) :
    natOfDigits? base (Nat.toDigits base n) = some n := by
  rw [natOfDigits?, if_neg (by simp [Nat.toDigits_ne_nil]), natFrom?_toDigits h h', Nat.zero_mul,
    Nat.zero_add]

/-- Zeros shift what was read before them. -/
theorem natFrom?_zeros {base : Nat} (h : 0 < base) (value k : Nat) :
    natFrom? base value (List.replicate k '0') = some (value * base ^ k) := by
  have hzero : digitValue? base '0' = some 0 := by
    have : digitValue? base '0' = (some 0).filter (· < base) := rfl
    simp [this, h]
  induction k generalizing value with
  | zero => simp [natFrom?]
  | succ k ih =>
      simp only [List.replicate_succ, natFrom?, hzero, Option.bind_some, Nat.add_zero]
      rw [ih, pow_succ]
      congr 1
      ring

/-- Zeros in front of a number change nothing. -/
theorem natOfDigits?_zeros_append {base : Nat} (h : 1 < base) (h' : base ≤ 16) (k n : Nat) :
    natOfDigits? base (List.replicate k '0' ++ Nat.toDigits base n) = some n := by
  rw [natOfDigits?, if_neg (by simp [Nat.toDigits_ne_nil]), natFrom?_append,
    natFrom?_zeros (by omega), Option.bind_some, natFrom?_toDigits h h', Nat.zero_mul,
    Nat.zero_mul, Nat.zero_add]

/-! ## Decimal digits -/

theorem digitsOf_ne_nil (n : Nat) : digitsOf n ≠ [] := Nat.toDigits_ne_nil

theorem isDigit_of_mem_digitsOf {n : Nat} {c : Char} (h : c ∈ digitsOf n) : isDigit c = true := by
  have hdigit := Nat.isDigit_of_mem_toDigits (by decide) (by decide) h
  simpa [isDigit, Char.isDigit, Char.le_def] using hdigit

/-- A decimal digit is the one that its value is written with. -/
theorem digitChar_of_digitValue? {c : Char} {d : Nat} (h : digitValue? 10 c = some d) :
    d < 10 ∧ Nat.digitChar d = c := by
  have hchars : ∀ d < 10, Nat.digitChar d = Char.ofNat (48 + d) := by decide
  obtain ⟨h, hd⟩ := Option.filter_eq_some_iff.mp h
  rw [decide_eq_true_eq] at hd
  refine ⟨hd, ?_⟩
  split at h
  · rename_i hc
    obtain rfl := Option.some.inj h
    have hc := isDigit_iff.mp hc
    rw [hchars _ hd, show 48 + (c.toNat - 48) = c.toNat by omega, Char.ofNat_toNat]
  · -- a letter is a digit of a larger base only
    rename_i hc
    split at h
    · rename_i hletter
      obtain rfl := Option.some.inj h
      have hcode : ('a' : Char).val.toNat = 97 := by decide
      simp only [Bool.and_eq_true, decide_eq_true_eq, Char.le_def, UInt32.le_iff_toNat_le,
        hcode] at hletter
      have hval : c.toNat = c.val.toNat := rfl
      omega
    · split at h
      · rename_i hletter
        obtain rfl := Option.some.inj h
        have hcode : ('A' : Char).val.toNat = 65 := by decide
        simp only [Bool.and_eq_true, decide_eq_true_eq, Char.le_def, UInt32.le_iff_toNat_le,
          hcode] at hletter
        have hval : c.toNat = c.val.toNat := rfl
        omega
      · cases h

/-- Digits read after a number that is not zero are the last digits of the result. -/
theorem digitsOf_of_natFrom? {value n : Nat} {s : List Char} (hpos : 0 < value)
    (h : natFrom? 10 value s = some n) : digitsOf n = digitsOf value ++ s := by
  induction s generalizing value with
  | nil =>
      obtain rfl := Option.some.inj h
      rw [List.append_nil]
  | cons c s ih =>
      obtain ⟨d, hd, h⟩ := Option.bind_eq_some_iff.mp h
      obtain ⟨hlt, hc⟩ := digitChar_of_digitValue? hd
      have hshift : digitsOf (value * 10 + d) = digitsOf value ++ [c] := by
        rw [digitsOf, Nat.mul_comm, ← Nat.toDigits_append_toDigits (by decide) hpos hlt,
          Nat.toDigits_of_lt_base hlt, hc]
        rfl
      rw [ih (by omega) h, hshift, List.append_assoc, List.singleton_append]

/-- **A number is written with the last of the digits that it was read from**: all of them but
zeros in front. -/
theorem digitsOf_suffix {n : Nat} {s : List Char} (h : natOfDigits? 10 s = some n) :
    digitsOf n <:+ s := by
  rw [natOfDigits?] at h
  split at h
  · cases h
  induction s with
  | nil => rename_i hne; exact absurd rfl hne
  | cons c s ih =>
      obtain ⟨d, hd, hrest⟩ := Option.bind_eq_some_iff.mp h
      obtain ⟨hlt, hc⟩ := digitChar_of_digitValue? hd
      rw [Nat.zero_mul, Nat.zero_add] at hrest
      by_cases hzero : d = 0
      · subst hzero
        by_cases hs : s = []
        · subst hs
          obtain rfl := Option.some.inj hrest
          rw [← hc]
          exact List.suffix_rfl
        · exact (ih (by simpa using hs) hrest).trans (List.suffix_cons c s)
      · have hdigits := digitsOf_of_natFrom? (by omega) hrest
        rw [digitsOf, digitsOf, Nat.toDigits_of_lt_base hlt, hc] at hdigits
        rw [digitsOf, hdigits]
        exact List.suffix_rfl

/-- Only zero begins with a zero. -/
theorem head?_digitsOf {n : Nat} (h : 0 < n) : (digitsOf n).head? ≠ some '0' := by
  unfold digitsOf
  induction n using Nat.strongRecOn with
  | ind n ih =>
    by_cases hn : n < 10
    · rw [Nat.toDigits_of_lt_base hn]
      simp only [List.head?_cons, ne_eq, Option.some.injEq, Nat.digitChar_eq_zero]
      omega
    · have hsome : (Nat.toDigits 10 (n / 10)).head?.isSome = true := by
        simp [Nat.toDigits_ne_nil]
      rw [Nat.toDigits_of_base_le (by decide) (by omega), List.head?_append,
        Option.or_of_isSome hsome]
      exact ih _ (by omega) (by omega)

/-- A number has as many digits as it needs. -/
theorem pow_pred_length_le {n : Nat} (h : 0 < n) : 10 ^ ((digitsOf n).length - 1) ≤ n := by
  by_contra hlt
  have hpos : 0 < (digitsOf n).length := Nat.length_toDigits_pos
  by_cases hone : (digitsOf n).length = 1
  · rw [hone] at hlt
    omega
  · have := (Nat.length_toDigits_le_iff (b := 10) (n := n) (k := (digitsOf n).length - 1)
      (by decide) (by omega)).mpr (by omega)
    unfold digitsOf at *
    omega

theorem lt_pow_length (n : Nat) : n < 10 ^ (digitsOf n).length :=
  (Nat.length_toDigits_le_iff (by decide) Nat.length_toDigits_pos).mp (Nat.le_refl _)

end TreeEdit.Text
