import TreeEdit.Number.Basic
import TreeEdit.Number.Reader
import TreeEdit.Proofs.Rounding

/-!
# Numbers that are written and read

A `Layout` writes the fewest digits of a finite number in one of four forms, and `Double.parse?`
reads one form with all of them as special cases. `Numeral` is that form: digits with at most one
point, perhaps an exponent.

* Whatever the layout, what it writes is a numeral for the digits, up to zeros at the end
  (`Layout.numeral_digits`).
* Hence every layout's text of a finite number is read as that number (`Layout.parse?_render`).

The words for the other numbers are a layout's own. Those of a document are not read as numbers
(`Number.parse?_text_double`).
-/

namespace TreeEdit

namespace Double

/-- Digits in front of a point and digits behind it. The point stands only where digits follow. -/
def mantissaText (whole fraction : List Char) : List Char :=
  whole ++ if fraction.isEmpty then [] else '.' :: fraction

/-- The digits in front of a point and behind it, and the number that they write together. -/
structure Digits (whole fraction : List Char) (n : Nat) : Prop where
  ne_nil : whole ≠ []
  isDigit : ∀ c ∈ whole ++ fraction, Text.isDigit c = true
  read : Text.natOfDigits? 10 (whole ++ fraction) = some n

theorem Digits.of_append {whole fraction s : List Char} {n : Nat} (h : whole ++ fraction = s)
    (hne : whole ≠ []) (hs : ∀ c ∈ s, Text.isDigit c = true)
    (hn : Text.natOfDigits? 10 s = some n) : Digits whole fraction n := by
  subst h
  exact ⟨hne, hs, hn⟩

/-- A text that writes digits times a power of ten. -/
inductive Numeral (text : List Char) (n : Nat) (e : Int) : Prop where
  | plain {whole fraction : List Char} (hd : Digits whole fraction n)
      (htext : text = mantissaText whole fraction) (he : e = -fraction.length)
  | scaled {whole fraction mark : List Char} {power : Int} (hd : Digits whole fraction n)
      (hmark : exponent? mark = some power)
      (htext : text = mantissaText whole fraction ++ 'e' :: mark) (he : e = power - fraction.length)

/-! ## Reading a numeral -/

theorem cutExponent_append {s : List Char} (h : ∀ c ∈ s, c ≠ 'e' ∧ c ≠ 'E') (t : List Char) :
    cutExponent (s ++ t) = (s ++ (cutExponent t).1, (cutExponent t).2) := by
  induction s with
  | nil => rfl
  | cons c s ih =>
      obtain ⟨he, hE⟩ := h c (List.mem_cons_self ..)
      rw [List.cons_append, cutExponent, if_neg (by simp [he, hE]),
        ih fun d hd => h d (List.mem_cons_of_mem _ hd)]
      rfl

theorem cutAt?_append {c : Char} {s : List Char} (h : c ∉ s) (t : List Char) :
    Text.cutAt? c (s ++ c :: t) = some (s, t) := by
  induction s with
  | nil => simp [Text.cutAt?]
  | cons d s ih =>
      obtain ⟨hd, hs⟩ := not_or.mp (mt List.mem_cons.mpr h)
      rw [List.cons_append, Text.cutAt?, if_neg (Ne.symm hd), ih hs]
      rfl

theorem cutAt?_eq_none {c : Char} {s : List Char} (h : c ∉ s) : Text.cutAt? c s = none := by
  induction s with
  | nil => rfl
  | cons d s ih =>
      obtain ⟨hd, hs⟩ := not_or.mp (mt List.mem_cons.mpr h)
      rw [Text.cutAt?, if_neg (Ne.symm hd), ih hs]
      rfl

theorem Digits.cutAt?_mantissaText {whole fraction : List Char} {n : Nat}
    (h : Digits whole fraction n) :
    (Text.cutAt? '.' (mantissaText whole fraction)).getD (mantissaText whole fraction, []) =
      (whole, fraction) := by
  have hpoint : '.' ∉ whole := fun hmem => by
    have := h.isDigit '.' (List.mem_append_left _ hmem)
    revert this
    decide
  cases fraction with
  | nil => simp [mantissaText, cutAt?_eq_none hpoint]
  | cons c fraction => simp [mantissaText, cutAt?_append hpoint]

theorem Digits.cutExponent_mantissaText {whole fraction : List Char} {n : Nat}
    (h : Digits whole fraction n) (t : List Char) :
    cutExponent (mantissaText whole fraction ++ t) =
      (mantissaText whole fraction ++ (cutExponent t).1, (cutExponent t).2) := by
  refine cutExponent_append (fun c hc => ?_) t
  have hcases : Text.isDigit c = true ∨ c = '.' := by
    rcases List.mem_append.mp hc with hwhole | hfraction
    · exact .inl (h.isDigit c (List.mem_append_left _ hwhole))
    · split at hfraction
      · cases hfraction
      · rcases List.mem_cons.mp hfraction with hpoint | hfraction
        · exact .inr hpoint
        · exact .inl (h.isDigit c (List.mem_append_right _ hfraction))
  constructor
  · rintro rfl
    revert hcases
    decide
  · rintro rfl
    revert hcases
    decide

/-- A numeral is read as what it writes. -/
theorem Numeral.decimal?_eq {s : List Char} {n : Nat} {e : Int} (h : Numeral s n e)
    (negative : Bool) : decimal? negative s = some (.ofDecimal negative n e) := by
  cases h with
  | plain hd htext he =>
      have hcut := hd.cutExponent_mantissaText []
      rw [List.append_nil] at hcut
      simp [htext, he, decimal?, hcut, cutExponent, hd.cutAt?_mantissaText, hd.read]
  | scaled hd hmark htext he =>
      rename_i mark power
      have hcut := hd.cutExponent_mantissaText ('e' :: mark)
      simp [htext, he, decimal?, hcut, cutExponent, hd.cutAt?_mantissaText, hd.read, hmark]

theorem sign_of_isDigit {c : Char} (h : Text.isDigit c = true) (rest : List Char) :
    sign (c :: rest) = (false, c :: rest) := by
  unfold sign
  split
  · rename_i heq
    rw [(List.cons.inj heq).1] at h
    exact absurd h (by decide)
  · rename_i heq
    rw [(List.cons.inj heq).1] at h
    exact absurd h (by decide)
  · rfl

theorem lowerAscii_of_isDigit {c : Char} (h : Text.isDigit c = true) : Text.lowerAscii c = c := by
  have hbound := (Text.isDigit_iff.mp h).2
  have hval : c.toNat = c.val.toNat := rfl
  have hA : ('A' : Char).val.toNat = 65 := by decide
  unfold Text.lowerAscii
  rw [if_neg]
  simp only [Bool.and_eq_true, decide_eq_true_eq, Char.le_def, UInt32.le_iff_toNat_le, hA]
  omega

/-- A text that begins with a digit is none of the words for numbers. -/
theorem parse?_of_sign {s body : List Char} {c : Char} {negative : Bool}
    (hs : sign s = (negative, c :: body)) (hc : Text.isDigit c = true) :
    parse? s = decimal? negative (c :: body) := by
  have hne : ∀ (d : Char) (word : List Char), Text.isDigit d = false →
      String.ofList ((c :: body).map Text.lowerAscii) ≠ String.ofList (d :: word) := by
    intro d word hd heq
    have heq' := String.ofList_injective heq
    rw [List.map_cons, lowerAscii_of_isDigit hc] at heq'
    rw [(List.cons.inj heq').1, hd] at hc
    cases hc
  unfold parse?
  simp only [hs]
  split
  · rename_i heq
    exact absurd heq (hne 'i' ['n', 'f'] (by decide))
  · rename_i heq
    exact absurd heq (hne 'i' ['n', 'f', 'i', 'n', 'i', 't', 'y'] (by decide))
  · rename_i heq
    exact absurd heq (hne 'n' ['a', 'n'] (by decide))
  · rfl

theorem Numeral.exists_cons {s : List Char} {n : Nat} {e : Int} (h : Numeral s n e) :
    ∃ c rest, s = c :: rest ∧ Text.isDigit c = true := by
  have hcons : ∀ {whole fraction rest : List Char} {n : Nat}, Digits whole fraction n →
      ∃ c tail, mantissaText whole fraction ++ rest = c :: tail ∧ Text.isDigit c = true := by
    intro whole fraction rest n hd
    obtain ⟨c, whole, rfl⟩ := List.exists_cons_of_ne_nil hd.ne_nil
    exact ⟨c, _, rfl, hd.isDigit c (List.mem_cons_self ..)⟩
  cases h with
  | plain hd htext he =>
      rw [htext, ← List.append_nil (mantissaText _ _)]
      exact hcons hd
  | scaled hd hmark htext he =>
      rw [htext]
      exact hcons hd

/-- A numeral, behind a minus sign or not, is read as what it writes. -/
theorem Numeral.parse?_eq {s : List Char} {n : Nat} {e : Int} (h : Numeral s n e)
    (negative : Bool) :
    parse? (if negative then '-' :: s else s) = some (.ofDecimal negative n e) := by
  obtain ⟨c, rest, rfl, hc⟩ := h.exists_cons
  rw [← h.decimal?_eq negative]
  cases negative with
  | true => exact parse?_of_sign rfl hc
  | false => exact parse?_of_sign (sign_of_isDigit hc rest) hc

end Double

open Double

/-! ## Writing a numeral -/

theorem Text.natOfDigits?_digitsOf_zeros (n k : Nat) :
    natOfDigits? 10 (digitsOf n ++ List.replicate k '0') = some (n * 10 ^ k) := by
  rw [natOfDigits?, if_neg (by simp [digitsOf_ne_nil]), natFrom?_append, digitsOf,
    natFrom?_toDigits (by decide) (by decide), Option.bind_some, natFrom?_zeros (by decide),
    Nat.zero_mul, Nat.zero_add]

/-- Digits with zeros at either end are digits. -/
theorem Text.isDigit_of_mem_append_zeros {n k : Nat} {c : Char}
    (h : c ∈ digitsOf n ∨ c ∈ List.replicate k '0') : isDigit c = true := by
  rcases h with h | h
  · exact isDigit_of_mem_digitsOf h
  · rw [List.eq_of_mem_replicate h]
    decide

/-- The exponent of a number is read behind any of the signs it may have. -/
theorem Double.exponent?_digitsOf {e : Int} {mark : List Char}
    (h : mark = (if e < 0 then ['-'] else []) ∨ mark = (if e < 0 then ['-'] else ['+'])) :
    exponent? (mark ++ Text.digitsOf e.natAbs) = some e := by
  have hread : Text.natOfDigits? 10 (Text.digitsOf e.natAbs) = some e.natAbs :=
    Text.natOfDigits?_toDigits (by decide) (by decide) _
  unfold exponent?
  by_cases he : e < 0
  · have hmark : mark = ['-'] := by simpa [he] using h
    subst hmark
    simp only [List.cons_append, List.nil_append, sign, hread, if_true]
    show some (-(e.natAbs : Int)) = some e
    rw [Int.ofNat_natAbs_of_nonpos (Int.le_of_lt he), Int.neg_neg]
  · have hmark : mark = [] ∨ mark = ['+'] := by simpa [he] using h
    have hsign : sign (mark ++ Text.digitsOf e.natAbs) = (false, Text.digitsOf e.natAbs) := by
      rcases hmark with rfl | rfl
      · obtain ⟨c, rest, hcons⟩ := List.exists_cons_of_ne_nil (Text.digitsOf_ne_nil e.natAbs)
        have hc : Text.isDigit c = true :=
          Text.isDigit_of_mem_digitsOf (hcons ▸ List.mem_cons_self ..)
        rw [List.nil_append, hcons, sign_of_isDigit hc]
      · rfl
    simp only [hsign, hread, Bool.false_eq_true, if_false]
    show some (e.natAbs : Int) = some e
    rw [Int.natAbs_of_nonneg (Int.not_lt.mp he)]

/-- Zeros behind the digits multiply by powers of ten, on whichever side of the point they stand. -/
theorem Double.Digits.zeros_behind (n z : Nat) (fraction : List Char)
    (h : List.replicate z '0' ++ fraction = List.replicate (z + fraction.length) '0') :
    Digits (Text.digitsOf n ++ List.replicate z '0') fraction
      (n * 10 ^ (z + fraction.length)) := by
  refine .of_append (by rw [List.append_assoc, h]) (by simp [Text.digitsOf_ne_nil]) (fun c hc => ?_)
    (Text.natOfDigits?_digitsOf_zeros n _)
  exact Text.isDigit_of_mem_append_zeros (List.mem_append.mp hc)

/-- A point anywhere but in front of the digits cuts them into two. -/
theorem Double.Digits.cut {i : Nat} (hi : 0 < i) (n : Nat) :
    Digits ((Text.digitsOf n).take i) ((Text.digitsOf n).drop i) n := by
  have hpos := List.length_pos_iff.mpr (Text.digitsOf_ne_nil n)
  refine .of_append (List.take_append_drop i _) ?_ (fun c hc => Text.isDigit_of_mem_digitsOf hc)
    (Text.natOfDigits?_toDigits (by decide) (by decide) n)
  exact List.length_pos_iff.mp (by rw [List.length_take]; omega)

/-- Zeros in front of the digits change nothing. -/
theorem Double.Digits.zeros_before (n k : Nat) :
    Digits ['0'] (List.replicate k '0' ++ Text.digitsOf n) n := by
  have happend : ['0'] ++ (List.replicate k '0' ++ Text.digitsOf n) =
      List.replicate (k + 1) '0' ++ Text.digitsOf n := by
    rw [List.replicate_succ]
    rfl
  refine .of_append happend (by simp) (fun c hc => ?_)
    (Text.natOfDigits?_zeros_append (by decide) (by decide) _ n)
  exact Text.isDigit_of_mem_append_zeros (List.mem_append.mp hc).symm

namespace Layout

/-- **What a layout writes is a numeral**, for the digits with perhaps some zeros behind them. -/
theorem numeral_digits (l : Layout) (d : Decimal) :
    ∃ k : Nat, Numeral (l.digits d) (d.digits * 10 ^ k) (d.exponent - k) := by
  obtain ⟨n, e⟩ := d
  have hne := Text.digitsOf_ne_nil n
  have hpos := List.length_pos_iff.mpr hne
  have hcut : ∀ {i}, 0 < i →
      Digits ((Text.digitsOf n).take i) ((Text.digitsOf n).drop i) (n * 10 ^ 0) := by
    intro i hi
    simpa using Digits.cut hi n
  unfold digits
  dsimp only
  split
  · split
    · -- the point falls behind the digits
      rename_i he
      obtain ⟨z, rfl⟩ : ∃ z : Nat, e = z := ⟨e.toNat, by omega⟩
      cases l.point with
      | false =>
          have hd := Digits.zeros_behind n z [] (by simp)
          exact ⟨z, .plain hd (by simp [mantissaText]) (by simp)⟩
      | true =>
          have hd := Digits.zeros_behind n z ['0'] (by simp [List.replicate_succ'])
          exact ⟨z + 1, .plain hd (by simp [mantissaText]) (by simp)⟩
    · split
      · -- the point falls among the digits
        rename_i he hplace
        refine ⟨0, .plain (hcut (i := ((Text.digitsOf n).length + e).toNat) (by omega)) ?_ ?_⟩
        · rw [mantissaText, if_neg (by simp; omega)]
        · rw [List.length_drop]
          omega
      · -- the point falls in front of the digits
        rename_i he hplace
        have hd := Digits.zeros_before n (-((Text.digitsOf n).length + e)).toNat
        refine ⟨0, .plain (by rwa [Nat.pow_zero, Nat.mul_one]) ?_ ?_⟩
        · rw [mantissaText, if_neg (by simp [hne])]
          rfl
        · simp
          omega
  · -- an exponent follows the digits
    have hmark : exponent? ((if ((Text.digitsOf n).length : Int) + e - 1 < 0 then ['-'] else
        if l.plus then ['+'] else []) ++
          Text.digitsOf (((Text.digitsOf n).length : Int) + e - 1).natAbs) =
        some ((Text.digitsOf n).length + e - 1) :=
      exponent?_digitsOf (by cases l.plus <;> simp)
    refine ⟨0, .scaled (hcut (i := 1) (by decide)) hmark ?_ ?_⟩
    · have hone : ((Text.digitsOf n).drop 1).isEmpty = true ↔ (Text.digitsOf n).length ≤ 1 := by
        rw [List.isEmpty_iff, List.drop_eq_nil_iff]
      simp only [mantissaText, hone]
      exact List.append_assoc ..
    · rw [List.length_drop]
      omega

/-- **Whatever the layout, a finite number is read from the text that writes it.** -/
theorem parse?_render (l : Layout) (negative : Bool) (m : Magnitude) :
    Double.parse? (l.render (.finite negative m)).toList = some (.finite negative m) := by
  unfold render
  simp only [String.toList_ofList]
  by_cases hm : m = .zero
  · subst hm
    cases l.point <;> cases negative <;> rfl
  · rw [if_neg hm]
    obtain ⟨k, hnumeral⟩ := l.numeral_digits m.shortest
    have hrounds := (Magnitude.RoundsDecimal.shift k).mpr (Magnitude.rounds_shortest hm)
    rw [hnumeral.parse?_eq negative, Double.ofDecimal_of_rounds hm hrounds]

end Layout

namespace Number

/-- The numbers whose texts are read as binary64 numbers: all but infinities and what is none. -/
theorem parse?_text_double (d : Double) :
    Double.parse? (text (.double d)).toList = if d.isFinite then some d else none := by
  cases d with
  | finite negative m => exact layout.parse?_render negative m
  | nan => decide
  | infinity negative => cases negative <;> decide

end Number

end TreeEdit
