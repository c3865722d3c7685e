import Mathlib.Data.Bool.AllAny
import Mathlib.Data.List.TakeWhile
import TreeEdit.Json.Reader
import TreeEdit.Json.Writer
import TreeEdit.Proofs.Children
import TreeEdit.Proofs.Digits

/-!
# JSON on one line is read back

A document is exact for JSON (`Json.isExact`) if nothing of it is lost on the way there: it has no
tags, its numbers are whole, and the keys of its mappings are strings, no two of them the same.
Written on one line, such a document is read as itself, as long as it is not nested deeper than the
reader goes (`Json.parse_compact`).

The reader is followed once, over the structure of the document (`Json.Reads`). What is written for
a node begins with a character that tells its kind, and it is read whatever stands behind it, except
that a number must not go on. Each call of the reader takes a character at least, so the length of
the text is fuel enough.
-/

namespace TreeEdit

namespace Json

/-- Whether JSON holds a document exactly: no tags, whole numbers, distinct strings for keys. -/
def isExact : Tree → Bool
  | .null | .bool _ | .string _ => true
  | .number (.whole _) => true
  | .number (.double _) => false
  | .sequence items => exactItems items
  | .mapping entries => decide (Entries.Distinct entries) && exactEntries entries
  | .tagged _ _ => false
where
  /-- Whether JSON holds the items of a sequence exactly. -/
  exactItems : List Tree → Bool
    | [] => true
    | x :: xs => isExact x && exactItems xs
  /-- Whether JSON holds the entries of a mapping exactly. -/
  exactEntries : List (Tree × Tree) → Bool
    | [] => true
    | (k, v) :: es => k.kind = .string && isExact v && exactEntries es

end Json

/-- How many collections stand inside each other. -/
def Tree.nesting : Tree → Nat
  | .sequence items => nestingOfItems items + 1
  | .mapping entries => nestingOfEntries entries + 1
  | .tagged _ value => value.nesting
  | .null | .bool _ | .number _ | .string _ => 0
where
  /-- How many stand inside each other in an item of a sequence. -/
  nestingOfItems : List Tree → Nat
    | [] => 0
    | x :: xs => max x.nesting (nestingOfItems xs)
  /-- How many stand inside each other in a value of a mapping. -/
  nestingOfEntries : List (Tree × Tree) → Nat
    | [] => 0
    | (_, v) :: es => max v.nesting (nestingOfEntries es)

namespace Json

/-! ## Strings -/

/-- The escape of a control character by its number is read as the character. -/
theorem unicodeEscape?_hex4 {n : Nat} (h : n < 0x20) (rest : List Char) :
    unicodeEscape? (hex4 n ++ rest) = some (Char.ofNat n, rest) := by
  have hread : ∀ n < 0x20, (hex4 n).length = 4 ∧ Text.natOfDigits? 16 (hex4 n) = some n := by decide
  obtain ⟨hlength, hdigits⟩ := hread n h
  obtain ⟨a, b, c, d, heq⟩ : ∃ a b c d, hex4 n = [a, b, c, d] := by
    match hex4 n, hlength with
    | [a, b, c, d], _ => exact ⟨a, b, c, d, rfl⟩
  rw [heq] at hdigits
  have hlow : ¬ (0xD800 ≤ n ∧ n < 0xDC00) ∧ ¬ (0xDC00 ≤ n ∧ n < 0xE000) := by omega
  simp [unicodeEscape?, hex4?, heq, hdigits, hlow]

/-- What is written for a character is read as the character. -/
theorem string?_escapeChar (fuel : Nat) (taken : List Char) (c : Char) (rest : List Char) :
    string? (fuel + 1) taken (escapeChar c ++ rest) = string? fuel (c :: taken) rest := by
  unfold escapeChar
  -- the escapes by a letter
  iterate 7
    split
    · subst_vars
      rfl
  rename_i hquote hbackslash _ _ _ _ _
  split
  · rename_i hcontrol
    have hread := unicodeEscape?_hex4 hcontrol rest
    rw [Char.ofNat_toNat] at hread
    simp [string?, hread]
  · rename_i hplain
    simp [string?, hquote, hbackslash, hplain]

theorem escapeChar_ne_nil (c : Char) : 0 < (escapeChar c).length := by
  unfold escapeChar
  repeat' split
  all_goals simp

/-- **A string in quotes is read as the string.** -/
theorem string?_flatMap {s : List Char} {fuel : Nat}
    (hfuel : (s.flatMap escapeChar).length < fuel) (taken rest : List Char) :
    string? fuel taken (s.flatMap escapeChar ++ '"' :: rest) =
      some (String.ofList (taken.reverse ++ s), rest) := by
  induction s generalizing fuel taken with
  | nil =>
      obtain ⟨fuel, rfl⟩ : ∃ n, fuel = n + 1 := ⟨fuel - 1, by simp at hfuel; omega⟩
      simp [string?]
  | cons c s ih =>
      -- one call of the reader for a character, and at least one character is written for it
      have hpos := escapeChar_ne_nil c
      rw [List.flatMap_cons, List.length_append] at hfuel
      obtain ⟨fuel, rfl⟩ : ∃ n, fuel = n + 1 := ⟨fuel - 1, by omega⟩
      rw [List.flatMap_cons, List.append_assoc, string?_escapeChar, ih (by omega)]
      simp

/-! ## Whole numbers -/

/-- What stands behind a number does not go on with it. -/
def EndsNumber (rest : List Char) : Prop :=
  ∀ c ∈ rest.head?, Text.isDigit c = false ∧ c ≠ '.' ∧ c ≠ 'e' ∧ c ≠ 'E'

theorem takeWhile_digits {ds rest : List Char} (hds : ∀ c ∈ ds, Text.isDigit c = true)
    (hrest : EndsNumber rest) :
    (ds ++ rest).takeWhile Text.isDigit = ds ∧ (ds ++ rest).dropWhile Text.isDigit = rest := by
  rw [List.takeWhile_append_of_pos hds, List.dropWhile_append_of_pos hds]
  cases rest with
  | nil => simp
  | cons c rest =>
      have hc := (hrest c rfl).1
      simp [hc]

/-- Digits that do not begin with a zero are taken whole, and a zero stands alone. -/
theorem wholePart?_digitsOf (n : Nat) {rest : List Char} (hrest : EndsNumber rest) :
    wholePart? (Text.digitsOf n ++ rest) = some (Text.digitsOf n, rest) := by
  have hds : ∀ c ∈ Text.digitsOf n, Text.isDigit c = true :=
    fun c hc => Text.isDigit_of_mem_digitsOf hc
  obtain ⟨htake, hdrop⟩ := takeWhile_digits hds hrest
  rcases Nat.eq_zero_or_pos n with rfl | hpos
  · have hzero : Text.digitsOf 0 = ['0'] := rfl
    rw [hzero, List.singleton_append, wholePart?, if_neg]
    cases rest with
    | nil => simp
    | cons c rest => simp [(hrest c rfl).1]
  · have hhead := Text.head?_digitsOf hpos
    have hne := Text.digitsOf_ne_nil n
    unfold wholePart?
    split
    · rename_i rest' heq
      obtain ⟨d, ds, hcons⟩ := List.exists_cons_of_ne_nil hne
      rw [hcons, List.cons_append] at heq
      rw [hcons, (List.cons.inj heq).1] at hhead
      exact absurd rfl hhead
    · simp [htake, hdrop, hne]

theorem fractionPart?_of_endsNumber {rest : List Char} (hrest : EndsNumber rest) :
    fractionPart? rest = some ([], rest) := by
  unfold fractionPart?
  split
  · exact absurd rfl (hrest '.' rfl).2.1
  · rfl

theorem exponentPart?_of_endsNumber {rest : List Char} (hrest : EndsNumber rest) :
    exponentPart? rest = some (none, rest) := by
  cases rest with
  | nil => rfl
  | cons c rest =>
      obtain ⟨-, -, he, hE⟩ := hrest c rfl
      simp [exponentPart?, he, hE]

/-- The digits of a whole number make the number. -/
theorem number?_digitsOf (n : Whole) :
    number? (decide (n.toInt < 0)) (Text.digitsOf n.toInt.natAbs) [] none = some (.whole n) := by
  have hread : Text.natOfDigits? 10 (Text.digitsOf n.toInt.natAbs) = some n.toInt.natAbs :=
    Text.natOfDigits?_toDigits (by decide) (by decide) _
  have hvalue : (if decide (n.toInt < 0) = true then -(n.toInt.natAbs : Int)
      else (n.toInt.natAbs : Int)) = n.toInt := by
    split
    · rename_i hneg
      have := of_decide_eq_true hneg
      omega
    · rename_i hneg
      have := of_decide_eq_false (Bool.eq_false_iff.mpr hneg)
      omega
  have hzero : ¬ (decide (n.toInt < 0) && decide (n.toInt.natAbs = 0)) = true := by
    rw [Bool.and_eq_true, decide_eq_true_eq, decide_eq_true_eq]
    omega
  unfold number?
  simp only [hread, Option.getD_some, hvalue, Whole.ofInt?_toInt]
  rw [if_neg hzero]

/-- Digits with nothing behind them that goes on are read as the number that they make. -/
theorem readNumber?_of_digits {negative : Bool} {ds rest : List Char} {n : Number}
    (hds : (ds ++ rest).head? ≠ some '-') (hwhole : wholePart? (ds ++ rest) = some (ds, rest))
    (hrest : EndsNumber rest) (hnumber : number? negative ds [] none = some n) :
    readNumber? ((if negative then '-' :: ds else ds) ++ rest) = some (.number n, rest) := by
  have hfraction := fractionPart?_of_endsNumber hrest
  have hexponent := exponentPart?_of_endsNumber hrest
  unfold readNumber?
  split
  rename_i negative' body hsign
  obtain ⟨rfl, rfl⟩ : negative' = negative ∧ body = ds ++ rest := by
    cases negative with
    | true =>
        obtain ⟨rfl, rfl⟩ := Prod.mk.inj hsign
        exact ⟨rfl, rfl⟩
    | false =>
        rw [if_neg Bool.false_ne_true] at hsign
        split at hsign
        · rename_i heq
          rw [heq] at hds
          exact absurd rfl hds
        · obtain ⟨rfl, rfl⟩ := Prod.mk.inj hsign
          exact ⟨rfl, rfl⟩
  simp [hwhole, hfraction, hexponent, hnumber]

/-- **A whole number is read as the number.** -/
theorem readNumber?_text (n : Whole) {rest : List Char} (hrest : EndsNumber rest) :
    readNumber? (n.text.toList ++ rest) = some (.number (.whole n), rest) := by
  have htext : n.text.toList = if decide (n.toInt < 0) = true then
      '-' :: Text.digitsOf n.toInt.natAbs else Text.digitsOf n.toInt.natAbs := by
    rw [Whole.text, String.toList_ofList]
    simp only [decide_eq_true_eq]
  have hhead : (Text.digitsOf n.toInt.natAbs ++ rest).head? ≠ some '-' := fun h => by
    obtain ⟨d, ds, hcons⟩ := List.exists_cons_of_ne_nil (Text.digitsOf_ne_nil n.toInt.natAbs)
    have hd := Text.isDigit_of_mem_digitsOf (hcons ▸ List.mem_cons_self ..)
    rw [hcons] at h
    rw [Option.some.inj h] at hd
    exact absurd hd (by decide)
  rw [htext]
  exact readNumber?_of_digits hhead (wholePart?_digitsOf _ hrest) hrest (number?_digitsOf n)

/-! ## Values -/

/-- Whether a text begins with a character that begins a value. -/
def Begins (s : List Char) : Prop :=
  ∃ c tail, s = c :: tail ∧ c ∉ [' ', '\n', '\t', '\r', ']', '\x7d']

theorem Begins.append {s : List Char} (h : Begins s) (rest : List Char) : Begins (s ++ rest) := by
  obtain ⟨c, tail, rfl, hc⟩ := h
  exact ⟨c, tail ++ rest, rfl, hc⟩

theorem Begins.skipBlanks {s : List Char} (h : Begins s) : skipBlanks s = s := by
  obtain ⟨c, tail, rfl, hc⟩ := h
  simp only [List.mem_cons, List.not_mem_nil, or_false, not_or] at hc
  rw [Json.skipBlanks, List.dropWhile_cons_of_neg (by simp [hc])]

/-- A text that is read as a document, whatever stands behind it. -/
structure Reads (t : Tree) (s : List Char) : Prop where
  begins : Begins s
  read : ∀ (fuel depth : Nat) (rest : List Char), s.length ≤ fuel → t.nesting < depth →
    EndsNumber rest → value? fuel depth (s ++ rest) = some (t, rest)

/-- A text that is read as the items of an array. -/
structure ReadsItems (xs : List Tree) (s : List Char) : Prop where
  begins : Begins s
  read : ∀ (fuel depth : Nat) (rest : List Char), s.length < fuel →
    Tree.nesting.nestingOfItems xs < depth → items? fuel depth (s ++ ']' :: rest) = some (xs, rest)

/-- A text that is read as the members of an object. -/
structure ReadsEntries (es : Entries) (s : List Char) : Prop where
  begins : Begins s
  read : ∀ (fuel depth : Nat) (before : Entries) (rest : List Char), s.length < fuel →
    Tree.nesting.nestingOfEntries es < depth →
    entries? fuel depth before (s ++ '\x7d' :: rest) = some (before.insertAll es, rest)

theorem endsNumber_of_cons {c : Char} (h : c ∈ [',', ']', '\x7d']) (rest : List Char) :
    EndsNumber (c :: rest) := by
  intro d hd
  obtain rfl : c = d := by simpa using hd
  have hall : ∀ c ∈ [',', ']', '\x7d'],
      Text.isDigit c = false ∧ c ≠ '.' ∧ c ≠ 'e' ∧ c ≠ 'E' :=
    List.all_iff_forall_prop.mp (by decide)
  exact hall c h

/-- A quoted string is read up to its closing quote, whatever follows. -/
theorem string?_quote (s : String) (rest : List Char) :
    string? ((s.toList.flatMap escapeChar ++ '"' :: rest).length + 1) []
      (s.toList.flatMap escapeChar ++ '"' :: rest) = some (s, rest) := by
  rw [string?_flatMap (by rw [List.length_append]; omega), List.reverse_nil, List.nil_append,
    String.ofList_toList]

theorem quote_append (s : String) (rest : List Char) :
    quote s ++ rest = '"' :: (s.toList.flatMap escapeChar ++ '"' :: rest) := by
  simp [quote]

theorem reads_string (s : String) : Reads (.string s) (quote s) where
  begins := ⟨'"', _, rfl, by decide⟩
  read := by
    intro fuel depth rest hfuel _ _
    obtain ⟨fuel, rfl⟩ : ∃ n, fuel = n + 1 := ⟨fuel - 1, by simp [quote] at hfuel; omega⟩
    rw [quote_append, value?_of_quote (Begins.skipBlanks ⟨'"', _, rfl, by decide⟩),
      string?_quote, Option.map_some]

theorem reads_null : Reads .null ['n', 'u', 'l', 'l'] where
  begins := ⟨'n', _, rfl, by decide⟩
  read := by
    intro fuel depth rest hfuel _ _
    obtain ⟨fuel, rfl⟩ : ∃ n, fuel = n + 1 := ⟨fuel - 1, by simp at hfuel; omega⟩
    rfl

theorem reads_bool (b : Bool) : Reads (.bool b) (if b then "true" else "false").toList where
  begins := by cases b <;> exact ⟨_, _, rfl, by decide⟩
  read := by
    intro fuel depth rest hfuel _ _
    cases b with
    | true =>
        obtain ⟨fuel, rfl⟩ : ∃ n, fuel = n + 1 := ⟨fuel - 1, by simp at hfuel; omega⟩
        rfl
    | false =>
        obtain ⟨fuel, rfl⟩ : ∃ n, fuel = n + 1 := ⟨fuel - 1, by simp at hfuel; omega⟩
        rfl

theorem Begins.of_number {c : Char} (hc : Text.isDigit c = true ∨ c = '-') (s : List Char) :
    Begins (c :: s) := by
  refine ⟨c, s, rfl, fun hmem => ?_⟩
  have hall : ∀ c ∈ [' ', '\n', '\t', '\r', ']', '\x7d'],
      ¬ (Text.isDigit c = true ∨ c = '-') := List.all_iff_forall_prop.mp (by decide)
  exact hall c hmem hc

/-- What begins with a digit or a minus sign is a number. -/
theorem value?_of_number {c : Char} (hc : Text.isDigit c = true ∨ c = '-') (fuel depth : Nat)
    (s : List Char) : value? (fuel + 1) depth (c :: s) = readNumber? (c :: s) := by
  rw [value?, (Begins.of_number hc s).skipBlanks]
  have hne : ∀ d ∈ ['n', 't', 'f', '"', '[', '\x7b'], c ≠ d := by
    rintro d hd rfl
    have hall : ∀ c ∈ ['n', 't', 'f', '"', '[', '\x7b'],
        ¬ (Text.isDigit c = true ∨ c = '-') := List.all_iff_forall_prop.mp (by decide)
    exact hall c hd hc
  simp only [List.mem_cons, List.not_mem_nil, or_false, forall_eq_or_imp, forall_eq] at hne
  split <;> simp_all

/-- A number is read back, since what follows it is none of its characters. -/
theorem reads_number (n : Whole) : Reads (.number (.whole n)) n.text.toList := by
  obtain ⟨c, tail, htext, hc⟩ : ∃ c tail, n.text.toList = c :: tail ∧
      (Text.isDigit c = true ∨ c = '-') := by
    rw [Whole.text, String.toList_ofList]
    split
    · exact ⟨_, _, rfl, .inr rfl⟩
    · obtain ⟨d, ds, hcons⟩ := List.exists_cons_of_ne_nil (Text.digitsOf_ne_nil n.toInt.natAbs)
      exact ⟨d, ds, hcons, .inl (Text.isDigit_of_mem_digitsOf (hcons ▸ List.mem_cons_self ..))⟩
  refine ⟨htext ▸ .of_number hc tail, ?_⟩
  intro fuel depth rest hfuel _ hrest
  have hread := readNumber?_text n hrest
  rw [htext] at hfuel hread ⊢
  obtain ⟨fuel, rfl⟩ : ∃ n, fuel = n + 1 := ⟨fuel - 1, by simp at hfuel; omega⟩
  rw [List.cons_append] at hread ⊢
  rw [value?_of_number hc, hread]

/-! ## Collections -/

theorem skipBlanks_of_mem {c : Char} (h : c ∈ [',', ':', '"', ']', '\x7d']) (rest : List Char) :
    skipBlanks (c :: rest) = c :: rest := by
  have hall : ∀ c ∈ [',', ':', '"', ']', '\x7d'],
      ¬ (decide (c = ' ') || decide (c = '\n') || decide (c = '\t') || decide (c = '\r')) = true :=
    List.all_iff_forall_prop.mp (by decide)
  exact List.dropWhile_cons_of_neg (hall c h)

theorem ReadsItems.single {x : Tree} {s : List Char} (h : Reads x s) : ReadsItems [x] s where
  begins := h.begins
  read := by
    intro fuel depth rest hfuel hdepth
    obtain ⟨fuel, rfl⟩ : ∃ n, fuel = n + 1 := ⟨fuel - 1, by omega⟩
    have hx := h.read fuel depth (']' :: rest) (by omega)
      (by simpa [Tree.nesting.nestingOfItems] using hdepth) (endsNumber_of_cons (by decide) rest)
    simp [items?, hx, skipBlanks_of_mem]

/-- An item before others is read up to its comma. -/
theorem ReadsItems.cons {x : Tree} {xs : List Tree} {s t : List Char} (h : Reads x s)
    (h' : ReadsItems xs t) : ReadsItems (x :: xs) (s ++ ',' :: t) where
  begins := h.begins.append _
  read := by
    intro fuel depth rest hfuel hdepth
    rw [List.length_append, List.length_cons] at hfuel
    rw [Tree.nesting.nestingOfItems] at hdepth
    obtain ⟨fuel, rfl⟩ : ∃ n, fuel = n + 1 := ⟨fuel - 1, by omega⟩
    -- a number among the items goes no further than the comma
    have hx := h.read fuel depth (',' :: (t ++ ']' :: rest)) (by omega) (by omega)
      (endsNumber_of_cons (by decide) _)
    have hxs := h'.read fuel depth rest (by omega) (by omega)
    simp [items?, hx, hxs, skipBlanks_of_mem]

/-- Behind an opening bracket stand the items of an array. -/
theorem value?_bracket {fuel depth : Nat} (hdepth : 1 < depth) {s : List Char} (h : Begins s) :
    value? (fuel + 1) depth ('[' :: s) =
      (items? fuel (depth - 1) s).map fun (xs, rest) => (.sequence xs, rest) := by
  have hbracket : skipBlanks ('[' :: s) = '[' :: s := Begins.skipBlanks ⟨'[', _, rfl, by decide⟩
  have hone : ¬ depth ≤ 1 := by omega
  rw [value?]
  simp only [hbracket, hone, if_false, h.skipBlanks]
  obtain ⟨c, tail, rfl, hc⟩ := h
  split
  · rename_i heq
    rw [(List.cons.inj heq).1] at hc
    exact absurd (by decide) hc
  · rfl

/-- Behind an opening brace stand the members of an object. -/
theorem value?_brace {fuel depth : Nat} (hdepth : 1 < depth) {s : List Char} (h : Begins s) :
    value? (fuel + 1) depth ('\x7b' :: s) =
      (entries? fuel (depth - 1) [] s).map fun (es, rest) => (.mapping es, rest) := by
  have hbrace : skipBlanks ('\x7b' :: s) = '\x7b' :: s :=
    Begins.skipBlanks ⟨'\x7b', _, rfl, by decide⟩
  have hone : ¬ depth ≤ 1 := by omega
  rw [value?]
  simp only [hbrace, hone, if_false, h.skipBlanks]
  obtain ⟨c, tail, rfl, hc⟩ := h
  split
  · rename_i heq
    rw [(List.cons.inj heq).1] at hc
    exact absurd (by decide) hc
  · rfl

/-- Items in brackets are read as a sequence. -/
theorem reads_sequence {xs : List Tree} {s : List Char} (h : ReadsItems xs s) :
    Reads (.sequence xs) ('[' :: s ++ [']']) where
  begins := ⟨'[', _, rfl, by decide⟩
  read := by
    intro fuel depth rest hfuel hdepth _
    rw [Tree.nesting] at hdepth
    simp only [List.length_append, List.length_cons, List.length_nil] at hfuel
    obtain ⟨fuel, rfl⟩ : ∃ n, fuel = n + 1 := ⟨fuel - 1, by omega⟩
    have hxs := h.read fuel (depth - 1) rest (by omega) (by omega)
    have htext : '[' :: s ++ [']'] ++ rest = '[' :: (s ++ ']' :: rest) := by simp
    rw [htext, value?_bracket (by omega) (h.begins.append _), hxs]
    rfl

/-- A member of an object is read, and then what stands behind its comma, or nothing else. -/
theorem entries?_member {key : String} {v : Tree} {s : List Char} (h : Reads v s)
    {fuel depth : Nat} {before : Entries} {c : Char} (hc : c = ',' ∨ c = '\x7d')
    (hfuel : s.length ≤ fuel) (hdepth : v.nesting < depth) (rest : List Char) :
    entries? (fuel + 1) depth before (quote key ++ ':' :: s ++ c :: rest) =
      if c = ',' then entries? fuel depth (before.insert (.string key) v) rest
      else some (before.insert (.string key) v, rest) := by
  have hquote : ∀ u, skipBlanks ('"' :: u) = '"' :: u := skipBlanks_of_mem (by decide)
  have hcolon : ∀ u, skipBlanks (':' :: u) = ':' :: u := skipBlanks_of_mem (by decide)
  have hcomma : ∀ u, skipBlanks (',' :: u) = ',' :: u := skipBlanks_of_mem (by decide)
  have hbrace : ∀ u, skipBlanks ('\x7d' :: u) = '\x7d' :: u := skipBlanks_of_mem (by decide)
  have hends : EndsNumber (c :: rest) :=
    endsNumber_of_cons (by rcases hc with rfl | rfl <;> decide) rest
  have hv := h.read fuel depth (c :: rest) hfuel hdepth hends
  rw [List.append_assoc, quote_append, entries?]
  simp only [hquote, string?_quote, List.cons_append, hcolon, hv, bind, Option.bind]
  rcases hc with rfl | rfl
  · simp only [hcomma, if_true]
  · simp only [hbrace]
    rfl

theorem quote_begins (key : String) (rest : List Char) : Begins (quote key ++ rest) :=
  ⟨'"', _, rfl, by decide⟩

theorem ReadsEntries.single {key : String} {v : Tree} {s : List Char} (h : Reads v s) :
    ReadsEntries [(.string key, v)] (quote key ++ ':' :: s) where
  begins := quote_begins key _
  read := by
    intro fuel depth before rest hfuel hdepth
    rw [List.length_append, List.length_cons] at hfuel
    obtain ⟨fuel, rfl⟩ : ∃ n, fuel = n + 1 := ⟨fuel - 1, by omega⟩
    rw [entries?_member h (.inr rfl) (by omega)
      (by simpa [Tree.nesting.nestingOfEntries] using hdepth), if_neg (by decide)]
    rfl

/-- A member before others is read up to its comma. -/
theorem ReadsEntries.cons {key : String} {v : Tree} {es : Entries} {s t : List Char}
    (h : Reads v s) (h' : ReadsEntries es t) :
    ReadsEntries ((.string key, v) :: es) (quote key ++ ':' :: s ++ ',' :: t) where
  begins := by
    rw [List.append_assoc]
    exact quote_begins key _
  read := by
    intro fuel depth before rest hfuel hdepth
    simp only [List.length_append, List.length_cons] at hfuel
    rw [Tree.nesting.nestingOfEntries] at hdepth
    obtain ⟨fuel, rfl⟩ : ∃ n, fuel = n + 1 := ⟨fuel - 1, by omega⟩
    have hes := h'.read fuel depth (before.insert (.string key) v) rest (by omega) (by omega)
    have htext : quote key ++ ':' :: s ++ ',' :: t ++ '\x7d' :: rest =
        quote key ++ ':' :: s ++ ',' :: (t ++ '\x7d' :: rest) := by simp
    rw [htext, entries?_member h (.inl rfl) (by omega) (by omega), if_pos rfl]
    exact hes

/-- Members in braces are read as a mapping; distinct keys keep every one of them. -/
theorem reads_mapping {es : Entries} {s : List Char} (hdistinct : es.Distinct)
    (h : ReadsEntries es s) : Reads (.mapping es) ('\x7b' :: s ++ ['\x7d']) where
  begins := ⟨'\x7b', _, rfl, by decide⟩
  read := by
    intro fuel depth rest hfuel hdepth _
    rw [Tree.nesting] at hdepth
    simp only [List.length_append, List.length_cons, List.length_nil] at hfuel
    obtain ⟨fuel, rfl⟩ : ∃ n, fuel = n + 1 := ⟨fuel - 1, by omega⟩
    have hes := h.read fuel (depth - 1) [] rest (by omega) (by omega)
    have htext : '\x7b' :: s ++ ['\x7d'] ++ rest = '\x7b' :: (s ++ '\x7d' :: rest) := by simp
    rw [htext, value?_brace (by omega) (h.begins.append _), hes,
      show Entries.insertAll [] es = es from Entries.ofList_of_distinct hdistinct]
    rfl

theorem reads_empty_sequence : Reads (.sequence []) ['[', ']'] where
  begins := ⟨'[', _, rfl, by decide⟩
  read := by
    intro fuel depth rest hfuel hdepth _
    obtain ⟨fuel, rfl⟩ : ∃ n, fuel = n + 1 := ⟨fuel - 1, by simp at hfuel; omega⟩
    have hone : ¬ depth ≤ 1 := by
      simp only [Tree.nesting] at hdepth
      omega
    show (if depth ≤ 1 then none else some (Tree.sequence [], rest)) = _
    rw [if_neg hone]

theorem reads_empty_mapping : Reads (.mapping []) ['\x7b', '\x7d'] where
  begins := ⟨'\x7b', _, rfl, by decide⟩
  read := by
    intro fuel depth rest hfuel hdepth _
    obtain ⟨fuel, rfl⟩ : ∃ n, fuel = n + 1 := ⟨fuel - 1, by simp at hfuel; omega⟩
    have hone : ¬ depth ≤ 1 := by
      simp only [Tree.nesting] at hdepth
      omega
    show (if depth ≤ 1 then none else some (Tree.mapping [], rest)) = _
    rw [if_neg hone]

/-! ## Documents -/

/-- On one line, parts between brackets have commas between them. -/
theorem enclose_none (opening closing : Char) {parts : List (List Char)} (h : parts ≠ []) :
    enclose opening closing none parts =
      opening :: List.intercalate [','] parts ++ [closing] := by
  have hmap : parts.map ([] ++ ·) = parts := List.map_id _
  have hequation : enclose opening closing none parts = if parts.isEmpty then [opening, closing]
      else opening :: List.intercalate [','] (parts.map ([] ++ ·)) ++ [] ++ [closing] := rfl
  rw [hequation, if_neg (by simpa using h), hmap, List.append_nil]

/-- The keys of exact entries are strings. -/
theorem exactEntries_cons {k v : Tree} {es : Entries}
    (h : isExact.exactEntries ((k, v) :: es) = true) :
    (∃ key, k = .string key) ∧ isExact v = true ∧ isExact.exactEntries es = true := by
  rw [isExact.exactEntries, Bool.and_eq_true, Bool.and_eq_true, decide_eq_true_eq] at h
  cases k with
  | string key => exact ⟨⟨key, rfl⟩, h.1.2, h.2⟩
  | _ => exact absurd h.1.1 (by simp [Tree.kind])

mutual

/-- **What is written for an exact document is read as the document**, whatever stands behind it. -/
theorem reads_write : ∀ {t : Tree}, isExact t = true → ∃ s, write none t = some s ∧ Reads t s
  | .null, _ => ⟨_, rfl, reads_null⟩
  | .bool b, _ => ⟨_, rfl, reads_bool b⟩
  | .string s, _ => ⟨_, rfl, reads_string s⟩
  | .number (.whole n), _ => ⟨_, rfl, reads_number n⟩
  | .sequence [], _ => ⟨_, rfl, reads_empty_sequence⟩
  | .sequence (x :: xs), h => by
      obtain ⟨parts, hparts, hne, hread⟩ := readsItems_writeItems h (List.cons_ne_nil x xs)
      refine ⟨_, ?_, reads_sequence hread⟩
      rw [write, Option.map_none, hparts, Option.map_some, enclose_none _ _ hne]
  | .mapping [], _ => ⟨_, rfl, reads_empty_mapping⟩
  | .mapping (e :: es), h => by
      rw [isExact, Bool.and_eq_true, decide_eq_true_eq] at h
      obtain ⟨parts, hparts, hne, hread⟩ := readsEntries_writeEntries h.2 (List.cons_ne_nil e es)
      refine ⟨_, ?_, reads_mapping h.1 hread⟩
      rw [write, Option.map_none, hparts, Option.map_some, enclose_none _ _ hne]

theorem readsItems_writeItems : ∀ {xs : List Tree}, isExact.exactItems xs = true → xs ≠ [] →
    ∃ parts, writeItems none xs = some parts ∧ parts ≠ [] ∧
      ReadsItems xs (List.intercalate [','] parts)
  | [], _, h => absurd rfl h
  | x :: xs, h, _ => by
      rw [isExact.exactItems, Bool.and_eq_true] at h
      obtain ⟨part, hpart, hread⟩ := reads_write h.1
      -- the last item stands for itself, and a comma follows any other
      rcases hxs : xs with - | ⟨y, ys⟩
      · exact ⟨[part], by simp [writeItems, hpart], by simp, by simpa using .single hread⟩
      · obtain ⟨parts, hparts, hne, hrest⟩ := readsItems_writeItems h.2 (by simp [hxs])
        obtain ⟨next, parts, rfl⟩ := List.exists_cons_of_ne_nil hne
        rw [hxs] at hparts hrest
        refine ⟨part :: next :: parts, by rw [writeItems, hpart, hparts]; rfl, by simp, ?_⟩
        rw [List.intercalate_cons_cons, List.append_assoc]
        exact .cons hread hrest

theorem readsEntries_writeEntries : ∀ {es : Entries}, isExact.exactEntries es = true → es ≠ [] →
    ∃ parts, writeEntries none es = some parts ∧ parts ≠ [] ∧
      ReadsEntries es (List.intercalate [','] parts)
  | [], _, h => absurd rfl h
  | (k, v) :: es, h, _ => by
      obtain ⟨⟨key, rfl⟩, hv, htail⟩ := exactEntries_cons h
      obtain ⟨part, hpart, hread⟩ := reads_write hv
      rcases hes : es with - | ⟨e, es'⟩
      · exact ⟨[quote key ++ ':' :: part], by simp [writeEntries, keyText?, colon, hpart], by simp,
          by simpa using .single hread⟩
      · obtain ⟨parts, hparts, hne, hrest⟩ := readsEntries_writeEntries htail (by simp [hes])
        obtain ⟨next, parts, rfl⟩ := List.exists_cons_of_ne_nil hne
        rw [hes] at hparts hrest
        refine ⟨(quote key ++ ':' :: part) :: next :: parts, ?_, by simp, ?_⟩
        · rw [writeEntries, hparts]
          simp [keyText?, colon, hpart]
        · rw [List.intercalate_cons_cons, List.append_assoc]
          exact .cons hread hrest

end

/-- **An exact document that is not nested too deeply survives being written on one line.** -/
theorem parse_compact {t : Tree} (hexact : isExact t = true) (hdepth : t.nesting < maxDepth) :
    ∃ text, compact t = .ok text ∧ parse text = .ok t := by
  obtain ⟨s, hwrite, hread⟩ := reads_write hexact
  have hvalue := hread.read (s.length + 1) maxDepth [] (by omega) hdepth (by simp [EndsNumber])
  rw [List.append_nil] at hvalue
  refine ⟨String.ofList s, by rw [compact, hwrite]; rfl, ?_⟩
  rw [parse, String.toList_ofList]
  simp only [hvalue]
  rfl

theorem head?_enclose (opening closing : Char) (depth : Option Nat) (parts : List (List Char)) :
    (enclose opening closing depth parts).head? = some opening := by
  unfold enclose
  split <;> rfl

/-- What is written for a collection begins with a bracket or a brace. -/
theorem head?_compact {t : Tree} {text : String} (h : compact t = .ok text)
    (hcollection : t.isScalar = false) :
    text.toList.head? = some '[' ∨ text.toList.head? = some '\x7b' := by
  have hparts {opening closing : Char} {parts : Option (List (List Char))}
      (h : ofText? (parts.map (enclose opening closing none)) = .ok text) :
      text.toList.head? = some opening := by
    cases parts with
    | none => cases h
    | some parts =>
        cases h
        rw [String.toList_ofList, head?_enclose]
  cases t with
  | null | bool _ | number _ | string _ => cases hcollection
  | sequence items => exact .inl (hparts h)
  | mapping entries => exact .inr (hparts h)
  | tagged tag value =>
      rw [compact, write] at h
      cases hvalue : write none value with
      | none => rw [Option.map_none, hvalue] at h; cases h
      | some s =>
          rw [Option.map_none, hvalue] at h
          exact .inr (@hparts _ _ (some [_]) h)

end Json

end TreeEdit
