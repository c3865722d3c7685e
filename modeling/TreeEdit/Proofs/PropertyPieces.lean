import Mathlib.Data.List.TakeWhile
import TreeEdit.Format.Basic
import TreeEdit.Proofs.Children

/-!
# Keys and values in properties files

The reader of properties files knows escapes, quotes and comments, and leaves blanks out. A key is a
`PlainKey`, and a value a `PlainValue`, if it asks for none of these; written as it is, it is read
as it is.

What the reader makes of a key or a value is never longer than what it took for it: an escape, a
quote, a comment or a blank takes characters and gives none, or fewer. If it is no shorter either,
it is plain and was taken as it stands (`Properties.Taken`, `Properties.ValueTaken`).
-/

namespace TreeEdit

namespace Text

theorem length_trimLeft_le (s : List Char) : (trimLeft s).length ≤ s.length :=
  (List.dropWhile_suffix _).length_le

theorem length_trimRight_le (s : List Char) : (trimRight s).length ≤ s.length := by
  have := (List.dropWhile_suffix (l := s.reverse) isBlank).length_le
  simpa [trimRight] using this

theorem length_trimChars_le (s : List Char) : (trimChars s).length ≤ s.length :=
  Nat.le_trans (length_trimRight_le _) (length_trimLeft_le s)

theorem trimLeft_eq_self {s : List Char} (h : s.length ≤ (trimLeft s).length) : trimLeft s = s :=
  (List.dropWhile_suffix _).eq_of_length_le h

theorem trimRight_eq_self {s : List Char} (h : s.length ≤ (trimRight s).length) :
    trimRight s = s := by
  have hsuffix := List.dropWhile_suffix (l := s.reverse) isBlank
  have heq : s.reverse.dropWhile isBlank = s.reverse :=
    hsuffix.eq_of_length_le (by simpa [trimRight] using h)
  rw [trimRight, heq, List.reverse_reverse]

/-- Trimming that makes nothing shorter changes nothing. -/
theorem trimChars_eq_self {s : List Char} (h : s.length ≤ (trimChars s).length) :
    trimChars s = s := by
  have hright := length_trimRight_le (trimLeft s)
  have hleft : trimLeft s = s := trimLeft_eq_self (Nat.le_trans h hright)
  rw [trimChars, hleft]
  exact trimRight_eq_self (by rwa [trimChars, hleft] at h)

/-- Text that trimming does not change begins with no blank. -/
theorem isBlank_of_trimChars {c : Char} {s : List Char} (h : trimChars (c :: s) = c :: s) :
    isBlank c = false := by
  have hleft : trimLeft (c :: s) = c :: s := trimLeft_eq_self (by
    have := length_trimRight_le (trimLeft (c :: s))
    rwa [← trimChars, h] at this)
  by_contra hc
  have := length_trimLeft_le s
  rw [trimLeft, List.dropWhile_cons_of_pos (by simpa using hc), ← trimLeft] at hleft
  rw [hleft, List.length_cons] at this
  omega

end Text

namespace Properties

/-! ## Plain keys and values -/

/-- A key that is read as it is written. -/
structure PlainKey (k : List Char) : Prop where
  ne_nil : k ≠ []
  trim : Text.trimChars k = k
  chars : ∀ c ∈ k, c ≠ '=' ∧ c ≠ ':' ∧ c ≠ '\\'
  begins : ∀ c ∈ k.head?, c ≠ '#' ∧ c ≠ ';' ∧ c ≠ '['

/-- A value that is read as it is written. -/
structure PlainValue (v : List Char) : Prop where
  trim : Text.trimChars v = v
  chars : ∀ c ∈ v, c ≠ '\n' ∧ c ≠ '\r' ∧ c ≠ '\\'
  begins : ∀ c ∈ v.head?, c ≠ '"' ∧ c ≠ '\''

instance (k : List Char) : Decidable (PlainKey k) :=
  decidable_of_iff (k ≠ [] ∧ Text.trimChars k = k ∧
      (k.all fun c => c ≠ '=' ∧ c ≠ ':' ∧ c ≠ '\\') = true ∧
      (k.head?.all fun c => c ≠ '#' ∧ c ≠ ';' ∧ c ≠ '[') = true)
    ⟨fun ⟨hne, htrim, hchars, hbegins⟩ =>
        ⟨hne, htrim, by simpa using hchars, by simpa [Option.all_eq_true] using hbegins⟩,
      fun ⟨hne, htrim, hchars, hbegins⟩ =>
        ⟨hne, htrim, by simpa using hchars, by simpa [Option.all_eq_true] using hbegins⟩⟩

instance (v : List Char) : Decidable (PlainValue v) :=
  decidable_of_iff (Text.trimChars v = v ∧
      (v.all fun c => c ≠ '\n' ∧ c ≠ '\r' ∧ c ≠ '\\') = true ∧
      (v.head?.all fun c => c ≠ '"' ∧ c ≠ '\'') = true)
    ⟨fun ⟨htrim, hchars, hbegins⟩ =>
        ⟨htrim, by simpa using hchars, by simpa [Option.all_eq_true] using hbegins⟩,
      fun ⟨htrim, hchars, hbegins⟩ =>
        ⟨htrim, by simpa using hchars, by simpa [Option.all_eq_true] using hbegins⟩⟩

/-- The characters of a scalar's text. -/
def chars (t : Tree) : List Char := (t.text?.getD "").toList

/-- An entry that is read as it is written. -/
def PlainEntry (e : Tree × Tree) : Prop := PlainKey (chars e.1) ∧ PlainValue (chars e.2)

instance (e : Tree × Tree) : Decidable (PlainEntry e) := inferInstanceAs (Decidable (_ ∧ _))

/-- The input is empty or ends with a line feed. -/
def EndsLine (s : List Char) : Prop := ∀ c ∈ s.getLast?, c = '\n'

theorem EndsLine.of_suffix {s rest : List Char} (h : EndsLine s) (hs : rest <:+ s) :
    EndsLine rest := by
  obtain ⟨before, rfl⟩ := hs
  intro c hc
  refine h c ?_
  rw [List.getLast?_append, hc]
  rfl

theorem EndsLine.ne_nil_of_cons {c : Char} {s : List Char} (h : EndsLine (c :: s))
    (hc : c ≠ '\n') : s ≠ [] := by
  rintro rfl
  exact hc (h c rfl)

/-! ## Pieces of text -/

/-- A piece of text was taken from the input, some of it perhaps as escapes. -/
structure Taken (stop : Stop) (s piece rest : List Char) : Prop where
  suffix : rest <:+ s
  length_le : piece.length + rest.length ≤ s.length
  /-- no shorter than what it was taken from, it is that -/
  plain : s.length ≤ piece.length + rest.length →
    s = piece ++ rest ∧ ∀ c ∈ piece, stop.at_ c = false ∧ c ≠ '\\'
  stops : ∀ c ∈ rest.head?, stop.at_ c = true
  atEnd : rest = [] → stop.atEnd = true
  /-- the last line feed is not passed over but by a backslash in front of it -/
  joined : rest = [] → s ≠ [] → EndsLine s → stop.at_ '\n' = true → piece.length + 2 ≤ s.length

/-- Escapes are longer than what they stand for. -/
theorem Taken.escape {stop : Stop} {s piece rest : List Char} (h : Taken stop s piece rest)
    (escape given : List Char) (hlength : given.length < escape.length)
    (hlast : EndsLine escape → given.length + 2 ≤ escape.length) :
    Taken stop (escape ++ s) (given ++ piece) rest where
  suffix := h.suffix.trans (List.suffix_append _ _)
  length_le := by
    have := h.length_le
    simp only [List.length_append]
    omega
  plain := fun hle => by
    have := h.length_le
    simp only [List.length_append] at hle
    omega
  stops := h.stops
  atEnd := h.atEnd
  joined := fun hrest hne hline hat => by
    have hle := h.length_le
    simp only [List.length_append]
    by_cases hs : s = []
    · subst hs
      have := hlast (by simpa using hline)
      simp only [List.length_nil] at hle ⊢
      omega
    · have := h.joined hrest hs (hline.of_suffix (List.suffix_append _ _)) hat
      omega

theorem Taken.cons {stop : Stop} {c : Char} {s piece rest : List Char}
    (h : Taken stop s piece rest) (hc : stop.at_ c = false) (hc' : c ≠ '\\') :
    Taken stop (c :: s) (c :: piece) rest where
  suffix := h.suffix.trans (List.suffix_cons _ _)
  length_le := by
    have := h.length_le
    simp only [List.length_cons]
    omega
  plain := fun hle => by
    obtain ⟨heq, hplain⟩ := h.plain (by
      simp only [List.length_cons] at hle
      omega)
    exact ⟨by rw [heq, List.cons_append], List.forall_mem_cons.mpr ⟨⟨hc, hc'⟩, hplain⟩⟩
  stops := h.stops
  atEnd := h.atEnd
  joined := fun hrest _ hline hat => by
    have hs : s ≠ [] := hline.ne_nil_of_cons fun hc' => by
      rw [hc', hat] at hc
      cases hc
    have := h.joined hrest hs (hline.of_suffix (List.suffix_cons _ _)) hat
    simp only [List.length_cons]
    omega

/-- A piece that ends before it begins. -/
theorem Taken.nil {stop : Stop} {s : List Char} (hstops : ∀ c ∈ s.head?, stop.at_ c = true)
    (hend : s = [] → stop.atEnd = true) : Taken stop s [] s where
  suffix := List.suffix_refl s
  length_le := Nat.le_of_eq (Nat.zero_add _)
  plain := fun _ => ⟨rfl, by simp⟩
  stops := hstops
  atEnd := hend
  joined := fun hrest hne => absurd hrest hne

/-- What a piece is, by the cases of its reader: each escape is longer than what it gives. -/
theorem taken_of_piece? {stop : Stop} (hstop : stop.at_ '\\' = false) {taken s t rest : List Char}
    (h : piece? stop taken s = some (t, rest)) :
    ∃ piece, t = taken.reverse ++ piece ∧ Taken stop s piece rest := by
  fun_induction piece? stop taken s with
  | case1 taken hend =>
      obtain ⟨rfl, rfl⟩ := Prod.mk.inj (Option.some.inj h)
      exact ⟨[], by simp, .nil (by simp) fun _ => hend⟩
  | case2 taken hend => cases h
  | case3 taken a b c d rest' hat => exact absurd (hstop.symm.trans hat) (by decide)
  | case4 taken a b c d rest' hat ih =>
      -- an escape by number
      obtain ⟨e, -, he⟩ := Option.bind_eq_some_iff.mp h
      obtain ⟨piece, rfl, hpiece⟩ := ih e he
      exact ⟨[e] ++ piece, by simp,
        hpiece.escape ['\\', 'x', a, b, c, d] [e] (by simp) fun _ => by simp⟩
  | case5 taken rest' ih =>
      -- a line that goes on
      obtain ⟨piece, rfl, hpiece⟩ := ih h
      exact ⟨[] ++ piece, by simp, hpiece.escape ['\\', '\n'] [] (by decide) fun _ => by decide⟩
  | case6 => cases h
  | case7 taken c rest' _ hline _ ih =>
      -- an escape by one character
      obtain ⟨piece, rfl, hpiece⟩ := ih h
      exact ⟨[escaped c] ++ piece, by simp,
        hpiece.escape ['\\', c] [escaped c] (by simp) fun hends => (hline (hends c rfl)).elim⟩
  | case8 => cases h
  | case9 taken c rest' _ _ _ _ hat =>
      obtain ⟨rfl, rfl⟩ := Prod.mk.inj (Option.some.inj h)
      exact ⟨[], by simp, .nil (by simpa using hat) (by simp)⟩
  | case10 taken c rest' _ _ hother hlast hat ih =>
      obtain ⟨piece, rfl, hpiece⟩ := ih h
      -- backslashes are all taken care of in the cases before
      have hc : c ≠ '\\' := by
        rintro rfl
        cases rest' with
        | nil => exact hlast rfl rfl
        | cons d rest' => exact hother d rest' rfl rfl
      exact ⟨c :: piece, by simp, hpiece.cons (by simpa using hat) hc⟩

theorem taken_of_piece?_nil {stop : Stop} (hstop : stop.at_ '\\' = false) {s t rest : List Char}
    (h : piece? stop [] s = some (t, rest)) : Taken stop s t rest := by
  obtain ⟨piece, rfl, hpiece⟩ := taken_of_piece? hstop h
  exact hpiece

/-- A piece without escapes is read as it is written. -/
theorem piece?_append {stop : Stop} {s : List Char}
    (hs : ∀ c ∈ s, stop.at_ c = false ∧ c ≠ '\\') {c : Char} (hc : stop.at_ c = true)
    (hc' : c ≠ '\\') (taken rest : List Char) :
    piece? stop taken (s ++ c :: rest) = some (taken.reverse ++ s, c :: rest) := by
  have hcons : ∀ (c : Char) (rest taken : List Char), c ≠ '\\' → piece? stop taken (c :: rest) =
      if stop.at_ c then some (taken.reverse, c :: rest) else piece? stop (c :: taken) rest := by
    intro c rest taken hne
    rw [piece?.eq_def]
    split <;> simp_all
  induction s generalizing taken with
  | nil => rw [List.nil_append, hcons _ _ _ hc', if_pos hc, List.append_nil]
  | cons d s ih =>
      obtain ⟨⟨hd, hd'⟩, hs⟩ := List.forall_mem_cons.mp hs
      rw [List.cons_append, hcons _ _ _ hd', if_neg (by simp [hd]), ih hs]
      simp

/-! ## Values -/

/-- A value was taken from the input. -/
structure ValueTaken (isAll : Bool) (s value rest : List Char) : Prop where
  suffix : rest <:+ s
  length_le : value.length + rest.length ≤ s.length
  plain : isAll = true → s.length ≤ value.length + rest.length → PlainValue value
  stops : ∀ c ∈ rest.head?, Text.isBlank c = true
  joined : rest = [] → s ≠ [] → EndsLine s → value.length + 2 ≤ s.length

/-- A value without quotes is one piece, trimmed as its place asks for. -/
theorem valueTaken_of_piece {isAll : Bool} {c : Char} {s text rest : List Char}
    (hc : c ≠ '"' ∧ c ≠ '\'') (h : Taken .lineEnd (c :: s) text rest) :
    ValueTaken isAll (c :: s) (if isAll then Text.trimChars text else Text.trimRight text)
      rest := by
  have hvalue : (if isAll then Text.trimChars text else Text.trimRight text).length ≤
      text.length := by
    split
    · exact Text.length_trimChars_le text
    · exact Text.length_trimRight_le text
  have hlength := h.length_le
  refine ⟨h.suffix, by omega, fun hall hle => ?_, fun d hd => ?_, fun hrest hne hline => ?_⟩
  · subst hall
    simp only [if_true] at hvalue hle ⊢
    have htrim : Text.trimChars text = text := Text.trimChars_eq_self (by omega)
    rw [htrim] at hle ⊢
    obtain ⟨heq, hplain⟩ := h.plain hle
    refine ⟨htrim, fun d hd => ?_, fun d hd => ?_⟩
    · obtain ⟨hat, hd'⟩ := hplain d hd
      have hat' : ¬ (d = '\n' ∨ d = '\r') := by simpa [Stop.at_] using hat
      exact ⟨fun h => hat' (.inl h), fun h => hat' (.inr h), hd'⟩
    · cases text with
      | nil => cases hd
      | cons d' text =>
          obtain rfl : d' = d := by simpa using hd
          rw [← (List.cons.inj heq).1]
          exact hc
  · have hat : d = '\n' ∨ d = '\r' := by simpa [Stop.at_] using h.stops d hd
    rcases hat with rfl | rfl
    · decide
    · decide
  · have := h.joined hrest hne hline (by decide)
    omega

/-- A quoted piece is longer than what it gives. -/
theorem valueTaken_of_quoted {isAll : Bool} {c : Char} {s inner after more rest : List Char}
    (hc : c = '"' ∨ c = '\'') (hinner : piece? (.quote c) [] s = some (inner, after))
    (hmore : ValueTaken false (after.drop 1) more rest) :
    ValueTaken isAll (c :: s) (inner ++ more) rest := by
  have hclose : c ≠ '\\' ∧ c ≠ '\n' := by
    rcases hc with rfl | rfl
    · decide
    · decide
  have htaken : Taken (.quote c) s inner after :=
    taken_of_piece?_nil (by simpa [Stop.at_] using hclose.1.symm) hinner
  obtain ⟨d, tail, rfl⟩ : ∃ d tail, after = d :: tail :=
    List.exists_cons_of_ne_nil fun hnil => by cases htaken.atEnd hnil
  have hd : d = c := by simpa [Stop.at_] using htaken.stops d rfl
  have hsuffix := htaken.suffix
  have hlength := htaken.length_le
  have hlength' := hmore.length_le
  simp only [List.drop_succ_cons, List.drop_zero, List.length_cons] at *
  refine ⟨?_, ?_, fun _ hle => ?_, hmore.stops, fun hrest _ hline => ?_⟩
  · exact (hmore.suffix.trans (List.suffix_cons _ _)).trans
      (hsuffix.trans (List.suffix_cons _ _))
  · simp only [List.length_append, List.length_cons]
    omega
  · -- the quotes are lost, so this is never as long
    simp only [List.length_append, List.length_cons] at hle
    omega
  · have hline' := hline.of_suffix (hsuffix.trans (List.suffix_cons _ _))
    have := hmore.joined hrest (hline'.ne_nil_of_cons (hd ▸ hclose.2))
      (hline'.of_suffix (List.suffix_cons _ _))
    simp only [List.length_append, List.length_cons]
    omega

/-- A value of several pieces takes what each of them takes. -/
theorem valueTaken_of_valueFrom? {isAll : Bool} {fuel : Nat} {s v rest : List Char}
    (h : valueFrom? isAll fuel s = some (v, rest)) : ValueTaken isAll s v rest := by
  induction fuel generalizing isAll s v rest with
  | zero => cases h
  | succ fuel ih =>
      cases s with
      | nil =>
          obtain ⟨rfl, rfl⟩ := Prod.mk.inj (Option.some.inj h)
          exact ⟨List.suffix_refl _, by simp, fun _ _ => ⟨rfl, by simp, by simp⟩, by simp,
            fun _ hne => absurd rfl hne⟩
      | cons c s =>
          rw [valueFrom?] at h
          split at h
          · rename_i hc
            obtain ⟨⟨inner, after⟩, hinner, h⟩ := Option.bind_eq_some_iff.mp h
            obtain ⟨⟨more, rest'⟩, hmore, h⟩ := Option.bind_eq_some_iff.mp h
            obtain ⟨rfl, rfl⟩ := Prod.mk.inj (Option.some.inj h)
            exact valueTaken_of_quoted (by simpa using hc) hinner (ih hmore)
          · rename_i hc
            obtain ⟨⟨text, rest'⟩, htext, h⟩ := Option.bind_eq_some_iff.mp h
            obtain ⟨rfl, rfl⟩ := Prod.mk.inj (Option.some.inj h)
            exact valueTaken_of_piece (by simpa using hc) (taken_of_piece?_nil (by decide) htext)

theorem valueTaken_of_value? {s v rest : List Char} (h : value? s = some (v, rest)) :
    ValueTaken true s v rest := by
  have htaken := valueTaken_of_valueFrom? h
  have hskip : skipInLine s <:+ s := List.dropWhile_suffix _
  refine ⟨htaken.suffix.trans hskip, Nat.le_trans htaken.length_le hskip.length_le,
    fun hall hle => htaken.plain hall (Nat.le_trans hskip.length_le hle), htaken.stops,
    fun hrest hne hline => ?_⟩
  -- the last line feed is not skipped
  have hleft : skipInLine s ≠ [] := fun hnil => by
    have hlast := List.dropWhile_eq_nil_iff.mp hnil _ (List.getLast_mem hne)
    rw [hline _ (List.getLast?_eq_some_getLast hne)] at hlast
    exact absurd hlast (by decide)
  exact Nat.le_trans (htaken.joined hrest hleft (hline.of_suffix hskip)) hskip.length_le

theorem value?_of_piece {c : Char} {s text rest : List Char}
    (hblank : Text.isBlank c = true → c = '\n') (hquote : c ≠ '"' ∧ c ≠ '\'')
    (hpiece : piece? .lineEnd [] (c :: s) = some (text, rest)) :
    value? (c :: s) = some (Text.trimChars text, rest) := by
  have hskip : skipInLine (c :: s) = c :: s := by
    rw [skipInLine, List.dropWhile_cons_of_neg]
    intro h
    simp only [Bool.and_eq_true, decide_eq_true_eq] at h
    exact h.1.2 (hblank h.1.1)
  have hquote' : (c = '"' || c = '\'') = false := by simp [hquote.1, hquote.2]
  simp only [value?, hskip, valueFrom?, hquote', hpiece]
  rfl

/-- A plain value is read as it is written, up to the end of its line. -/
theorem value?_append {v : List Char} (h : PlainValue v) (rest : List Char) :
    value? (v ++ '\n' :: rest) = some (v, '\n' :: rest) := by
  have hpiece : piece? .lineEnd [] (v ++ '\n' :: rest) = some (v, '\n' :: rest) :=
    piece?_append (fun c hc => by
      obtain ⟨hn, hr, hb⟩ := h.chars c hc
      exact ⟨by simp [Stop.at_, hn, hr], hb⟩) (by decide) (by decide) [] rest
  have hvalue := h.trim
  cases v with
  | nil => exact value?_of_piece (fun _ => rfl) (by decide) hpiece
  | cons c v =>
      have hblank : Text.isBlank c = true → c = '\n' := fun hc => by
        rw [Text.isBlank_of_trimChars hvalue] at hc
        cases hc
      exact (value?_of_piece hblank (h.begins c rfl) hpiece).trans (by rw [hvalue])

end Properties

end TreeEdit
