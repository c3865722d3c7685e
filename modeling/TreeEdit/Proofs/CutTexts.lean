import Mathlib.Data.List.Basic
import Mathlib.Data.List.Infix
import TreeEdit.Text.Blank

/-!
# Texts cut at a delimiter

A text is cut from the left, and the search goes on behind the delimiter just found. So pieces and
the text that they make when they are joined determine each other, once it is known of each piece
that the delimiter is not found too early (`Text.Cuts`): a piece with a delimiter behind it may not
begin one, not even together with the delimiter that follows (`Text.Free`), and the last piece may
not contain one. `Text.splitFrom_eq_iff` says that the pieces of a text are the ones for which this
holds, for a delimiter that may overlap itself as well.

The condition is about one piece and the delimiter alone. That is why a piece can be replaced by
another one for which it holds, and the text is cut at the same places again.
-/

namespace TreeEdit.Text

theorem isSome_dropPrefix?_iff {start cs : List Char} :
    (dropPrefix? start cs).isSome = true ↔ start <+: cs := by
  induction start generalizing cs with
  | nil => simp [dropPrefix?]
  | cons c start ih =>
      cases cs with
      | nil => simp [dropPrefix?]
      | cons d cs =>
          rw [dropPrefix?, List.cons_prefix_cons]
          split
          · rename_i heq
            simp [ih, heq]
          · rename_i hne
            simp [hne]

theorem dropPrefix?_append (start cs : List Char) : dropPrefix? start (start ++ cs) = some cs := by
  induction start with
  | nil => rfl
  | cons c start ih => rw [List.cons_append, dropPrefix?, if_pos rfl, ih]

theorem contains_iff {needle cs : List Char} : contains needle cs = true ↔ needle <:+: cs := by
  induction cs with
  | nil => simp [contains]
  | cons c cs ih =>
      rw [contains, Bool.or_eq_true, isSome_dropPrefix?_iff, ih, List.infix_cons_iff]

/-! ## Trimmed texts -/

theorem trimChars_prefix_trimLeft (s : List Char) : trimChars s <+: trimLeft s := by
  rw [trimChars, trimRight, ← List.reverse_suffix, List.reverse_reverse]
  exact List.dropWhile_suffix _

theorem trimChars_infix (s : List Char) : trimChars s <:+: s :=
  (trimChars_prefix_trimLeft s).isInfix.trans (List.dropWhile_suffix _).isInfix

/-- Trimmed text begins with no blank. -/
theorem isBlank_of_head?_trimChars {s : List Char} {c : Char} (h : (trimChars s).head? = some c) :
    isBlank c = false := by
  obtain ⟨rest, hrest⟩ := trimChars_prefix_trimLeft s
  have hhead : (trimLeft s).head? = some c := by rw [← hrest, List.head?_append, h]; rfl
  have hnot := List.head?_dropWhile_not isBlank s
  rw [← trimLeft, hhead] at hnot
  exact hnot

/-- Trimmed text ends with no blank. -/
theorem isBlank_of_getLast?_trimChars {s : List Char} {c : Char}
    (h : (trimChars s).getLast? = some c) : isBlank c = false := by
  rw [trimChars, trimRight, List.getLast?_reverse] at h
  have hnot := List.head?_dropWhile_not isBlank (trimLeft s).reverse
  rw [h] at hnot
  exact hnot

/-- Characters that neither begin nor end with a blank have none to lose. -/
theorem trimChars_of_ends {s : List Char} (hhead : ∀ c ∈ s.head?, isBlank c = false)
    (hlast : ∀ c ∈ s.getLast?, isBlank c = false) : trimChars s = s := by
  have hnone : ∀ cs : List Char, (∀ c ∈ cs.head?, isBlank c = false) →
      cs.dropWhile isBlank = cs := by
    intro cs hcs
    cases cs with
    | nil => rfl
    | cons c cs => exact List.dropWhile_cons_of_neg (by simp [hcs c rfl])
  rw [trimChars, trimRight, trimLeft, hnone _ hhead, hnone _ (by rwa [List.head?_reverse]),
    List.reverse_reverse]

/-- A text that neither begins nor ends with a blank is trimmed. -/
theorem trim_eq_self {s : String} (hhead : ∀ c ∈ s.toList.head?, isBlank c = false)
    (hlast : ∀ c ∈ s.toList.getLast?, isBlank c = false) : trim s = s := by
  rw [trim, trimChars_of_ends hhead hlast, String.ofList_toList]

/-! ## Delimiters in a text -/

section

variable {d : List Char}

/-- No delimiter begins in the piece when the delimiter follows it. -/
def Free (d piece : List Char) : Prop := ∀ n < piece.length, ¬ d <+: (piece ++ d).drop n

/-- The delimiter is found in none of the pieces, and not before the end of one that it follows. -/
def Cuts (d : List Char) : List (List Char) → Prop
  | [] => False
  | [piece] => ¬ d <:+: piece
  | piece :: pieces => Free d piece ∧ Cuts d pieces

/-- A delimiter that begins in a piece ends in what follows the piece at once. -/
theorem Free.not_prefix {x : List Char} (h : Free d x) {n : Nat} (hn : n < x.length)
    (rest : List Char) : ¬ d <+: (x ++ d ++ rest).drop n := by
  intro hpre
  have hle : n ≤ (x ++ d).length := by
    rw [List.length_append]
    omega
  refine h n hn (List.prefix_of_prefix_length_le hpre ?_ ?_)
  · rw [List.drop_append_of_le_length hle]
    exact List.prefix_append ..
  · rw [List.length_drop, List.length_append]
    omega

theorem Free.tail {c : Char} {x : List Char} (h : Free d (c :: x)) : Free d x := by
  intro n hn
  exact h (n + 1) (Nat.succ_lt_succ hn)

/-- A piece that begins no delimiter contains none. -/
theorem Free.not_infix {x : List Char} (h : Free d x) (hd : d ≠ []) : ¬ d <:+: x := by
  intro hin
  obtain ⟨pre, post, heq⟩ := hin
  have hlen := congrArg List.length heq
  rw [List.length_append, List.length_append] at hlen
  have hpos := List.length_pos_iff.mpr hd
  refine h pre.length (by omega) ⟨post ++ d, ?_⟩
  rw [← heq, List.append_assoc, List.append_assoc, List.drop_left]

/-- Where a text contains a delimiter, one of them is the first. -/
theorem exists_first {cs : List Char} (h : d <:+: cs) :
    ∃ x rest, cs = x ++ d ++ rest ∧ Free d x := by
  induction cs with
  | nil =>
      have hd : d = [] := List.eq_nil_of_infix_nil h
      exact ⟨[], [], by simp [hd], fun n hn => absurd hn (Nat.not_lt_zero _)⟩
  | cons c cs ih =>
      by_cases hpre : d <+: c :: cs
      · obtain ⟨rest, hrest⟩ := hpre
        exact ⟨[], rest, by simpa using hrest.symm, fun n hn => absurd hn (Nat.not_lt_zero _)⟩
      · obtain ⟨x, rest, rfl, hx⟩ := ih ((List.infix_cons_iff.mp h).resolve_left hpre)
        refine ⟨c :: x, rest, rfl, ?_⟩
        intro n hn
        cases n with
        | zero => exact fun hp => hpre (hp.trans ⟨rest, rfl⟩)
        | succ n => exact hx n (Nat.lt_of_succ_lt_succ hn)

/-- A delimiter ends before a character that is not in it. -/
theorem prefix_of_append_cons {c : Char} {x y : List Char} (hc : c ∉ d) (h : d <+: x ++ c :: y) :
    d <+: x := by
  have hmem : c ∈ x ++ [c] := List.mem_append_right _ (List.mem_singleton_self c)
  rcases List.prefix_or_prefix_of_prefix h (⟨y, by simp⟩ : x ++ [c] <+: x ++ c :: y) with h | h
  · rcases List.prefix_concat_iff.mp h with rfl | h
    · exact absurd hmem hc
    · exact h
  · exact absurd (h.subset hmem) hc

/-- A character that is not in a delimiter keeps what stands on its two sides apart. -/
theorem infix_append_cons {c : Char} {x y : List Char} (hc : c ∉ d) (h : d <:+: x ++ c :: y) :
    d <:+: x ∨ d <:+: y := by
  rcases List.infix_append_iff.mp h with h | h | ⟨l, m, rfl, hl, hm⟩
  · exact .inl h
  · rcases List.infix_cons_iff.mp h with h | h
    · cases d with
      | nil => exact .inl (List.nil_infix)
      | cons a d =>
          obtain ⟨rfl, -⟩ := List.cons_prefix_cons.mp h
          exact absurd (List.mem_cons_self ..) hc
    · exact .inr h
  · cases m with
    | nil =>
        rw [List.append_nil]
        exact .inl hl.isInfix
    | cons a m =>
        obtain ⟨rfl, -⟩ := List.cons_prefix_cons.mp hm
        exact absurd (List.mem_append_right _ (List.mem_cons_self ..)) hc

/-! ## Cutting and joining -/

theorem splitFrom_skip (skipped piece cs : List Char) :
    splitFrom d skipped.length piece (skipped ++ cs) = splitFrom d 0 piece cs := by
  induction skipped with
  | nil => rfl
  | cons c skipped ih => exact ih

/-- A piece ends where the delimiter follows it. -/
theorem splitFrom_of_free {x : List Char} (hd : d ≠ []) (hx : Free d x) (piece cs : List Char) :
    splitFrom d 0 piece (x ++ d ++ cs) = (piece.reverse ++ x) :: splitFrom d 0 [] cs := by
  induction x generalizing piece with
  | nil =>
      obtain ⟨c, d', rfl⟩ := List.exists_cons_of_ne_nil hd
      have hpre : (dropPrefix? (c :: d') (c :: (d' ++ cs))).isSome = true :=
        isSome_dropPrefix?_iff.mpr (List.prefix_append (c :: d') cs)
      rw [List.nil_append, List.cons_append, splitFrom, if_pos hpre, List.append_nil]
      congr 1
      exact splitFrom_skip d' [] cs
  | cons c x ih =>
      have hpre : ¬ (dropPrefix? d (c :: (x ++ d ++ cs))).isSome = true := by
        rw [isSome_dropPrefix?_iff]
        exact hx.not_prefix (n := 0) (Nat.zero_lt_succ _) cs
      rw [List.cons_append, List.cons_append, splitFrom, if_neg hpre, ih hx.tail]
      simp

/-- A text that does not contain the delimiter is a single piece. -/
theorem splitFrom_of_not_infix {x : List Char} (hx : ¬ d <:+: x) (piece : List Char) :
    splitFrom d 0 piece x = [piece.reverse ++ x] := by
  induction x generalizing piece with
  | nil => simp [splitFrom]
  | cons c x ih =>
      have hpre : ¬ (dropPrefix? d (c :: x)).isSome = true := by
        rw [isSome_dropPrefix?_iff]
        exact fun h => hx h.isInfix
      rw [splitFrom, if_neg hpre, ih fun h => hx (List.infix_cons_iff.mpr (.inr h))]
      simp

/-- A text without any character of the delimiter is a single piece. -/
theorem splitFrom_of_forall_ne {d : Char} {cs : List Char} (h : ∀ c ∈ cs, c ≠ d)
    (piece : List Char) : splitFrom [d] 0 piece cs = [piece.reverse ++ cs] := by
  refine splitFrom_of_not_infix (fun hin => ?_) piece
  exact h d (hin.subset (List.mem_singleton_self d)) rfl

/-- Joined texts begin as the first of them does, if that is not empty. -/
theorem head?_intercalate (d : List Char) {x : List Char} (xs : List (List Char)) (hx : x ≠ []) :
    (d.intercalate (x :: xs)).head? = x.head? := by
  cases xs with
  | nil => rw [List.intercalate_singleton]
  | cons y xs =>
      rw [List.intercalate_cons_cons, List.append_assoc, List.head?_append_of_ne_nil _ hx]

theorem intercalate_ne_nil (d : List Char) {x : List Char} (xs : List (List Char)) (hx : x ≠ []) :
    d.intercalate (x :: xs) ≠ [] := by
  intro hnil
  have hhead := head?_intercalate d xs hx
  rw [hnil] at hhead
  exact hx (List.head?_eq_none_iff.mp hhead.symm)

/-- Pieces that a delimiter cuts apart are found again when they are joined. -/
theorem splitFrom_intercalate (hd : d ≠ []) {pieces : List (List Char)} (h : Cuts d pieces) :
    splitFrom d 0 [] (d.intercalate pieces) = pieces := by
  induction pieces with
  | nil => exact h.elim
  | cons x pieces ih =>
      cases pieces with
      | nil =>
          rw [List.intercalate_singleton, splitFrom_of_not_infix h]
          rfl
      | cons y pieces =>
          rw [List.intercalate_cons_cons, splitFrom_of_free hd h.1, ih h.2]
          rfl

/-- Every text is cut somehow. -/
theorem exists_cuts (hd : d ≠ []) (cs : List Char) :
    ∃ pieces, cs = d.intercalate pieces ∧ Cuts d pieces := by
  induction hlen : cs.length using Nat.strongRecOn generalizing cs with
  | ind n ih =>
    by_cases hin : d <:+: cs
    · obtain ⟨x, rest, rfl, hx⟩ := exists_first hin
      have hpos := List.length_pos_iff.mpr hd
      rw [List.length_append, List.length_append] at hlen
      obtain ⟨pieces, hrest, hcuts⟩ := ih rest.length (by omega) rest rfl
      cases pieces with
      | nil => exact hcuts.elim
      | cons y pieces =>
          exact ⟨x :: y :: pieces, by rw [List.intercalate_cons_cons, hrest], hx, hcuts⟩
    · exact ⟨[cs], List.intercalate_singleton.symm, hin⟩

/-- **A text is cut into the pieces that it is joined from and that the delimiter cuts apart.** -/
theorem splitFrom_eq_iff (hd : d ≠ []) {cs : List Char} {pieces : List (List Char)} :
    splitFrom d 0 [] cs = pieces ↔ cs = d.intercalate pieces ∧ Cuts d pieces := by
  constructor
  · intro h
    obtain ⟨pieces', hjoin, hcuts⟩ := exists_cuts hd cs
    rw [hjoin, splitFrom_intercalate hd hcuts] at h
    subst h
    exact ⟨hjoin, hcuts⟩
  · intro h
    rw [h.1, splitFrom_intercalate hd h.2]

/-- Pieces may be replaced by others that are as free of the delimiter. -/
theorem Cuts.replace {pieces pieces' : List (List Char)} (h : Cuts d pieces)
    (hnew : List.Forall₂ (fun x y => (Free d x → Free d y) ∧ (¬ d <:+: x → ¬ d <:+: y))
      pieces pieces') : Cuts d pieces' := by
  induction hnew with
  | nil => exact h
  | cons hxy hrest ih =>
      cases hrest with
      | nil => exact hxy.2 h
      | cons hxy' hrest => exact ⟨hxy.1 h.1, ih h.2⟩

end

end TreeEdit.Text
