import Mathlib.Data.List.Infix
import Mathlib.Data.List.TakeWhile
import TreeEdit.Macro
import TreeEdit.Proofs.FallibleSteps
import TreeEdit.Proofs.NumberText

/-!
# The macros of a text

What `expand` does is said here without its scanner. `Token.IsWritten` is the grammar of a macro,
and `Cut` says which pieces a text falls into: put together they are the text, a piece is a macro as
the grammar has it or a single character that is kept, and no macro begins at a character that is
kept. So the macros of a cut are those found from the left, none of them inside another.

* `token?_eq_some_iff`: the scanner finds a macro at a place exactly if one is written there;
* `exists_cut` and `Cut.unique`: a text has one cut and no other;
* `Cut.expandChars_eq`: the expanded text is the cut with its macros replaced, one after the other.

That values are not scanned again needs no statement of its own: the cut is one of the text, and the
scope has no part in it.
-/

namespace TreeEdit

namespace Text

/-- A text is cut at the first place where the character stands. -/
theorem cutAt?_eq_some_iff {c : Char} {s a b : List Char} :
    cutAt? c s = some (a, b) ↔ s = a ++ c :: b ∧ c ∉ a := by
  constructor
  · intro h
    induction s generalizing a with
    | nil => cases h
    | cons d s ih =>
        rw [cutAt?] at h
        split at h
        · rename_i hd
          cases h
          exact ⟨by rw [hd]; rfl, by simp⟩
        · rename_i hd
          obtain ⟨⟨a', b'⟩, hcut, hab⟩ := Option.map_eq_some_iff.mp h
          cases hab
          obtain ⟨rfl, hc⟩ := ih hcut
          exact ⟨rfl, mt List.mem_cons.mp (not_or.mpr ⟨Ne.symm hd, hc⟩)⟩
  · rintro ⟨rfl, hc⟩
    exact Double.cutAt?_append hc b

end Text

namespace Macro

/-! ## What is written where a macro is found -/

/-- Whether the parts of a macro are as the grammar asks. -/
structure Token.IsWritten (t : Token) : Prop where
  space_ne_nil : t.space ≠ []
  space : ∀ c ∈ t.space, isSpaceChar c = true
  key_ne_nil : t.key ≠ []
  key : '\x7d' ∉ t.key

/-- The characters of a macro behind its opening brace and question mark. -/
def bodyChars (space key : List Char) : List Char := space ++ ':' :: ':' :: (key ++ ['\x7d'])

theorem Token.chars_eq (t : Token) :
    t.chars =
      '$' :: '\x7b' :: ((if t.isOptional then ['?'] else []) ++ bodyChars t.space t.key) := by
  simp [Token.chars, bodyChars]

theorem body?_eq_some_iff {s space key : List Char} :
    body? s = some (space, key) ↔
      Token.IsWritten ⟨false, space, key⟩ ∧ bodyChars space key <+: s := by
  constructor
  · intro h
    unfold body? at h
    dsimp only at h
    split at h
    · rename_i c cs rest hspace hrest
      split at h
      · rename_i d ds after hcut
        cases h
        obtain ⟨rfl, hkey⟩ := Text.cutAt?_eq_some_iff.mp hcut
        refine ⟨⟨by rw [hspace]; simp, fun x hx => List.mem_takeWhile_imp hx, by simp, hkey⟩,
          after, ?_⟩
        have hs := List.takeWhile_append_dropWhile (p := isSpaceChar) (l := s)
        rw [hrest] at hs
        exact Eq.trans (by simp [bodyChars]) hs
      · cases h
    · cases h
  · rintro ⟨⟨hne, hspace, hkne, hkey⟩, after, rfl⟩
    obtain ⟨c, cs, rfl⟩ := List.exists_cons_of_ne_nil hne
    obtain ⟨d, ds, rfl⟩ := List.exists_cons_of_ne_nil hkne
    have hcolon : isSpaceChar ':' = false := by decide
    -- the name space ends at the colon, which is none of its characters
    have happend : bodyChars (c :: cs) (d :: ds) ++ after =
        (c :: cs) ++ ':' :: ':' :: ((d :: ds) ++ '\x7d' :: after) := by simp [bodyChars]
    have htake : (bodyChars (c :: cs) (d :: ds) ++ after).takeWhile isSpaceChar = c :: cs := by
      rw [happend, List.takeWhile_append_of_pos hspace, List.takeWhile_cons_of_neg (by simp [hcolon]),
        List.append_nil]
    have hdrop : (bodyChars (c :: cs) (d :: ds) ++ after).dropWhile isSpaceChar =
        ':' :: ':' :: ((d :: ds) ++ '\x7d' :: after) := by
      rw [happend, List.dropWhile_append_of_pos hspace, List.dropWhile_cons_of_neg (by simp [hcolon])]
    have hcut : Text.cutAt? '\x7d' ((d :: ds) ++ '\x7d' :: after) = some (d :: ds, after) :=
      Text.cutAt?_eq_some_iff.mpr ⟨rfl, hkey⟩
    simp only [body?, htake, hdrop, hcut]

/-- A macro is found at the beginning of the characters exactly if one is written there. -/
theorem token?_eq_some_iff {s : List Char} {t : Token} :
    token? s = some t ↔ t.IsWritten ∧ t.chars <+: s := by
  constructor
  · intro h
    unfold token? at h
    split at h
    · obtain ⟨⟨space, key⟩, hbody, rfl⟩ := Option.map_eq_some_iff.mp h
      obtain ⟨hwritten, after, rfl⟩ := body?_eq_some_iff.mp hbody
      exact ⟨⟨hwritten.1, hwritten.2, hwritten.3, hwritten.4⟩, after, by simp [Token.chars_eq]⟩
    · obtain ⟨⟨space, key⟩, hbody, rfl⟩ := Option.map_eq_some_iff.mp h
      obtain ⟨hwritten, after, rfl⟩ := body?_eq_some_iff.mp hbody
      exact ⟨hwritten, after, by simp [Token.chars_eq]⟩
    · cases h
  · rintro ⟨hwritten, after, rfl⟩
    obtain ⟨isOptional, space, key⟩ := t
    have hbody : body? (bodyChars space key ++ after) = some (space, key) :=
      body?_eq_some_iff.mpr ⟨⟨hwritten.1, hwritten.2, hwritten.3, hwritten.4⟩, after, rfl⟩
    cases isOptional with
    | true => simp [Token.chars_eq, token?, hbody]
    | false =>
        -- a name space does not begin with a question mark, so the macro is not taken for optional
        have hmark : ∀ rest, bodyChars space key ++ after ≠ '?' :: rest := by
          intro rest heq
          obtain ⟨c, cs, rfl⟩ := List.exists_cons_of_ne_nil hwritten.space_ne_nil
          have hc := hwritten.space c (List.mem_cons_self ..)
          obtain rfl : c = '?' := (List.cons.inj heq).1
          exact absurd hc (by decide)
        rw [Token.chars_eq]
        simp only [Bool.false_eq_true, if_false, List.nil_append, List.cons_append]
        rw [token?.eq_2 _ hmark, hbody]
        rfl

/-- Whether a macro is written in the characters. -/
def Holds (s : List Char) : Prop := ∃ t : Token, t.IsWritten ∧ t.chars <:+: s

/-- A macro is written in the characters if one is found at some place of them. -/
theorem holds_iff {s : List Char} : Holds s ↔ ∃ r ∈ s.tails, (token? r).isSome = true := by
  constructor
  · rintro ⟨t, hwritten, hin⟩
    obtain ⟨r, hprefix, hsuffix⟩ := List.infix_iff_prefix_suffix.mp hin
    have hfound := token?_eq_some_iff.mpr ⟨hwritten, hprefix⟩
    exact ⟨r, (List.mem_tails _ _).mpr hsuffix, Option.isSome_of_mem hfound⟩
  · rintro ⟨r, hr, hfound⟩
    obtain ⟨t, ht⟩ := Option.isSome_iff_exists.mp hfound
    obtain ⟨hwritten, hprefix⟩ := token?_eq_some_iff.mp ht
    exact ⟨t, hwritten, hprefix.isInfix.trans ((List.mem_tails _ _).mp hr).isInfix⟩

instance decidableHolds (s : List Char) : Decidable (Holds s) :=
  decidable_of_iff (∃ r ∈ s.tails, (token? r).isSome = true) holds_iff.symm

/-! ## The cut of a text -/

/-- A piece of a text: a character that is kept, or a macro. -/
inductive Piece where
  | kept (c : Char)
  | token (t : Token)

/-- The characters of a piece. -/
def Piece.chars : Piece → List Char
  | .kept c => [c]
  | .token t => t.chars

/-- The pieces that the characters fall into when macros are looked for from the left. -/
structure Cut (s : List Char) (ps : List Piece) : Prop where
  whole : ps.flatMap Piece.chars = s
  written : ∀ t, .token t ∈ ps → t.IsWritten
  leftmost : ∀ before c after, ps = before ++ .kept c :: after →
    ∀ t : Token, t.IsWritten → ¬ t.chars <+: c :: after.flatMap Piece.chars

namespace Cut

variable {s : List Char} {ps : List Piece}

theorem nil : Cut [] [] := ⟨rfl, by simp, by simp⟩

theorem kept_iff {c : Char} :
    Cut s (.kept c :: ps) ↔ ∃ rest, s = c :: rest ∧ token? s = none ∧ Cut rest ps := by
  constructor
  · intro h
    refine ⟨ps.flatMap Piece.chars, h.whole.symm, ?_, rfl, ?_, ?_⟩
    · refine Option.eq_none_iff_forall_ne_some.mpr fun t ht => ?_
      obtain ⟨hwritten, hprefix⟩ := token?_eq_some_iff.mp ht
      rw [← h.whole] at hprefix
      exact h.leftmost [] c ps rfl t hwritten hprefix
    · exact fun t ht => h.written t (List.mem_cons_of_mem _ ht)
    · exact fun before d after hps => h.leftmost (.kept c :: before) d after (by rw [hps]; rfl)
  · rintro ⟨rest, rfl, hnone, h⟩
    refine ⟨by rw [List.flatMap_cons, h.whole]; rfl, ?_, ?_⟩
    · intro t ht
      exact h.written t (by simpa using ht)
    · intro before d after hps t hwritten hprefix
      cases before with
      | nil =>
          obtain ⟨hcd, rfl⟩ := List.cons.inj hps
          cases hcd
          rw [h.whole] at hprefix
          rw [token?_eq_some_iff.mpr ⟨hwritten, hprefix⟩] at hnone
          cases hnone
      | cons p before =>
          exact h.leftmost before d after (List.cons.inj hps).2 t hwritten hprefix

theorem token_iff {t : Token} :
    Cut s (.token t :: ps) ↔ ∃ rest, s = t.chars ++ rest ∧ t.IsWritten ∧ Cut rest ps := by
  constructor
  · intro h
    refine ⟨ps.flatMap Piece.chars, h.whole.symm, h.written t (List.mem_cons_self ..), rfl, ?_, ?_⟩
    · exact fun u hu => h.written u (List.mem_cons_of_mem _ hu)
    · exact fun before d after hps => h.leftmost (.token t :: before) d after (by rw [hps]; rfl)
  · rintro ⟨rest, rfl, hwritten, h⟩
    refine ⟨by rw [List.flatMap_cons, h.whole]; rfl, ?_, ?_⟩
    · intro u hu
      rcases List.mem_cons.mp hu with hut | hu
      · cases hut
        exact hwritten
      · exact h.written u hu
    · intro before d after hps
      cases before with
      | nil => cases (List.cons.inj hps).1
      | cons p before => exact h.leftmost before d after (List.cons.inj hps).2

end Cut

theorem Token.chars_ne_nil (t : Token) : t.chars ≠ [] := by simp [Token.chars_eq]

/-- Every text has a cut. -/
theorem exists_cut (s : List Char) : ∃ ps, Cut s ps := by
  induction hn : s.length using Nat.strongRecOn generalizing s with
  | ind n ih =>
      cases s with
      | nil => exact ⟨[], .nil⟩
      | cons c rest =>
          cases htoken : token? (c :: rest) with
          | none =>
              obtain ⟨ps, hps⟩ := ih rest.length (by simp [← hn]) rest rfl
              exact ⟨.kept c :: ps, Cut.kept_iff.mpr ⟨rest, rfl, htoken, hps⟩⟩
          | some t =>
              obtain ⟨hwritten, after, hafter⟩ := token?_eq_some_iff.mp htoken
              have hpos := List.length_pos_iff.mpr t.chars_ne_nil
              have hlength : after.length < n := by
                rw [← hn, ← hafter, List.length_append]
                omega
              obtain ⟨ps, hps⟩ := ih after.length hlength after rfl
              exact ⟨.token t :: ps, Cut.token_iff.mpr ⟨after, hafter.symm, hwritten, hps⟩⟩

theorem Token.IsWritten.token?_append {t : Token} (h : t.IsWritten) (rest : List Char) :
    token? (t.chars ++ rest) = some t :=
  token?_eq_some_iff.mpr ⟨h, List.prefix_append ..⟩

/-- The piece with which the characters begin. -/
def first? : List Char → Option Piece
  | [] => none
  | c :: rest => some ((token? (c :: rest)).elim (.kept c) .token)

namespace Cut

variable {s : List Char} {p : Piece} {ps qs : List Piece}

theorem head?_eq (h : Cut s ps) : ps.head? = first? s := by
  cases ps with
  | nil =>
      obtain rfl : [] = s := h.whole
      rfl
  | cons p ps =>
      cases p with
      | kept c =>
          obtain ⟨rest, rfl, hnone, -⟩ := kept_iff.mp h
          simp [first?, hnone]
      | token t =>
          obtain ⟨rest, rfl, hwritten, -⟩ := token_iff.mp h
          have htoken := hwritten.token?_append rest
          obtain ⟨c, cs, hchars⟩ := List.exists_cons_of_ne_nil t.chars_ne_nil
          rw [hchars, List.cons_append] at htoken ⊢
          simp [first?, htoken]

theorem tail (h : Cut s (p :: ps)) : ∃ rest, s = p.chars ++ rest ∧ Cut rest ps := by
  cases p with
  | kept c =>
      obtain ⟨rest, hs, -, hps⟩ := kept_iff.mp h
      exact ⟨rest, hs, hps⟩
  | token t =>
      obtain ⟨rest, hs, -, hps⟩ := token_iff.mp h
      exact ⟨rest, hs, hps⟩

/-- A text has no other cut. -/
theorem unique (h : Cut s ps) (h' : Cut s qs) : ps = qs := by
  induction ps generalizing s qs with
  | nil =>
      have hhead : qs.head? = none := by rw [h'.head?_eq, ← h.head?_eq, List.head?_nil]
      exact (List.head?_eq_none_iff.mp hhead).symm
  | cons p ps ih =>
      have hhead : qs.head? = some p := by rw [h'.head?_eq, ← h.head?_eq, List.head?_cons]
      obtain ⟨qs, rfl⟩ := List.head?_eq_some_iff.mp hhead
      obtain ⟨rest, rfl, hps⟩ := h.tail
      obtain ⟨rest', hrest, hqs⟩ := h'.tail
      obtain rfl := List.append_cancel_left hrest
      rw [ih hps hqs]

end Cut

/-- A text in which no macro is written is cut into its characters. -/
theorem cut_of_not_holds {s : List Char} (h : ¬ Holds s) : Cut s (s.map .kept) := by
  induction s with
  | nil => exact .nil
  | cons c s ih =>
      refine Cut.kept_iff.mpr ⟨s, rfl, ?_, ih fun ⟨t, ht, hin⟩ => h ⟨t, ht, List.infix_cons hin⟩⟩
      refine Option.eq_none_iff_forall_ne_some.mpr fun t ht => ?_
      obtain ⟨hwritten, hprefix⟩ := token?_eq_some_iff.mp ht
      exact h ⟨t, hwritten, hprefix.isInfix⟩

/-! ## Expansion replaces the macros of the cut -/

/-- The value that a scope has for a macro. Blanks around its key do not count. -/
def Token.value? (scope : Scope) (t : Token) : Option String :=
  scope (String.ofList t.space) (String.ofList (Text.trimChars t.key))

/-- Whether a macro can be replaced. -/
def Token.Resolves (scope : Scope) (t : Token) : Prop :=
  t.isOptional = true ∨ (t.value? scope).isSome = true

/-- What stands for a piece in the expanded text. -/
def Piece.replaced (scope : Scope) : Piece → List Char
  | .kept c => [c]
  | .token t => ((t.value? scope).getD "").toList

/-- What a piece gives, or the failure at it. -/
def Piece.resolve (scope : Scope) : Piece → Except Error (List Char)
  | .kept c => .ok [c]
  | .token t => Macro.resolve scope t

instance Token.decidableResolves (scope : Scope) (t : Token) : Decidable (t.Resolves scope) :=
  inferInstanceAs (Decidable (_ ∨ _))

theorem Token.resolve_value? (scope : Scope) (t : Token) :
    Macro.resolve scope t =
      match t.value? scope with
      | some value => .ok value.toList
      | none => if t.isOptional then .ok [] else .error (.unresolved (String.ofList t.chars)) :=
  rfl

theorem Token.resolve_eq (scope : Scope) (t : Token) :
    Macro.resolve scope t =
      if t.Resolves scope then .ok ((t.value? scope).getD "").toList
      else .error (.unresolved (String.ofList t.chars)) := by
  rw [Token.resolve_value?]
  cases hvalue : t.value? scope with
  | some value => simp [Token.Resolves, hvalue]
  | none => simp [Token.Resolves, hvalue]

/-- What the scanner has still to skip has no part in the result. -/
theorem expandChars_drop (scope : Scope) (n : Nat) (s : List Char) :
    expandChars scope n s = expandChars scope 0 (s.drop n) := by
  induction n generalizing s with
  | zero => rfl
  | succ n ih =>
      cases s with
      | nil => rfl
      | cons c s => rw [expandChars, ih, List.drop_succ_cons]

/-- A macro at the beginning is replaced, and the scan goes on behind it. -/
theorem expandChars_token (scope : Scope) {t : Token} (h : t.IsWritten) (rest : List Char) :
    expandChars scope 0 (t.chars ++ rest) = do
      let value ← resolve scope t
      return value ++ (← expandChars scope 0 rest) := by
  have htoken := h.token?_append rest
  obtain ⟨c, cs, hchars⟩ := List.exists_cons_of_ne_nil t.chars_ne_nil
  have hdrop : (cs ++ rest).drop (t.chars.length - 1) = rest := by
    rw [hchars, List.length_cons, Nat.add_sub_cancel, List.drop_left]
  rw [hchars, List.cons_append] at htoken ⊢
  rw [expandChars, htoken]
  simp only [expandChars_drop scope (t.chars.length - 1), hdrop]

/-- The expanded text is the cut with what its pieces give, put together. -/
theorem Cut.expandChars_eq (scope : Scope) {s : List Char} {ps : List Piece} (h : Cut s ps) :
    expandChars scope 0 s = (ps.mapM (Piece.resolve scope)).map List.flatten := by
  induction ps generalizing s with
  | nil =>
      obtain rfl : [] = s := h.whole
      rfl
  | cons p ps ih =>
      rw [List.mapM_cons]
      cases p with
      | kept c =>
          obtain ⟨rest, rfl, hnone, hps⟩ := kept_iff.mp h
          rw [expandChars, hnone, ih hps]
          cases ps.mapM (Piece.resolve scope) <;> rfl
      | token t =>
          obtain ⟨rest, rfl, hwritten, hps⟩ := token_iff.mp h
          rw [expandChars_token scope hwritten, ih hps, Piece.resolve]
          cases resolve scope t with
          | error e => rfl
          | ok value => cases ps.mapM (Piece.resolve scope) <;> rfl

/-- Only a macro can fail, and it does if it cannot be replaced. -/
theorem Piece.resolve_eq_error_iff {scope : Scope} {p : Piece} {e : Error} :
    p.resolve scope = .error e ↔
      ∃ t, p = .token t ∧ ¬ t.Resolves scope ∧ e = .unresolved (String.ofList t.chars) := by
  cases p with
  | kept c => simp [resolve]
  | token t =>
      rw [resolve, Token.resolve_eq]
      by_cases ht : t.Resolves scope
      · simp [ht]
      · simp [ht, eq_comm]

theorem Piece.resolve_eq_ok {scope : Scope} {p : Piece}
    (h : ∀ t, p = .token t → t.Resolves scope) : p.resolve scope = .ok (p.replaced scope) := by
  cases p with
  | kept c => rfl
  | token t => exact (Token.resolve_eq scope t).trans (if_pos (h t rfl))

/-- Pieces give something all of them if their macros can be replaced. -/
theorem forall_fault?_resolve_iff {scope : Scope} {ps : List Piece} :
    (∀ p ∈ ps, fault? (p.resolve scope) = none) ↔ ∀ t, .token t ∈ ps → t.Resolves scope := by
  constructor
  · intro hps t ht
    by_contra hnot
    have hfault := fault?_eq_some_iff.mpr (Piece.resolve_eq_error_iff.mpr ⟨t, rfl, hnot, rfl⟩)
    rw [hps _ ht] at hfault
    cases hfault
  · intro hps p hp
    rw [Piece.resolve_eq_ok fun t ht => hps t (ht ▸ hp)]
    rfl

namespace Cut

variable {scope : Scope} {text : String} {ps : List Piece}

/-- A text fails where the first of its pieces does. -/
theorem fault?_expand (h : Cut text.toList ps) :
    fault? (expand scope text) = ps.findSome? fun p => fault? (p.resolve scope) := by
  rw [expand, fault?_map, h.expandChars_eq scope, fault?_map, fault?_mapM]

theorem expand_eq_error_iff (h : Cut text.toList ps) {e : Error} :
    expand scope text = .error e ↔
      ∃ before t after, ps = before ++ .token t :: after ∧
        (∀ u, .token u ∈ before → u.Resolves scope) ∧ ¬ t.Resolves scope ∧
        e = .unresolved (String.ofList t.chars) := by
  rw [← fault?_eq_some_iff, h.fault?_expand, List.findSome?_eq_some_iff]
  constructor
  · rintro ⟨before, p, after, hps, hp, hbefore⟩
    obtain ⟨t, rfl, ht, he⟩ := Piece.resolve_eq_error_iff.mp (fault?_eq_some_iff.mp hp)
    exact ⟨before, t, after, hps, forall_fault?_resolve_iff.mp hbefore, ht, he⟩
  · rintro ⟨before, t, after, hps, hbefore, ht, he⟩
    have hp := Piece.resolve_eq_error_iff.mpr ⟨t, rfl, ht, he⟩
    exact ⟨before, .token t, after, hps, fault?_eq_some_iff.mpr hp,
      forall_fault?_resolve_iff.mpr hbefore⟩

/-- Where every macro can be replaced the expanded text is made of what stands for the pieces. -/
theorem expand_of_resolves (h : Cut text.toList ps)
    (hresolves : ∀ t, .token t ∈ ps → t.Resolves scope) :
    expand scope text = .ok (String.ofList (ps.flatMap (Piece.replaced scope))) := by
  have hpieces : ps.mapM (Piece.resolve scope) = .ok (ps.map (Piece.replaced scope)) :=
    mapM_eq_ok fun p hp => Piece.resolve_eq_ok fun t ht => hresolves t (ht ▸ hp)
  rw [expand, h.expandChars_eq scope, hpieces, List.flatMap_def]
  rfl

theorem expand_eq_ok_iff (h : Cut text.toList ps) {out : String} :
    expand scope text = .ok out ↔
      (∀ t, .token t ∈ ps → t.Resolves scope) ∧
        out = String.ofList (ps.flatMap (Piece.replaced scope)) := by
  constructor
  · intro hout
    have hnone := fault?_eq_none_iff.mpr ⟨out, hout⟩
    rw [h.fault?_expand, List.findSome?_eq_none_iff] at hnone
    have hresolves := forall_fault?_resolve_iff.mp hnone
    rw [h.expand_of_resolves hresolves] at hout
    exact ⟨hresolves, (Except.ok.inj hout).symm⟩
  · rintro ⟨hresolves, rfl⟩
    exact h.expand_of_resolves hresolves

/-- Scopes that agree on the macros of a text expand it alike. -/
theorem expand_congr (h : Cut text.toList ps) {other : Scope}
    (hother : ∀ t, .token t ∈ ps → t.value? other = t.value? scope) :
    expand other text = expand scope text := by
  have hpiece : ∀ p ∈ ps, p.resolve other = p.resolve scope := by
    intro p hp
    cases p with
    | kept c => rfl
    | token t =>
        rw [Piece.resolve, Piece.resolve, Token.resolve_value?, Token.resolve_value?, hother t hp]
  rw [expand, expand, h.expandChars_eq, h.expandChars_eq, mapM_congr hpiece]

end Cut

/-- A text in which no macro is written stays as it is. -/
theorem expand_of_not_holds {scope : Scope} {text : String} (h : ¬ Holds text.toList) :
    expand scope text = .ok text := by
  have hcut := cut_of_not_holds h
  have hkept : text.toList.flatMap (Piece.replaced scope ∘ Piece.kept) = text.toList :=
    List.flatMap_singleton' _
  rw [hcut.expand_of_resolves (by simp), List.flatMap_map]
  exact congrArg Except.ok ((congrArg String.ofList hkept).trans String.ofList_toList)

/--
**Expansion replaces the macros of a text in one pass.** The text has one cut. It is expanded
exactly if every macro of the cut has a value or may stay without one, and then each of them is
replaced by its value or by nothing, all other characters being kept where they are; else it fails
at the first macro that has no value. No other value of the scope has a part in it.
-/
theorem expand_in_one_pass (scope : Scope) (text : String) :
    ∃ ps, (∀ qs, Cut text.toList qs ↔ qs = ps) ∧
      (∀ out, expand scope text = .ok out ↔
        (∀ t, .token t ∈ ps → t.Resolves scope) ∧
          out = String.ofList (ps.flatMap (Piece.replaced scope))) ∧
      (∀ e, expand scope text = .error e ↔
        ∃ before t after, ps = before ++ .token t :: after ∧
          (∀ u, .token u ∈ before → u.Resolves scope) ∧ ¬ t.Resolves scope ∧
          e = .unresolved (String.ofList t.chars)) ∧
      (∀ other : Scope, (∀ t, .token t ∈ ps → t.value? other = t.value? scope) →
        expand other text = expand scope text) ∧
      (¬ Holds text.toList → expand scope text = .ok text) := by
  obtain ⟨ps, hps⟩ := exists_cut text.toList
  refine ⟨ps, fun qs => ⟨fun hqs => hqs.unique hps, fun hqs => hqs ▸ hps⟩, ?_, ?_, ?_, ?_⟩
  · exact fun out => hps.expand_eq_ok_iff
  · exact fun e => hps.expand_eq_error_iff
  · exact fun other => hps.expand_congr
  · exact expand_of_not_holds

/-- A macro ends at the first brace, and a value that reads like one is not replaced again. -/
theorem expand_in_one_pass_nested :
    let text := "$\x7bb:: x \x7d$\x7b?c::$\x7bb::x\x7d\x7d"
    let scope : Scope := fun space _ => if space = "b" then some "$\x7bc::y\x7d" else none
    let other : Scope := fun _ key => if key = "x" then some "$\x7bc::y\x7d" else none
    (∃ ps, Cut text.toList ps ∧ ∀ t, .token t ∈ ps → t.value? other = t.value? scope) ∧
      expand other text = expand scope text ∧ expand scope text = .ok "$\x7bc::y\x7d\x7d" := by
  intro text scope other
  have hfirst : Token.IsWritten ⟨false, ['b'], " x ".toList⟩ :=
    ⟨by decide, List.forall_mem_singleton.mpr rfl, by decide, by decide⟩
  have hsecond : Token.IsWritten ⟨true, ['c'], "$\x7bb::x".toList⟩ :=
    ⟨by decide, List.forall_mem_singleton.mpr rfl, by decide, by decide⟩
  have hcut : Cut text.toList [.token ⟨false, ['b'], " x ".toList⟩,
      .token ⟨true, ['c'], "$\x7bb::x".toList⟩, .kept '\x7d'] :=
    Cut.token_iff.mpr ⟨_, by decide, hfirst, Cut.token_iff.mpr ⟨_, rfl, hsecond,
      Cut.kept_iff.mpr ⟨_, rfl, rfl, .nil⟩⟩⟩
  have hagree : ∀ t, .token t ∈ [Piece.token ⟨false, ['b'], " x ".toList⟩,
      .token ⟨true, ['c'], "$\x7bb::x".toList⟩, .kept '\x7d'] →
      t.value? other = t.value? scope := by
    intro t ht
    simp only [List.mem_cons, Piece.token.injEq, reduceCtorEq, List.not_mem_nil, or_false] at ht
    rcases ht with rfl | rfl
    · rfl
    · rfl
  obtain ⟨ps, hps, hok, -, hcongr, -⟩ := expand_in_one_pass scope text
  obtain rfl := (hps _).mp hcut
  refine ⟨⟨_, hcut, hagree⟩, hcongr other hagree, (hok _).mpr ⟨?_, by decide⟩⟩
  intro t ht
  simp only [List.mem_cons, Piece.token.injEq, reduceCtorEq, List.not_mem_nil, or_false] at ht
  rcases ht with rfl | rfl
  · exact .inr (by decide)
  · exact .inl rfl

end Macro

end TreeEdit
