import TreeEdit.Regex.Parser

/-!
# Escapes before a closing

The expression that holds whole keys against a text has the text between `^(?:` and `)$`. So the
text is read with two more characters behind it, and it is to be shown that the reader does not
mind them.

`Keeps` says so of one step of reading: with the closing behind the input it gives what it gives
without it, and leaves the closing. There is a second case, for a step that runs into the closing.
What it then gives is of no interest, only that at most a part of the closing is left (`Taken`),
for with that alone no expression ends.

A comment in a verbose expression runs into the closing and takes all of it; so may every step that
ignores blanks and comments, and most of them do so last (`Keeps.skip`, `Keeps.skipped`).
-/

namespace TreeEdit.Regex

/-- What stands behind the text of a segment in the expression for whole keys. -/
def closing : List Char := [')', '$']

/-- What is left of `closing` after a part of it. -/
def Taken (rest : List Char) : Prop := rest = [] ∨ rest = ['$']

/-- At most `closing` is left. -/
def Reached (rest : List Char) : Prop := rest = closing ∨ Taken rest

/-! ## Blanks and comments -/

namespace Flags

theorem length_skipComment_le (cs : List Char) : (skipComment cs).length ≤ cs.length := by
  induction cs with
  | nil => exact Nat.le_refl _
  | cons c cs ih =>
      rw [skipComment, List.length_cons]
      split <;> omega

theorem length_skipVerbose_le (fuel : Nat) (cs : List Char) :
    (skipVerbose fuel cs).length ≤ cs.length := by
  fun_induction skipVerbose fuel cs with
  | case1 => exact Nat.le_refl _
  | case2 => exact Nat.le_refl _
  | case3 fuel c cs hblank ih => exact Nat.le_succ_of_le ih
  | case4 fuel cs hblank ih =>
      exact Nat.le_succ_of_le (Nat.le_trans ih (length_skipComment_le cs))
  | case5 => exact Nat.le_refl _

theorem length_skip_le (f : Flags) (cs : List Char) : (f.skip cs).length ≤ cs.length := by
  rw [skip]
  split
  · exact length_skipVerbose_le ..
  · exact Nat.le_refl _

/-- A comment ends within the text, or takes all that stands behind it as well. -/
theorem skipComment_append (cs : List Char) :
    skipComment (cs ++ closing) = skipComment cs ++ closing ∨ skipComment (cs ++ closing) = [] := by
  induction cs with
  | nil => exact .inr rfl
  | cons c cs ih =>
      rw [List.cons_append, skipComment, skipComment]
      split
      · exact .inl rfl
      · exact ih

theorem skipVerbose_nil (fuel : Nat) : skipVerbose fuel [] = [] := by cases fuel <;> rfl

theorem skipVerbose_append {fuel fuel' : Nat} {cs : List Char} (h : cs.length ≤ fuel)
    (h' : cs.length < fuel') : skipVerbose fuel' (cs ++ closing) = skipVerbose fuel cs ++ closing ∨
      skipVerbose fuel' (cs ++ closing) = [] := by
  induction fuel generalizing fuel' cs with
  | zero =>
      obtain rfl := List.eq_nil_of_length_eq_zero (Nat.le_zero.mp h)
      obtain ⟨n, rfl⟩ := Nat.exists_eq_succ_of_ne_zero (Nat.ne_of_gt h')
      exact .inl rfl
  | succ fuel ih =>
      obtain ⟨n, rfl⟩ := Nat.exists_eq_succ_of_ne_zero (Nat.ne_of_gt (Nat.zero_lt_of_lt h'))
      cases cs with
      | nil => exact .inl rfl
      | cons c cs =>
          rw [List.length_cons] at h h'
          rw [List.cons_append, skipVerbose, skipVerbose]
          split
          · exact ih (by omega) (by omega)
          · split
            · have hlength := length_skipComment_le cs
              obtain heq | heq := skipComment_append cs
              · rw [heq]
                exact ih (by omega) (by omega)
              · rw [heq]
                exact .inr (skipVerbose_nil _)
            · exact .inl rfl

/-- What is ignored ends within the text, or a comment takes all that stands behind it. -/
theorem skip_append (f : Flags) (cs : List Char) :
    f.skip (cs ++ closing) = f.skip cs ++ closing ∨ f.skip (cs ++ closing) = [] := by
  rw [skip, skip]
  split
  · exact skipVerbose_append (Nat.le_refl _) (by simp [closing])
  · exact .inl rfl

theorem skip_cons {f : Flags} {c : Char} (hblank : Text.isBlank c = false) (hsign : c ≠ '#')
    (cs : List Char) : f.skip (c :: cs) = c :: cs := by
  rw [skip]
  split
  · rw [List.length_cons, skipVerbose, if_neg (by rw [hblank]; decide), if_neg hsign]
  · rfl

theorem skip_reached {f : Flags} {rest : List Char} (h : Reached rest) : f.skip rest = rest := by
  obtain rfl | rfl | rfl := h <;> cases hf : f.verbose <;> simp [skip, hf] <;> rfl

end Flags

/-! ## Readers with a closing behind their input -/

/--
Read with `closing` behind its input, a reader does as it does without it (`short`), at most `n`
characters being left before the closing; or it takes some of the closing, and then `slack` says
what it gives.
-/
def Keeps {α : Type} (n : Nat) (slack : α → List Char → Prop)
    (long short : Reading (α × List Char)) : Prop :=
  ∀ a rest, long = .ok (a, rest) →
    (∃ rest', rest = rest' ++ closing ∧ rest'.length ≤ n ∧ short = .ok (a, rest')) ∨ slack a rest

namespace Keeps

variable {α β : Type} {n : Nat} {slack : α → List Char → Prop}
  {long short : Reading (α × List Char)}

theorem ok {a : α} (rest : List Char) (h : rest.length ≤ n) :
    Keeps n slack (.ok (a, rest ++ closing)) (.ok (a, rest)) := by
  intro b rest' heq
  cases heq
  exact .inl ⟨rest, rfl, h, rfl⟩

theorem error {e : Fault} : Keeps n slack (.error e) short := by
  intro a rest heq
  cases heq

theorem of_error {e : Fault} (h : long = .error e) : Keeps n slack long short := by
  rw [h]
  exact error

theorem taken {a : α} {rest : List Char} (h : slack a rest) :
    Keeps n slack (.ok (a, rest)) short := by
  intro b rest' heq
  cases heq
  exact .inr h

/-- What is ignored behind a value may be all that is left before the closing. -/
theorem skip {f : Flags} {a : α} {cs : List Char} (hn : cs.length ≤ n) (hnil : slack a []) :
    Keeps n slack (.ok (a, f.skip (cs ++ closing))) (.ok (a, f.skip cs)) := by
  obtain h | h := f.skip_append cs
  · rw [h]
    exact ok _ (Nat.le_trans (f.length_skip_le cs) hn)
  · rw [h]
    exact taken hnil

theorem of_le {m : Nat} (h : Keeps n slack long short) (hn : n ≤ m) : Keeps m slack long short := by
  intro a rest heq
  obtain ⟨rest', hrest, hlength, hshort⟩ | htaken := h a rest heq
  · exact .inl ⟨rest', hrest, Nat.le_trans hlength hn, hshort⟩
  · exact .inr htaken

/-- Two steps, of which the second may go on within the closing. -/
theorem bind {m : Nat} {slack' : β → List Char → Prop}
    {k l : α × List Char → Reading (β × List Char)} (h : Keeps n slack long short)
    (hk : ∀ a rest, rest.length ≤ n → Keeps m slack' (k (a, rest ++ closing)) (l (a, rest)))
    (htaken : ∀ a rest, slack a rest → ∀ short, Keeps m slack' (k (a, rest)) short) :
    Keeps m slack' (long >>= k) (short >>= l) := by
  cases long with
  | error e => exact error
  | ok p =>
      obtain ⟨a, rest⟩ := p
      obtain ⟨rest', rfl, hlength, rfl⟩ | hslack := h a rest rfl
      · exact hk a rest' hlength
      · exact htaken a rest hslack _

/-- What a reader gives is put into another form. -/
theorem map {slack' : β → List Char → Prop} {g : α → β} (h : Keeps n slack long short)
    (hslack : ∀ a rest, slack a rest → slack' (g a) rest) :
    Keeps n slack' (long.map fun (a, rest) => (g a, rest))
      (short.map fun (a, rest) => (g a, rest)) :=
  bind (k := fun p => .ok (g p.1, p.2)) h (fun _ rest => ok rest)
    fun a rest htaken _ => taken (hslack a rest htaken)

/-- The reading goes on behind what is ignored. -/
theorem skipped {f : Flags} {cs : List Char} (read : List Char → Reading (α × List Char))
    (h : Keeps n slack (read (f.skip cs ++ closing)) short) (hnil : Keeps n slack (read []) short) :
    Keeps n slack (read (f.skip (cs ++ closing))) short := by
  obtain heq | heq := f.skip_append cs
  · rwa [heq]
  · rwa [heq]

/-- A value that may be missing, with what is left of the input. -/
theorem value {rest : List Char} (e : Except Fault α) (h : rest.length ≤ n) :
    Keeps n slack (do return (← e, rest ++ closing)) (do return (← e, rest)) := by
  cases e with
  | error e => exact error
  | ok a => exact ok rest h

theorem value_taken {rest : List Char} (e : Except Fault α) (h : ∀ a, slack a rest) :
    Keeps n slack (do return (← e, rest)) short := by
  cases e with
  | error e => exact error
  | ok a => exact taken (h a)

end Keeps

/-! ## Escapes -/

section

variable (f : Flags)

/-- Digits of a fixed number are none of the closing. -/
theorem keeps_hexFixed (n : Nat) (digits cs : List Char) :
    Keeps cs.length (fun _ => Taken) (hexFixed f n digits (cs ++ closing))
      (hexFixed f n digits cs) := by
  induction n generalizing digits cs with
  | zero =>
      rw [hexFixed, hexFixed]
      cases charOfHex digits.reverse with
      | error e => exact Keeps.error
      | ok c => exact Keeps.ok _ (Nat.le_refl _)
  | succ n ih =>
      cases cs with
      | nil => exact Keeps.error
      | cons c cs =>
          rw [List.cons_append, hexFixed, hexFixed]
          split
          · refine Keeps.skipped (hexFixed f n _) ?_ ?_
            · exact (ih _ _).of_le (Nat.le_succ_of_le (f.length_skip_le cs))
            · cases n with
              | zero =>
                  rw [hexFixed]
                  cases charOfHex (c :: digits).reverse with
                  | error e => exact Keeps.error
                  | ok d => exact Keeps.taken (.inl rfl)
              | succ n => exact Keeps.error
          · exact Keeps.error

/-- No brace stands in a closing. -/
theorem upToBrace_reached {rest : List Char} (h : Reached rest) (taken : List Char) (fuel : Nat) :
    upToBrace f taken fuel rest = .error .badEscape := by
  have hnil : ∀ taken fuel, upToBrace f taken fuel [] = .error .badEscape := by
    intro taken fuel
    cases fuel <;> rfl
  have hlast : ∀ taken fuel, upToBrace f taken fuel ['$'] = .error .badEscape := by
    intro taken fuel
    cases fuel with
    | zero => rfl
    | succ fuel =>
        rw [upToBrace, if_neg (by decide), Flags.skip_reached (.inr (.inl rfl)), hnil]
  obtain rfl | rfl | rfl := h
  · cases fuel with
    | zero => rfl
    | succ fuel =>
        rw [closing, upToBrace, if_neg (by decide), Flags.skip_reached (.inr (.inr rfl)), hlast]
  · exact hnil taken fuel
  · exact hlast taken fuel

theorem keeps_upToBrace {fuel fuel' : Nat} {cs : List Char} (h : cs.length < fuel)
    (h' : cs.length < fuel') (taken : List Char) :
    Keeps cs.length (fun _ => Taken) (upToBrace f taken fuel' (cs ++ closing))
      (upToBrace f taken fuel cs) := by
  induction fuel generalizing fuel' cs taken with
  | zero => omega
  | succ fuel ih =>
      obtain ⟨fuel', rfl⟩ := Nat.exists_eq_succ_of_ne_zero (Nat.ne_of_gt (Nat.zero_lt_of_lt h'))
      cases cs with
      | nil =>
          rw [List.nil_append, upToBrace_reached f (.inl rfl)]
          exact Keeps.error
      | cons c cs =>
          rw [List.length_cons] at h h'
          rw [List.cons_append, upToBrace, upToBrace]
          split
          · exact Keeps.skip (Nat.le_succ _) (.inl rfl)
          · have hlength := f.length_skip_le cs
            refine Keeps.skipped (upToBrace f _ fuel') ?_ ?_
            · exact (ih (by omega) (by omega) _).of_le (Nat.le_succ_of_le hlength)
            · rw [upToBrace_reached f (.inr (.inl rfl))]
              exact Keeps.error

/-- A name in braces, read behind the opening brace. -/
theorem keeps_braced (cs : List Char) :
    Keeps cs.length (fun _ => Taken)
      (upToBrace f [] ((cs ++ closing).length + 1) (f.skip (cs ++ closing)))
      (upToBrace f [] (cs.length + 1) (f.skip cs)) := by
  have hlength := f.length_skip_le cs
  refine Keeps.skipped (upToBrace f [] _) ?_ ?_
  · refine (keeps_upToBrace f (by omega) ?_ _).of_le hlength
    rw [List.length_append]
    omega
  · rw [upToBrace_reached f (.inr (.inl rfl))]
    exact Keeps.error

theorem hexEscape_cons {width : Nat} {cs ds : List Char} {c : Char} (h : f.skip cs = c :: ds) :
    hexEscape f width cs =
      if c = '\x7b' then do
        let (digits, rest) ← upToBrace f [] (ds.length + 1) (f.skip ds)
        if digits.all (fun c => (Text.digitValue? 16 c).isSome) then
          return (← charOfHex digits, rest)
        else .error .badEscape
      else hexFixed f width [] (c :: ds) := by
  rw [hexEscape, h]
  split
  · simp_all
  · rename_i heq
    obtain ⟨rfl, rfl⟩ := List.cons_eq_cons.mp heq
    rw [if_pos rfl]
  · rename_i hne
    rw [if_neg (by rintro rfl; exact hne ds rfl)]

/-- A number in braces or of a fixed width is read before the closing as without it. -/
theorem keeps_hexEscape (width : Nat) (cs : List Char) :
    Keeps cs.length (fun _ => Taken) (hexEscape f width (cs ++ closing))
      (hexEscape f width cs) := by
  have hlength := f.length_skip_le cs
  obtain h | h := f.skip_append cs
  · cases hds : f.skip cs with
    | nil =>
        rw [hds] at h
        rw [hexEscape_cons f h, if_neg (by decide)]
        cases width <;> exact Keeps.error
    | cons c ds =>
        rw [hds] at h hlength
        rw [hexEscape_cons f h, hexEscape_cons f hds]
        split
        · refine Keeps.bind ((keeps_braced f ds).of_le (Nat.le_of_succ_le hlength)) ?_ ?_
          · intro digits rest hrest
            dsimp only
            split
            · exact Keeps.value _ hrest
            · exact Keeps.error
          · intro digits rest hrest short
            dsimp only
            split
            · exact Keeps.value_taken _ fun _ => hrest
            · exact Keeps.error
        · exact (keeps_hexFixed f width [] _).of_le hlength
  · rw [hexEscape, h]
    exact Keeps.error

/-- A property of one letter may be the parenthesis of the closing, one in braces may not. -/
theorem keeps_propertyEscape (negated : Bool) (cs : List Char) :
    Keeps cs.length (fun _ => Taken) (propertyEscape f negated (cs ++ closing))
      (propertyEscape f negated cs) := by
  have hlength := f.length_skip_le cs
  rw [propertyEscape, propertyEscape]
  obtain h | h := f.skip_append cs
  · rw [h]
    cases hds : f.skip cs with
    | nil =>
        -- the parenthesis of the closing names the property
        have hlast : Taken (f.skip ['$']) := .inr (Flags.skip_reached (.inr (.inr rfl)))
        exact Keeps.value_taken _ fun _ => hlast
    | cons c ds =>
        rw [hds] at h hlength
        by_cases hbrace : c = '\x7b'
        · subst hbrace
          refine Keeps.bind ((keeps_braced f ds).of_le (Nat.le_of_succ_le hlength)) ?_ ?_
          · intro name rest hrest
            dsimp only
            split
            · exact Keeps.value _ hrest
            · split <;> exact Keeps.value _ hrest
          · intro name rest hrest short
            dsimp only
            split
            · exact Keeps.value_taken _ fun _ => hrest
            · split <;> exact Keeps.value_taken _ fun _ => hrest
        · by_cases hslash : c = '\\'
          · subst hslash
            exact Keeps.error
          · simp only [List.cons_append]
            refine Keeps.skipped (fun rest => do return (← _, rest)) ?_ ?_
            · exact Keeps.value _ (Nat.le_trans (f.length_skip_le ds) (Nat.le_of_succ_le hlength))
            · exact Keeps.value_taken _ fun _ => .inl rfl
  · rw [h]
    exact Keeps.error

/--
What an escape gives where it has taken some of a closing, or has only seen it: a word boundary
looks behind the brace that follows, and at the parenthesis of the closing it takes that brace for
the start of a counted repetition.
-/
def AfterEscape (a : Atom) (rest : List Char) : Prop :=
  Taken rest ∨ ∃ x more, a = .assertion x ∧ rest = '\x7b' :: more ∧ f.skip more = closing

theorem keeps_boundaryEscape (cs : List Char) :
    Keeps cs.length (fun a rest => AfterEscape f (.assertion a) rest)
      (boundaryEscape f (cs ++ closing)) (boundaryEscape f cs) := by
  cases cs with
  | nil => exact Keeps.ok [] (Nat.le_refl _)
  | cons c cs =>
      by_cases hbrace : c = '\x7b'
      · subst hbrace
        simp only [boundaryEscape, List.cons_append]
        obtain h | h := f.skip_append cs
        · rw [h]
          have hlength := f.length_skip_le cs
          cases hds : f.skip cs with
          | nil =>
              refine Keeps.taken (.inr ⟨_, _, rfl, rfl, ?_⟩)
              rw [h, hds]
              rfl
          | cons d ds =>
              rw [hds] at hlength
              simp only [List.cons_append]
              split
              · exact Keeps.ok _ (Nat.le_refl _)
              · have hname : Keeps (d :: ds).length (fun _ => Taken)
                    (upToBrace f [] ((ds ++ closing).length + 2) (d :: ds ++ closing))
                    (upToBrace f [] (ds.length + 2) (d :: ds)) :=
                  keeps_upToBrace f (Nat.lt_succ_self _)
                    (by rw [List.length_append, List.length_cons]; omega) []
                refine Keeps.bind hname ?_ ?_
                · intro name rest hrest
                  dsimp only
                  split
                  · exact Keeps.ok _ (Nat.le_trans hrest (Nat.le_succ_of_le hlength))
                  · exact Keeps.error
                · intro name rest hrest short
                  dsimp only
                  split
                  · exact Keeps.taken (.inl hrest)
                  · exact Keeps.error
        · rw [h]
          exact Keeps.error
      · simp only [boundaryEscape, List.cons_append, List.cons.injEq, hbrace, false_and, imp_self,
          implies_true]
        exact Keeps.ok (c :: cs) (Nat.le_refl _)

/-- **An escape is read before the closing as without it**, or it takes some of the closing. -/
theorem keeps_escape (cs : List Char) :
    Keeps cs.length (AfterEscape f) (escape f (cs ++ closing)) (escape f cs) := by
  cases cs with
  | nil =>
      -- the parenthesis of the closing is escaped
      have hlast : Taken (f.skip ['$']) := .inr (Flags.skip_reached (.inr (.inr rfl)))
      exact Keeps.taken (a := Atom.char ')') (.inl hlast)
  | cons c cs =>
      have hskip : ∀ a, Keeps (c :: cs).length (AfterEscape f) (.ok (a, f.skip (cs ++ closing)))
          (.ok (a, f.skip cs)) := fun a => Keeps.skip (Nat.le_succ _) (.inl (.inl rfl))
      have hset : ∀ e : Except Fault CharClass, Keeps (c :: cs).length (AfterEscape f)
          (e.map fun s => (.set s, f.skip (cs ++ closing)))
          (e.map fun s => (.set s, f.skip cs)) := by
        intro e
        cases e with
        | error e => exact Keeps.error
        | ok s => exact hskip (.set s)
      rw [List.cons_append, escape.eq_def, escape.eq_def f (c :: cs)]
      dsimp only
      split
      · exact Keeps.error
      · split
        · exact hskip _
        · split
          case h_1 =>
            refine Keeps.bind ((keeps_hexEscape f 2 cs).of_le (Nat.le_succ _)) ?_ ?_
            · intro d rest hrest
              dsimp only
              split
              · exact Keeps.error
              · exact Keeps.ok rest hrest
            · intro d rest hrest short
              dsimp only
              split
              · exact Keeps.error
              · exact Keeps.taken (.inl hrest)
          case h_2 =>
            exact ((keeps_hexEscape f 4 cs).of_le (Nat.le_succ _)).map fun _ _ => .inl
          case h_3 =>
            exact ((keeps_hexEscape f 8 cs).of_le (Nat.le_succ _)).map fun _ _ => .inl
          case h_4 =>
            exact ((keeps_propertyEscape f false cs).of_le (Nat.le_succ _)).map fun _ _ => .inl
          case h_5 =>
            exact ((keeps_propertyEscape f true cs).of_le (Nat.le_succ _)).map fun _ _ => .inl
          case h_20 =>
            refine Keeps.skipped (fun cs => (boundaryEscape f cs).map fun p =>
              (Atom.assertion p.1, p.2)) ?_ ?_
            · have hlength := Nat.le_succ_of_le (f.length_skip_le cs)
              exact ((keeps_boundaryEscape f _).of_le hlength).map fun _ _ h => h
            · exact Keeps.taken (.inl (.inl rfl))
          case h_6 | h_7 | h_8 | h_9 | h_10 | h_11 => exact hset _
          case h_24 => exact Keeps.error
          all_goals exact hskip _

end

end TreeEdit.Regex
