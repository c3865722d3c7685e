import Mathlib.Data.List.Infix
import TreeEdit.Proofs.EnclosedEscapes

/-!
# Repetitions and groups before a closing

The bounds of a counted repetition end at a brace, and the name of a group at an angle bracket; both
are read as they are without `closing`, for it holds neither. Flags end at a parenthesis, so they
may take that of the closing for the end of their own group: `(?i` has its flags only because of it.
A group that is still open when at most a part of the closing is left stays open (`loop_taken`).
-/

namespace TreeEdit.Regex

section

variable (f : Flags)

/-! ## Counted repetitions -/

theorem trimLeft_append (cs : List Char) :
    Text.trimLeft (cs ++ closing) = Text.trimLeft cs ++ closing := by
  unfold Text.trimLeft
  rw [List.dropWhile_append]
  split
  · rename_i h
    rw [List.isEmpty_iff] at h
    rw [h]
    rfl
  · rfl

theorem length_trimLeft_le (cs : List Char) : (Text.trimLeft cs).length ≤ cs.length :=
  (List.dropWhile_suffix _).length_le

/-- Digits end before the closing, or with it where nothing else follows them. -/
theorem keeps_digits {fuel fuel' : Nat} {cs : List Char} (h : cs.length < fuel)
    (h' : cs.length < fuel') (taken : List Char) :
    Keeps cs.length (fun _ rest => rest = []) (.ok (decimal?.digits f taken fuel' (cs ++ closing)))
      (.ok (decimal?.digits f taken fuel cs)) := by
  induction fuel generalizing fuel' cs taken with
  | zero => omega
  | succ fuel ih =>
      obtain ⟨fuel', rfl⟩ := Nat.exists_eq_succ_of_ne_zero (Nat.ne_of_gt (Nat.zero_lt_of_lt h'))
      cases cs with
      | nil => exact Keeps.ok [] (Nat.le_refl _)
      | cons c cs =>
          rw [List.length_cons] at h h'
          have hlength := f.length_skip_le cs
          rw [List.cons_append, decimal?.digits, decimal?.digits]
          split
          · refine Keeps.skipped (fun rest => .ok (decimal?.digits f _ fuel' rest)) ?_ ?_
            · exact (ih (by omega) (by omega) _).of_le (Nat.le_succ_of_le hlength)
            · cases fuel' <;> exact Keeps.taken rfl
          · exact Keeps.ok (c :: cs) (Nat.le_refl _)

/-- The number that digits write, and what follows blanks behind them. -/
def decimalOf (p : List Char × List Char) : Reading (Option Nat × List Char) :=
  match Text.natOfDigits? 10 p.1.reverse with
  | none => .ok (none, Text.trimLeft p.2)
  | some n => if n < 4294967296 then .ok (some n, Text.trimLeft p.2) else .error .badRepetition

/-- A number between blanks is read before the closing as without it. -/
theorem keeps_decimal? (cs : List Char) :
    Keeps cs.length (fun _ rest => rest = []) (decimal? f (cs ++ closing)) (decimal? f cs) := by
  have hlength := length_trimLeft_le cs
  have hdigits : Keeps (Text.trimLeft cs).length (fun _ rest => rest = [])
      (.ok (decimal?.digits f [] ((cs ++ closing).length + 1) (Text.trimLeft (cs ++ closing))))
      (.ok (decimal?.digits f [] (cs.length + 1) (Text.trimLeft cs))) := by
    rw [trimLeft_append]
    exact keeps_digits f (by omega) (by rw [List.length_append]; omega) []
  refine Keeps.bind hdigits (k := fun p => decimalOf p) (l := fun p => decimalOf p) ?_ ?_
  · intro taken rest hrest
    have hlength' := length_trimLeft_le rest
    unfold decimalOf
    dsimp only
    rw [trimLeft_append]
    split
    · exact Keeps.ok _ (by omega)
    · split
      · exact Keeps.ok _ (by omega)
      · exact Keeps.error
  · rintro taken rest rfl short
    unfold decimalOf
    dsimp only
    split
    · exact Keeps.taken rfl
    · split
      · exact Keeps.taken rfl
      · exact Keeps.error

/-- A number that is closed by its brace. -/
def closeCounts (least : Option Nat) (most : Nat → Option Nat) (rest : List Char) :
    Reading ((Nat × Option Nat) × List Char) :=
  match least, rest with
  | some n, '\x7d' :: rest => .ok ((n, most n), f.skip rest)
  | _, _ => .error .badRepetition

theorem closeCounts_of_ne {rest : List Char} (h : rest.head? ≠ some '\x7d') (least : Option Nat)
    (most : Nat → Option Nat) : closeCounts f least most rest = .error .badRepetition := by
  unfold closeCounts
  split
  · exact absurd rfl h
  · rfl

/-- The brace of a counted repetition is none of the closing. -/
theorem keeps_closeCounts (least : Option Nat) (most : Nat → Option Nat) (rest : List Char) :
    Keeps rest.length (fun _ => Taken) (closeCounts f least most (rest ++ closing))
      (closeCounts f least most rest) := by
  cases rest with
  | nil => exact Keeps.of_error (closeCounts_of_ne f (by decide) least most)
  | cons c rest =>
      by_cases hc : c = '\x7d'
      · subst hc
        cases least with
        | none => exact Keeps.error
        | some n => exact Keeps.skip (Nat.le_succ _) (.inl rfl)
      · exact Keeps.of_error (closeCounts_of_ne f (by simpa using hc) least most)

/-- The second number of a counted repetition and its brace. -/
def countsMost (least : Option Nat) (p : Option Nat × List Char) :
    Reading ((Nat × Option Nat) × List Char) :=
  match p.1 with
  | some m => closeCounts f least (fun _ => some m) p.2
  | none => .error .badRepetition

theorem keeps_countsMost (least : Option Nat) (cs : List Char) :
    Keeps cs.length (fun _ => Taken) (decimal? f (cs ++ closing) >>= countsMost f least)
      (decimal? f cs >>= countsMost f least) := by
  have hnil : ([] : List Char).head? ≠ some '\x7d' := by decide
  refine Keeps.bind (keeps_decimal? f cs) ?_ ?_
  · intro most rest hrest
    cases most with
    | none => exact Keeps.error
    | some m => exact (keeps_closeCounts f least _ rest).of_le hrest
  · rintro most rest rfl short
    cases most with
    | none => exact Keeps.error
    | some m => exact Keeps.of_error (closeCounts_of_ne f hnil least _)

/-- The bounds of a repetition are read before the closing as without it, or are not closed. -/
theorem keeps_counts (cs : List Char) :
    Keeps cs.length (fun _ => Taken) (counts f (cs ++ closing)) (counts f cs) := by
  unfold counts
  have hleast : Keeps cs.length (fun _ rest => rest = []) (decimal? f (f.skip (cs ++ closing)))
      (decimal? f (f.skip cs)) := by
    refine Keeps.skipped (decimal? f) ?_ ?_
    · exact (keeps_decimal? f _).of_le (f.length_skip_le cs)
    · exact Keeps.taken rfl
  refine Keeps.bind hleast ?_ ?_
  · intro least rest hrest
    cases rest with
    | nil => exact Keeps.of_error (closeCounts_of_ne f (by decide) least some)
    | cons c rest =>
        rw [List.length_cons] at hrest
        by_cases hc : c = ','
        · subst hc
          have hlength := f.length_skip_le rest
          simp only [List.cons_append]
          obtain h | h := f.skip_append rest
          · rw [h]
            generalize f.skip rest = ds at hlength
            cases ds with
            | nil => exact (keeps_countsMost f least []).of_le (Nat.zero_le _)
            | cons d ds =>
                by_cases hd : d = '\x7d'
                · subst hd
                  exact (keeps_closeCounts f least _ ('\x7d' :: ds)).of_le (by omega)
                · simp only [List.cons_append, List.cons.injEq, hd, false_and, imp_self,
                    implies_true]
                  exact (keeps_countsMost f least (d :: ds)).of_le (by omega)
          · rw [h]
            exact Keeps.error
        · simp only [List.cons_append, List.cons.injEq, hc, false_and, imp_self, implies_true]
          exact (keeps_closeCounts f least some (c :: rest)).of_le hrest
  · rintro least rest rfl short
    exact Keeps.of_error (closeCounts_of_ne f (by decide) least some)

/-- A closing bounds no repetition. -/
theorem counts_closing {f : Flags} {cs : List Char} (h : f.skip cs = closing) :
    counts f cs = .error .badRepetition := by
  unfold counts
  rw [h]
  rfl

/-! ## The start of a group -/

/-- Flags that nothing ends are ended by the parenthesis of the closing. -/
theorem keeps_groupFlags (seen : List Char) (on : Bool) (g : Flags) (cs : List Char) :
    Keeps cs.length (fun _ rest => rest = closing) (groupFlags seen on g (cs ++ closing))
      (groupFlags seen on g cs) := by
  induction cs generalizing seen on g with
  | nil =>
      rw [List.nil_append, closing, groupFlags.eq_def]
      simp only
      split
      · exact Keeps.error
      · exact Keeps.taken rfl
  | cons c cs ih =>
      have hshort : ∀ seen on g, Keeps (cs.length + 1) (fun _ rest => rest = closing)
          (groupFlags seen on g (cs ++ closing)) (groupFlags seen on g cs) :=
        fun seen on g => (ih seen on g).of_le (Nat.le_succ _)
      rw [List.cons_append, groupFlags.eq_def, groupFlags.eq_def _ _ _ (c :: cs)]
      by_cases hcolon : c = ':'
      · subst hcolon
        simp only
        split
        · exact Keeps.error
        · exact Keeps.ok (':' :: cs) (Nat.le_refl _)
      · by_cases hclose : c = ')'
        · subst hclose
          simp only
          split
          · exact Keeps.error
          · exact Keeps.ok (')' :: cs) (Nat.le_refl _)
        · simp only
          split
          · exact Keeps.error
          · split
            · exact hshort _ _ _
            · split
              · exact hshort _ _ _
              · exact Keeps.error

theorem groupName_reached {rest : List Char} (h : Reached rest) (taken : List Char) :
    groupName taken rest = .error .badGroupName := by
  have hlast : ∀ taken, groupName taken ['$'] = .error .badGroupName := by
    intro taken
    simp [groupName]
  rcases h with rfl | rfl | rfl
  · simp [groupName, closing]
  · rfl
  · exact hlast taken

/-- A name that nothing ends is not ended by the closing. -/
theorem keeps_groupName (taken cs : List Char) :
    Keeps cs.length (fun _ => Taken) (groupName taken (cs ++ closing)) (groupName taken cs) := by
  induction cs generalizing taken with
  | nil =>
      rw [List.nil_append, groupName_reached (.inl rfl)]
      exact Keeps.error
  | cons c cs ih =>
      rw [List.cons_append, groupName.eq_def, groupName.eq_def _ (c :: cs)]
      by_cases hc : c = '>'
      · subst hc
        simp only
        split
        · exact Keeps.error
        · exact Keeps.ok _ (Nat.le_succ _)
      · simp only
        split
        · exact (ih _).of_le (Nat.le_succ _)
        · exact Keeps.error

/-- What flags begin, `cs` being the input they stand in. -/
def openingFlags (cs : List Char) (p : Flags × List Char) : Reading (Opening × List Char) :=
  match p with
  | (g, ':' :: after) => .ok (.group g, after)
  | (g, after) =>
    if cs.head? = some ')' then .error .nothingToRepeat else .ok (.flagsOnly g, after.drop 1)

theorem openingFlags_of_ne {cs after : List Char} {g : Flags} (h : after.head? ≠ some ':') :
    openingFlags cs (g, after) = if cs.head? = some ')' then .error .nothingToRepeat
      else .ok (.flagsOnly g, after.drop 1) := by
  unfold openingFlags
  split
  · rename_i heq
    cases heq
    exact absurd rfl h
  · rename_i heq
    cases heq
    rfl

/-- After flags a group goes on before the closing; that of flags alone may take its parenthesis. -/
theorem keeps_openingFlags (cs : List Char) :
    Keeps cs.length (fun _ => Taken)
      (groupFlags [] true f (cs ++ closing) >>= openingFlags (cs ++ closing))
      (groupFlags [] true f cs >>= openingFlags cs) := by
  cases cs with
  | nil => exact Keeps.error
  | cons d cs =>
      refine Keeps.bind (keeps_groupFlags [] true f (d :: cs)) ?_ ?_
      · intro g rest hrest
        cases rest with
        | nil =>
            rw [openingFlags_of_ne (by decide)]
            split
            · exact Keeps.error
            · exact Keeps.taken (.inr rfl)
        | cons c rest =>
            by_cases hc : c = ':'
            · subst hc
              exact Keeps.ok _ (Nat.le_of_succ_le hrest)
            · rw [openingFlags_of_ne (by simpa using hc), openingFlags_of_ne (by simpa using hc)]
              rw [List.cons_append, List.head?_cons, List.head?_cons]
              split
              · exact Keeps.error
              · exact Keeps.ok _ (Nat.le_of_succ_le hrest)
      · rintro g rest rfl short
        rw [openingFlags_of_ne (by decide)]
        split
        · exact Keeps.error
        · exact Keeps.taken (.inr rfl)

section

variable {f} {cs ds : List Char}

/-- What stands behind a question mark begins no flags. -/
def NoFlags (ds : List Char) : Prop :=
  ds.head? = some '=' ∨ ds.head? = some '!' ∨ ds.head? = some '<' ∨ ['P', '<'] <+: ds

theorem noFlags_append : NoFlags (ds ++ closing) ↔ NoFlags ds := by
  match ds with
  | [] => simp [NoFlags, closing]
  | [c] => simp [NoFlags, closing]
  | c :: d :: ds => simp [NoFlags]

/-- A question mark with no name behind it announces flags. -/
theorem opening_flags (h : f.skip cs = '?' :: ds) (hds : ¬ NoFlags ds) :
    opening f cs = groupFlags [] true f ds >>= openingFlags ds := by
  rw [opening, h]
  split
  case h_7 heq =>
    obtain ⟨-, rfl⟩ := List.cons_eq_cons.mp heq
    cases groupFlags [] true f ds with
    | error e => rfl
    | ok p =>
        obtain ⟨g, after⟩ := p
        show _ = openingFlags ds (g, after)
        by_cases hafter : after.head? = some ':'
        · obtain ⟨after, rfl⟩ := List.head?_eq_some_iff.mp hafter
          rfl
        · rw [openingFlags_of_ne hafter]
          split <;> simp_all
  case h_8 hne => exact absurd rfl (hne ds)
  all_goals
    rename_i heq
    obtain ⟨-, rfl⟩ := List.cons_eq_cons.mp heq
    exact absurd (by simp [NoFlags]) hds

/-- An angle bracket announces a name, unless it begins a look-behind. -/
theorem opening_named (h : f.skip cs = '?' :: '<' :: ds) (heq : ds.head? ≠ some '=')
    (hnot : ds.head? ≠ some '!') :
    opening f cs = (groupName [] ds).map fun (name, rest) => (.named name, rest) := by
  rw [opening, h]
  split
  case h_6 heq =>
    obtain ⟨-, rfl⟩ := List.cons_eq_cons.mp (List.cons_eq_cons.mp heq).2
    rfl
  case h_7 hne heq => exact absurd (List.cons_eq_cons.mp heq).2.symm (hne ds)
  case h_8 hne => exact absurd rfl (hne _)
  all_goals simp_all

end

/-- A name ends at its angle bracket, look-around is refused at once. -/
theorem keeps_opening_name {long short ds : List Char}
    (hlong : f.skip long = '?' :: (ds ++ closing)) (hshort : f.skip short = '?' :: ds)
    (hds : NoFlags ds) :
    Keeps ds.length (fun _ => Taken) (opening f long) (opening f short) := by
  have hnamed : ∀ es : List Char, es.length ≤ ds.length → Keeps ds.length (fun _ => Taken)
      ((groupName [] (es ++ closing)).map fun (name, rest) => (Opening.named name, rest))
      ((groupName [] es).map fun (name, rest) => (Opening.named name, rest)) := by
    intro es hes
    exact ((keeps_groupName [] es).of_le hes).map fun _ _ h => h
  rcases hds with hhead | hhead | hhead | hname
  · obtain ⟨es, rfl⟩ := List.head?_eq_some_iff.mp hhead
    rw [opening, hlong]
    exact Keeps.error
  · obtain ⟨es, rfl⟩ := List.head?_eq_some_iff.mp hhead
    rw [opening, hlong]
    exact Keeps.error
  · obtain ⟨es, rfl⟩ := List.head?_eq_some_iff.mp hhead
    rw [List.cons_append] at hlong
    by_cases hlook : es.head? = some '=' ∨ es.head? = some '!'
    · rcases hlook with hhead | hhead
      · obtain ⟨es, rfl⟩ := List.head?_eq_some_iff.mp hhead
        rw [opening, hlong]
        exact Keeps.error
      · obtain ⟨es, rfl⟩ := List.head?_eq_some_iff.mp hhead
        rw [opening, hlong]
        exact Keeps.error
    · simp only [not_or] at hlook
      have hclosing : (es ++ closing).head? ≠ some '=' ∧ (es ++ closing).head? ≠ some '!' := by
        cases es with
        | nil => decide
        | cons e es => exact hlook
      rw [opening_named hlong hclosing.1 hclosing.2, opening_named hshort hlook.1 hlook.2]
      exact hnamed es (Nat.le_succ _)
  · obtain ⟨es, rfl⟩ := hname
    rw [opening, hlong, opening, hshort]
    exact hnamed es (Nat.le_succ_of_le (Nat.le_succ _))

theorem keeps_opening (cs : List Char) :
    Keeps cs.length (fun _ => Taken) (opening f (cs ++ closing)) (opening f cs) := by
  have hlength := f.length_skip_le cs
  obtain hlong | hlong := f.skip_append cs
  · by_cases hhead : (f.skip cs).head? = some '?'
    · obtain ⟨ds, hshort⟩ := List.head?_eq_some_iff.mp hhead
      rw [hshort] at hlong hlength
      have hn := Nat.le_of_succ_le hlength
      by_cases hflags : NoFlags ds
      · exact (keeps_opening_name f hlong hshort hflags).of_le hn
      · rw [opening_flags hlong (mt noFlags_append.mp hflags), opening_flags hshort hflags]
        exact (keeps_openingFlags f ds).of_le hn
    · have hclosing : (f.skip cs ++ closing).head? ≠ some '?' := by
        cases hds : f.skip cs with
        | nil => decide
        | cons d ds => rwa [hds] at hhead
      rw [opening_plain hlong hclosing, opening_plain rfl hhead]
      exact Keeps.ok _ hlength
  · rw [opening, hlong]
    exact Keeps.taken (.inl rfl)

end

/-! ## Groups left open -/

/-- No expression ends within a closing while groups are open. -/
theorem loop_taken {rest : List Char} (h : Taken rest) (fuel : Nat) {outer : List Group}
    (houter : outer ≠ []) (names : List String) (g : Group) :
    ∃ e, loop fuel outer names g rest = .error e := by
  have hnil : ∀ fuel g, ∃ e, loop fuel outer names g [] = .error e := by
    intro fuel g
    cases fuel with
    | zero => exact ⟨_, rfl⟩
    | succ fuel =>
        rw [loop, Flags.skip_reached (.inr (.inl rfl))]
        exact ⟨_, if_neg (by simpa using houter)⟩
  rcases h with rfl | rfl
  · exact hnil fuel g
  · cases fuel with
    | zero => exact ⟨_, rfl⟩
    | succ fuel =>
        rw [loop, Flags.skip_reached (.inr (.inr rfl))]
        exact hnil fuel _

end TreeEdit.Regex
