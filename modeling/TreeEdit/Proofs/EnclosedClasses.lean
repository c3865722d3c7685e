import TreeEdit.Proofs.EnclosedEscapes

/-!
# Bracketed classes before a closing

The reader of a class ends at a closing bracket, and there is none in `closing`. So it gives what it
gives without the closing, or fails (`keeps_bracketed`). On its way it may run into the closing all
the same: a class that is not closed takes the parenthesis for one of its characters, and only then
finds that the input ends (`classLoop_reached`).
-/

namespace TreeEdit.Regex

section

variable (f : Flags)

/-! ## The start of a class -/

theorem leadingLiterals_cons_of_ne {c : Char} (h : c ≠ '-') (set : CharClass) (fuel : Nat)
    (cs : List Char) : leadingLiterals f set fuel (c :: cs) = (set, c :: cs) := by
  cases fuel with
  | zero => rfl
  | succ fuel => simp [leadingLiterals, h]

/--
The hyphens in front of a class. Where there is nothing but hyphens the reader stops in front of the
closing, which does not begin with one.
-/
theorem keeps_leadingLiterals {fuel fuel' : Nat} {cs : List Char} (h : cs.length < fuel)
    (h' : cs.length < fuel') (set : CharClass) :
    Keeps cs.length (fun _ rest => rest = []) (.ok (leadingLiterals f set fuel' (cs ++ closing)))
      (.ok (leadingLiterals f set fuel cs)) := by
  induction fuel generalizing fuel' cs set with
  | zero => omega
  | succ fuel ih =>
      obtain ⟨fuel', rfl⟩ := Nat.exists_eq_succ_of_ne_zero (Nat.ne_of_gt (Nat.zero_lt_of_lt h'))
      cases cs with
      | nil => exact Keeps.ok [] (Nat.le_refl _)
      | cons c cs =>
          rw [List.length_cons] at h h'
          have hlength := f.length_skip_le cs
          by_cases hc : c = '-'
          · subst hc
            refine Keeps.skipped (fun rest => .ok (leadingLiterals f _ fuel' rest)) ?_ ?_
            · exact (ih (by omega) (by omega) _).of_le (Nat.le_succ_of_le hlength)
            · cases fuel' <;> exact Keeps.taken rfl
          · rw [List.cons_append, leadingLiterals_cons_of_ne f hc, leadingLiterals_cons_of_ne f hc]
            exact Keeps.ok (c :: cs) (Nat.le_refl _)

/-- A closing bracket in the first place stands for itself. -/
def firstBracket (p : CharClass × List Char) : CharClass × List Char :=
  match p.1, p.2 with
  | .empty, ']' :: rest => (.single ']', f.skip rest)
  | set, rest => (set, rest)

/-- A class with what it begins with goes on. -/
def opened (negated : Bool) (p : CharClass × List Char) :
    Reading ((Bool × CharClass) × List Char) :=
  if p.2.isEmpty then .error .badClass else .ok ((negated, p.1), p.2)

/-- The start of a class behind its bracket and its negation. -/
def openRest (negated : Bool) (cs : List Char) : Reading ((Bool × CharClass) × List Char) :=
  opened negated (firstBracket f (leadingLiterals f .empty (cs.length + 1) cs))

/-- The start of a class, split where it looks for the negation. -/
theorem openBracket_eq (cs : List Char) : openBracket f cs =
    if (f.skip cs).head? = some '^' then openRest f true (f.skip (f.skip cs).tail)
    else openRest f false (f.skip cs) := by
  rw [openBracket]
  dsimp only
  generalize f.skip cs = ds
  cases ds with
  | nil => rfl
  | cons c ds =>
      by_cases hc : c = '^'
      · subst hc
        rfl
      · rw [if_neg (show ¬ (c :: ds).head? = some '^' by simpa using hc)]
        simp only [List.cons.injEq, hc, false_and, imp_self, implies_true]
        rfl

/-- A class that begins with the closing is not refused yet, as one that begins with nothing is. -/
theorem keeps_opened {n : Nat} {rest : List Char} (negated : Bool) (set : CharClass)
    (h : rest.length ≤ n) : Keeps n (fun _ => Reached) (opened negated (set, rest ++ closing))
      (opened negated (set, rest)) := by
  cases rest with
  | nil => exact Keeps.taken (.inl rfl)
  | cons c rest => exact Keeps.ok _ h

theorem keeps_firstBracket {n : Nat} {rest : List Char} (set : CharClass) (h : rest.length ≤ n) :
    Keeps n (fun _ rest => rest = []) (.ok (firstBracket f (set, rest ++ closing)))
      (.ok (firstBracket f (set, rest))) := by
  by_cases hfirst : set = .empty ∧ rest.head? = some ']'
  · obtain ⟨rfl, hhead⟩ := hfirst
    obtain ⟨rest, rfl⟩ := List.head?_eq_some_iff.mp hhead
    exact Keeps.skip (Nat.le_of_succ_le h) rfl
  · have hsame : ∀ tail, tail.head? ≠ some ']' →
        firstBracket f (set, rest ++ tail) = (set, rest ++ tail) := by
      intro tail htail
      unfold firstBracket
      dsimp only
      split
      · rename_i heq
        cases rest with
        | nil => exact absurd (by rw [← List.nil_append tail, heq]; rfl) htail
        | cons c rest =>
            obtain ⟨rfl, -⟩ := List.cons_eq_cons.mp heq
            exact absurd ⟨rfl, rfl⟩ hfirst
      · rfl
    have hshort := hsame [] (by decide)
    rw [List.append_nil] at hshort
    rw [hsame closing (by decide), hshort]
    exact Keeps.ok _ h

/-- The first literals are read in two steps, which may both come to the end of the input. -/
theorem keeps_openRest (negated : Bool) (cs : List Char) :
    Keeps cs.length (fun _ => Reached) (openRest f negated (cs ++ closing))
      (openRest f negated cs) := by
  have hleading : Keeps cs.length (fun _ rest => rest = [])
      (.ok (leadingLiterals f .empty ((cs ++ closing).length + 1) (cs ++ closing)))
      (.ok (leadingLiterals f .empty (cs.length + 1) cs)) :=
    keeps_leadingLiterals f (Nat.lt_succ_self _) (by rw [List.length_append]; omega) .empty
  have hfirst : Keeps cs.length (fun _ rest => rest = [])
      (.ok (firstBracket f (leadingLiterals f .empty ((cs ++ closing).length + 1) (cs ++ closing))))
      (.ok (firstBracket f (leadingLiterals f .empty (cs.length + 1) cs))) := by
    refine Keeps.bind (k := fun p => .ok (firstBracket f p))
      (l := fun p => .ok (firstBracket f p)) hleading ?_ ?_
    · intro set rest hrest
      exact keeps_firstBracket f set hrest
    · rintro set rest rfl short
      cases set <;> exact Keeps.taken rfl
  refine Keeps.bind (k := opened negated) (l := opened negated) hfirst ?_ ?_
  · intro set rest hrest
    exact keeps_opened negated set hrest
  · rintro set rest rfl short
    exact Keeps.error

/-- The start of a class is read before the closing as without it. -/
theorem keeps_openBracket (cs : List Char) :
    Keeps cs.length (fun _ => Reached) (openBracket f (cs ++ closing)) (openBracket f cs) := by
  have hlength := f.length_skip_le cs
  rw [openBracket_eq, openBracket_eq]
  obtain h | h := f.skip_append cs
  · rw [h]
    generalize f.skip cs = ds at hlength
    cases ds with
    | nil => exact (keeps_openRest f false []).of_le hlength
    | cons c ds =>
        have hrest := f.length_skip_le ds
        rw [List.length_cons] at hlength
        rw [List.cons_append, List.head?_cons, List.head?_cons, List.tail_cons, List.tail_cons]
        split
        · refine Keeps.skipped (openRest f true) ?_ ?_
          · exact (keeps_openRest f true _).of_le (by omega)
          · exact Keeps.error
        · exact (keeps_openRest f false (c :: ds)).of_le hlength
  · rw [h]
    exact Keeps.error

/-! ## Named classes -/

/-- A sign that the closing does not hold is found before it or not at all. -/
theorem cutAt?_append {c : Char} (hc : c ∉ closing) (cs : List Char) :
    Text.cutAt? c (cs ++ closing) = (Text.cutAt? c cs).map fun (a, b) => (a, b ++ closing) := by
  induction cs with
  | nil =>
      have hne : ∀ d ∈ closing, ¬ d = c := by
        rintro d hd rfl
        exact hc hd
      rw [List.nil_append, closing, Text.cutAt?, Text.cutAt?, Text.cutAt?,
        if_neg (hne _ (by decide)), if_neg (hne _ (by decide))]
      rfl
  | cons d cs ih =>
      rw [List.cons_append, Text.cutAt?, Text.cutAt?]
      split
      · rfl
      · rw [ih]
        cases Text.cutAt? c cs <;> rfl

theorem length_cutAt? {c : Char} {cs a b : List Char} (h : Text.cutAt? c cs = some (a, b)) :
    b.length < cs.length := by
  induction cs generalizing a with
  | nil => cases h
  | cons d cs ih =>
      rw [Text.cutAt?] at h
      split at h
      · cases h
        exact Nat.lt_succ_self _
      · obtain ⟨⟨a, b⟩, hcut, hpair⟩ := Option.map_eq_some_iff.mp h
        cases hpair
        exact Nat.lt_succ_of_lt (ih hcut)

/-- A named class behind its colon and its negation. -/
def posixName? (negated : Bool) (cs : List Char) : Option (CharClass × List Char) :=
  match Text.cutAt? ':' cs with
  | some (name, ']' :: rest) =>
    (posixClass? (String.ofList name)).map fun s => (if negated then .compl s else s, rest)
  | _ => none

/-- A named class, split where it looks for the negation. -/
theorem posix?_colon (cs : List Char) : posix? ('[' :: ':' :: cs) =
    if cs.head? = some '^' then posixName? true cs.tail else posixName? false cs := by
  cases cs with
  | nil => rfl
  | cons c cs =>
      by_cases hc : c = '^'
      · subst hc
        rfl
      · rw [if_neg (show ¬ (c :: cs).head? = some '^' by simpa using hc)]
        simp only [posix?, List.cons.injEq, hc, false_and, imp_self, implies_true]
        rfl

theorem posix?_of_ne {cs : List Char} (h : ∀ rest, cs ≠ '[' :: ':' :: rest) : posix? cs = none := by
  unfold posix?
  split
  · rename_i rest
    exact absurd rfl (h rest)
  · rfl

theorem posixName?_append (negated : Bool) (cs : List Char) : posixName? negated (cs ++ closing) =
    (posixName? negated cs).map fun (s, rest) => (s, rest ++ closing) := by
  unfold posixName?
  rw [cutAt?_append (by decide)]
  rcases Text.cutAt? ':' cs with _ | ⟨name, _ | ⟨c, rest⟩⟩
  · rfl
  · rfl
  · by_cases hc : c = ']'
    · subst hc
      simp only [Option.map_some, List.cons_append, Option.map_map]
      rfl
    · simp [hc]

/-- A named class is looked for before the closing only: its last signs are none of the closing. -/
theorem posix?_append (cs : List Char) :
    posix? (cs ++ closing) = (posix? cs).map fun (s, rest) => (s, rest ++ closing) := by
  by_cases h : ∃ rest, cs = '[' :: ':' :: rest
  · obtain ⟨cs, rfl⟩ := h
    rw [List.cons_append, List.cons_append, posix?_colon, posix?_colon]
    cases cs with
    | nil => exact posixName?_append false []
    | cons c cs =>
        rw [List.cons_append, List.head?_cons, List.head?_cons, List.tail_cons, List.tail_cons]
        split
        · exact posixName?_append true cs
        · exact posixName?_append false (c :: cs)
  · rw [not_exists] at h
    rw [posix?_of_ne h, posix?_of_ne]
    · rfl
    · intro rest heq
      match cs, heq with
      | [c], heq => simp [closing] at heq
      | c :: d :: cs, heq =>
          obtain ⟨rfl, hrest⟩ := List.cons_eq_cons.mp heq
          obtain ⟨rfl, -⟩ := List.cons_eq_cons.mp hrest
          exact h cs rfl

theorem length_posixName? {negated : Bool} {cs rest : List Char} {s : CharClass}
    (h : posixName? negated cs = some (s, rest)) : rest.length < cs.length := by
  unfold posixName? at h
  split at h
  · rename_i name after heq
    obtain ⟨set, -, hpair⟩ := Option.map_eq_some_iff.mp h
    cases hpair
    exact Nat.lt_of_succ_lt (length_cutAt? heq)
  · cases h

/-- A named class takes its bracket at least, which the rounds of the loop rely on. -/
theorem length_posix? {cs rest : List Char} {s : CharClass}
    (h : posix? ('[' :: cs) = some (s, rest)) : rest.length ≤ cs.length := by
  by_cases hcs : ∃ ds, cs = ':' :: ds
  · obtain ⟨ds, rfl⟩ := hcs
    rw [posix?_colon] at h
    split at h
    · have htail := length_posixName? h
      rw [List.length_tail] at htail
      rw [List.length_cons]
      omega
    · exact Nat.le_of_lt (Nat.lt_succ_of_lt (length_posixName? h))
  · rw [posix?_of_ne] at h
    · cases h
    · intro ds heq
      exact hcs ⟨ds, (List.cons_eq_cons.mp heq).2⟩

/-! ## Characters and ranges -/

/-- A character stands for itself, so only an escape may come to the closing. -/
theorem keeps_classAtom (c : Char) (cs : List Char) :
    Keeps cs.length (AfterEscape f) (classAtom f (c :: cs ++ closing)) (classAtom f (c :: cs)) := by
  by_cases hc : c = '\\'
  · subst hc
    exact keeps_escape f cs
  · simp only [List.cons_append, classAtom]
    exact Keeps.skip (Nat.le_refl _) (.inl (.inl rfl))

/-- An item that is no range. -/
def itemAlone (rest : List Char) : Atom → Reading (CharClass × List Char)
  | .char c => if !f.unicode && 0x7F < c.toNat then .error .notText else .ok (.single c, rest)
  | .set s => .ok (s, rest)
  | .assertion _ => .error .badClass

/-- The item that begins with a character or an escape. -/
def itemFrom (first : Atom) (rest : List Char) : Reading (CharClass × List Char) :=
  match rest with
  | [] => .error .badClass
  | '-' :: more =>
    match f.skip more with
    | [] => .error .badClass
    | ']' :: _ | '-' :: _ => itemAlone f rest first
    | more => do
      let (last, rest) ← classAtom f more
      match first, last with
      | .char a, .char b =>
        if b < a then .error .badClass
        else if !f.unicode && 0x7F < b.toNat then .error .notText
        else .ok (.range a.toNat b.toNat, rest)
      | _, _ => .error .badClass
  | _ => itemAlone f rest first

/-- What the first character of an item is, and what is behind it, are looked at in turn. -/
theorem classItem_eq (cs : List Char) :
    classItem f cs = classAtom f cs >>= fun (first, rest) => itemFrom f first (f.skip rest) := by
  rfl

theorem keeps_itemAlone {n : Nat} (first : Atom) (rest : List Char) (h : rest.length ≤ n) :
    Keeps n (fun _ => Reached) (itemAlone f (rest ++ closing) first) (itemAlone f rest first) := by
  cases first with
  | char c =>
      rw [itemAlone, itemAlone]
      split
      · exact Keeps.error
      · exact Keeps.ok _ h
  | set s => exact Keeps.ok _ h
  | assertion a => exact Keeps.error

theorem keeps_itemAlone_reached {n : Nat} {rest : List Char}
    {short : Reading (CharClass × List Char)} (first : Atom) (h : Reached rest) :
    Keeps n (fun _ => Reached) (itemAlone f rest first) short := by
  cases first with
  | char c =>
      rw [itemAlone]
      split
      · exact Keeps.error
      · exact Keeps.taken h
  | set s => exact Keeps.taken h
  | assertion a => exact Keeps.error

/-- A range up to its last character. -/
def rangeFrom (first : Atom) (p : Atom × List Char) : Reading (CharClass × List Char) :=
  match first, p.1 with
  | .char a, .char b =>
    if b < a then .error .badClass
    else if !f.unicode && 0x7F < b.toNat then .error .notText
    else .ok (.range a.toNat b.toNat, p.2)
  | _, _ => .error .badClass

/-- A hyphen makes a range unless the class or an operator follows it. -/
theorem itemFrom_hyphen {first : Atom} {more ds : List Char} {d : Char}
    (h : f.skip more = d :: ds) :
    itemFrom f first ('-' :: more) = if d = ']' ∨ d = '-' then itemAlone f ('-' :: more) first
      else classAtom f (d :: ds) >>= rangeFrom f first := by
  rw [itemFrom, h]
  by_cases hbracket : d = ']'
  · subst hbracket
    rfl
  · by_cases hhyphen : d = '-'
    · subst hhyphen
      rfl
    · rw [if_neg (by simp [hbracket, hhyphen])]
      simp only [List.cons.injEq, hbracket, hhyphen, false_and, imp_self, implies_true]
      rfl

theorem keeps_rangeFrom {n : Nat} {rest : List Char} (first last : Atom) (h : rest.length ≤ n) :
    Keeps n (fun _ => Reached) (rangeFrom f first (last, rest ++ closing))
      (rangeFrom f first (last, rest)) := by
  unfold rangeFrom
  dsimp only
  split
  · split
    · exact Keeps.error
    · split
      · exact Keeps.error
      · exact Keeps.ok _ h
  · exact Keeps.error

/-- A range may end with a sign of the closing, but not with an assertion. -/
theorem keeps_rangeFrom_taken {n : Nat} {rest : List Char} {short : Reading (CharClass × List Char)}
    (first last : Atom) (h : AfterEscape f last rest) :
    Keeps n (fun _ => Reached) (rangeFrom f first (last, rest)) short := by
  unfold rangeFrom
  dsimp only
  split
  · split
    · exact Keeps.error
    · split
      · exact Keeps.error
      · rcases h with h | ⟨x, more, hassertion, -⟩
        · exact Keeps.taken (.inr h)
        · cases hassertion
  · exact Keeps.error

/-- What stands behind the first character of an item is read before the closing as without it. -/
theorem keeps_itemFrom (first : Atom) (rest : List Char) :
    Keeps rest.length (fun _ => Reached) (itemFrom f first (rest ++ closing))
      (itemFrom f first rest) := by
  cases rest with
  | nil => exact keeps_itemAlone_reached f first (.inl rfl)
  | cons c rest =>
      by_cases hc : c = '-'
      · subst hc
        have hlength := f.length_skip_le rest
        obtain h | h := f.skip_append rest
        · cases hds : f.skip rest with
          | nil =>
              -- the hyphen is the last character, so the range ends with the parenthesis
              rw [hds] at h
              rw [List.cons_append, itemFrom_hyphen f h, if_neg (by decide)]
              refine keeps_rangeFrom_taken f first (.char ')') (.inl (.inr ?_))
              exact Flags.skip_reached (.inr (.inr rfl))
          | cons d ds =>
              rw [hds] at h hlength
              rw [List.cons_append, itemFrom_hyphen f h, itemFrom_hyphen f hds]
              split
              · exact keeps_itemAlone f first ('-' :: rest) (Nat.le_refl _)
              · refine Keeps.bind ((keeps_classAtom f d ds).of_le (m := rest.length + 1) ?_) ?_ ?_
                · exact Nat.le_succ_of_le (Nat.le_of_succ_le hlength)
                · intro last more hmore
                  exact keeps_rangeFrom f first last hmore
                · intro last more hmore short
                  exact keeps_rangeFrom_taken f first last hmore
        · rw [List.cons_append, itemFrom, h]
          exact Keeps.error
      · simp only [List.cons_append, itemFrom, List.cons.injEq, hc, false_and, imp_self,
          implies_true]
        exact keeps_itemAlone f first (c :: rest) (Nat.le_refl _)

/--
An item of a class is read before the closing as without it. An escape may take the parenthesis of
the closing for its character, and what it leaves then makes no range.
-/
theorem keeps_classItem (c : Char) (cs : List Char) :
    Keeps cs.length (fun _ => Reached) (classItem f (c :: cs ++ closing))
      (classItem f (c :: cs)) := by
  rw [classItem_eq, classItem_eq]
  refine Keeps.bind (keeps_classAtom f c cs) ?_ ?_
  · intro first rest hrest
    refine Keeps.skipped (itemFrom f first) ?_ ?_
    · exact (keeps_itemFrom f first _).of_le (Nat.le_trans (f.length_skip_le rest) hrest)
    · exact Keeps.error
  · intro first rest hrest short
    rcases hrest with (rfl | rfl) | ⟨x, more, rfl, rfl, -⟩
    · dsimp only
      rw [Flags.skip_reached (.inr (.inl rfl))]
      exact Keeps.error
    · dsimp only
      rw [Flags.skip_reached (.inr (.inr rfl))]
      exact keeps_itemAlone_reached f first (.inr (.inr rfl))
    · dsimp only
      rw [Flags.skip_cons (by decide) (by decide)]
      exact Keeps.error

/-! ## Rounds of the loop -/

/-- The operator that two equal signs write. -/
def operatorOf? : Char → Option SetOp
  | '&' => some .inter
  | '-' => some .diff
  | '~' => some .symmetricDiff
  | _ => none

section

variable {cs ds : List Char} {c : Char} (fuel : Nat) (stack : List Bracket) (set : CharClass)

/-- A round that meets an operator. -/
theorem classLoop_operator {op : SetOp} (h : f.skip cs = c :: c :: ds)
    (hop : operatorOf? c = some op) : classLoop f (fuel + 1) stack set cs =
      classLoop f fuel (.operator op (closeOperator f set stack).1 :: (closeOperator f set stack).2)
        .empty ds := by
  unfold operatorOf? at hop
  rw [classLoop, h]
  split at hop <;> cases hop <;> rfl

/-- A round that meets a character, an escape or a range. -/
theorem classLoop_item (h : f.skip cs = c :: ds) (hclose : c ≠ ']') (hopen : c ≠ '[')
    (hop : operatorOf? c = none ∨ ds.head? ≠ some c) : classLoop f (fuel + 1) stack set cs =
      classItem f (c :: ds) >>= fun (s, rest) => classLoop f fuel stack (.union set s) rest := by
  rw [classLoop, h]
  split
  case h_1 heq => cases heq
  case h_2 heq => exact absurd (List.cons_eq_cons.mp heq).1 hclose
  case h_3 heq => exact absurd (List.cons_eq_cons.mp heq).1 hopen
  case h_7 => cases classItem f (c :: ds) <;> rfl
  all_goals
    rename_i heq
    obtain ⟨rfl, rfl⟩ := List.cons_eq_cons.mp heq
    exact absurd hop (by simp [operatorOf?])

theorem classItem_last : classItem f ['$'] = .error .badClass := by
  show itemFrom f (.char '$') (f.skip (f.skip [])) = .error .badClass
  rw [Flags.skip_reached (.inr (.inl rfl)), Flags.skip_reached (.inr (.inl rfl))]
  rfl

/-- The parenthesis of the closing is read as an item. -/
theorem classItem_closing : classItem f closing = .ok (.single ')', ['$']) := by
  show itemFrom f (.char ')') (f.skip (f.skip ['$'])) = .ok (.single ')', ['$'])
  rw [Flags.skip_reached (.inr (.inr rfl)), Flags.skip_reached (.inr (.inr rfl))]
  show (if !f.unicode && false then Except.error Fault.notText
    else .ok (CharClass.single ')', ['$'])) = .ok (.single ')', ['$'])
  rw [Bool.and_false, if_neg Bool.false_ne_true]

/-- No bracket closes in what is left of a closing. -/
theorem classLoop_reached {rest : List Char} (h : Reached rest) :
    ∃ e, classLoop f fuel stack set rest = .error e := by
  have hlast : ∀ fuel set, ∃ e, classLoop f fuel stack set ['$'] = .error e := by
    intro fuel set
    cases fuel with
    | zero => exact ⟨_, rfl⟩
    | succ fuel =>
        rw [classLoop_item f fuel stack set (Flags.skip_reached (.inr (.inr rfl))) (by decide)
          (by decide) (.inl rfl), classItem_last]
        exact ⟨_, rfl⟩
  cases fuel with
  | zero => exact ⟨_, rfl⟩
  | succ fuel =>
      rcases h with rfl | rfl | rfl
      · have hskip : f.skip closing = ')' :: ['$'] := Flags.skip_reached (.inl rfl)
        rw [classLoop_item f fuel stack set hskip (by decide) (by decide) (.inl rfl), ← closing,
          classItem_closing]
        exact hlast fuel _
      · rw [classLoop, Flags.skip_reached (.inr (.inl rfl))]
        exact ⟨_, rfl⟩
      · exact hlast (fuel + 1) set

theorem classLoop_named {s : CharClass} {rest : List Char} (h : f.skip cs = '[' :: ds)
    (hname : posix? ('[' :: ds) = some (s, rest)) :
    classLoop f (fuel + 1) stack set cs = classLoop f fuel stack (.union set s) rest := by
  rw [classLoop, h]
  simp only [hname]

/-- A round that meets a class within the class. -/
theorem classLoop_open (h : f.skip cs = '[' :: ds) (hname : posix? ('[' :: ds) = none) :
    classLoop f (fuel + 1) stack set cs = openBracket f ds >>= fun (p, rest) =>
      classLoop f fuel (.opened p.1 set :: stack) p.2 rest := by
  rw [classLoop, h]
  simp only [hname]
  cases openBracket f ds <;> rfl

end

/-- Behind one character the next sign is none of the closing, unless that is a parenthesis. -/
theorem operatorOf?_append {c : Char} {ds : List Char}
    (h : operatorOf? c = none ∨ ds.head? ≠ some c) :
    operatorOf? c = none ∨ (ds ++ closing).head? ≠ some c := by
  cases ds with
  | nil =>
      by_cases hc : c = ')'
      · subst hc
        exact .inl rfl
      · exact .inr fun hhead => hc (Option.some.inj hhead).symm
  | cons d ds => exact h

/-! One round with `n` characters left at most, `hgo` being what is known of the rounds after it. -/

section

variable {n fuel fuel' : Nat}
  (hgo : ∀ stack set rest, rest.length ≤ n → Keeps n (fun _ => Taken)
    (classLoop f fuel' stack set (rest ++ closing)) (classLoop f fuel stack set rest))
  (stack : List Bracket) (set : CharClass) {long short ds : List Char} {c : Char}
  (hlong : f.skip long = c :: (ds ++ closing)) (hshort : f.skip short = c :: ds)
  (hn : ds.length ≤ n)

include hgo hlong hshort hn

theorem keeps_classLoop_close (hc : c = ']') : Keeps n (fun _ => Taken)
    (classLoop f (fuel' + 1) stack set long) (classLoop f (fuel + 1) stack set short) := by
  subst hc
  rw [classLoop, hlong, classLoop, hshort]
  generalize closeOperator f set stack = p
  rcases p with ⟨inner, _ | ⟨⟨negated, outer⟩ | _, stack⟩⟩
  · exact Keeps.error
  · dsimp only
    cases f.checkText (if negated then (f.foldCase inner).compl else f.foldCase inner) with
    | error e => exact Keeps.error
    | ok inner =>
        cases stack with
        | nil => exact Keeps.ok ds hn
        | cons b stack => exact hgo (b :: stack) _ ds hn
  · exact Keeps.error

theorem keeps_classLoop_open (hc : c = '[') : Keeps n (fun _ => Taken)
    (classLoop f (fuel' + 1) stack set long) (classLoop f (fuel + 1) stack set short) := by
  subst hc
  have hname := posix?_append ('[' :: ds)
  rw [List.cons_append] at hname
  cases hposix : posix? ('[' :: ds) with
  | none =>
      rw [hposix] at hname
      rw [classLoop_open f _ _ _ hlong hname, classLoop_open f _ _ _ hshort hposix]
      refine Keeps.bind (keeps_openBracket f ds) ?_ ?_
      · intro p rest hrest
        exact hgo _ _ rest (Nat.le_trans hrest hn)
      · intro p rest hrest short
        obtain ⟨e, he⟩ := classLoop_reached f fuel' (.opened p.1 set :: stack) p.2 hrest
        exact Keeps.of_error he
  | some p =>
      obtain ⟨s, rest⟩ := p
      rw [hposix] at hname
      rw [classLoop_named f _ _ _ hlong hname, classLoop_named f _ _ _ hshort hposix]
      exact hgo _ _ rest (Nat.le_trans (length_posix? hposix) hn)

theorem keeps_classLoop_item (hclose : c ≠ ']') (hopen : c ≠ '[')
    (hop : operatorOf? c = none ∨ ds.head? ≠ some c) : Keeps n (fun _ => Taken)
    (classLoop f (fuel' + 1) stack set long) (classLoop f (fuel + 1) stack set short) := by
  rw [classLoop_item f _ _ _ hlong hclose hopen (operatorOf?_append hop),
    classLoop_item f _ _ _ hshort hclose hopen hop]
  refine Keeps.bind (keeps_classItem f c ds) ?_ ?_
  · intro s rest hrest
    exact hgo _ _ rest (Nat.le_trans hrest hn)
  · intro s rest hrest short
    obtain ⟨e, he⟩ := classLoop_reached f fuel' stack (.union set s) hrest
    exact Keeps.of_error he

end

/-- The rest of a class ends before the closing. -/
theorem keeps_classLoop {fuel fuel' : Nat} {cs : List Char} (h : cs.length < fuel)
    (h' : cs.length < fuel') (stack : List Bracket) (set : CharClass) :
    Keeps cs.length (fun _ => Taken) (classLoop f fuel' stack set (cs ++ closing))
      (classLoop f fuel stack set cs) := by
  induction fuel generalizing fuel' cs stack set with
  | zero => omega
  | succ fuel ih =>
      obtain ⟨fuel', rfl⟩ := Nat.exists_eq_succ_of_ne_zero (Nat.ne_of_gt (Nat.zero_lt_of_lt h'))
      have hlength := f.length_skip_le cs
      obtain hlong | hlong := f.skip_append cs
      · cases hshort : f.skip cs with
        | nil =>
            rw [hshort] at hlong
            obtain ⟨e, he⟩ := classLoop_reached f (fuel' + 1) stack set (.inl rfl)
            rw [classLoop, Flags.skip_reached (.inl rfl)] at he
            rw [classLoop, hlong]
            exact Keeps.of_error he
        | cons c ds =>
            rw [hshort] at hlong hlength
            rw [List.length_cons] at hlength
            rw [List.cons_append] at hlong
            have hn := Nat.le_of_succ_le hlength
            have hgo : ∀ stack set rest, rest.length ≤ ds.length → Keeps ds.length (fun _ => Taken)
                (classLoop f fuel' stack set (rest ++ closing)) (classLoop f fuel stack set rest) :=
              fun stack set rest hrest => (ih (by omega) (by omega) stack set).of_le hrest
            by_cases hclose : c = ']'
            · exact (keeps_classLoop_close f hgo _ _ hlong hshort (Nat.le_refl _) hclose).of_le hn
            by_cases hopen : c = '['
            · exact (keeps_classLoop_open f hgo _ _ hlong hshort (Nat.le_refl _) hopen).of_le hn
            by_cases hop : ∃ op, operatorOf? c = some op ∧ ds.head? = some c
            · obtain ⟨op, hop, hhead⟩ := hop
              obtain ⟨ds, rfl⟩ := List.head?_eq_some_iff.mp hhead
              rw [List.length_cons] at hlength
              rw [List.cons_append] at hlong
              rw [classLoop_operator f _ _ _ hlong hop, classLoop_operator f _ _ _ hshort hop]
              exact (ih (by omega) (by omega) _ _).of_le (by omega)
            have hitem : operatorOf? c = none ∨ ds.head? ≠ some c := by
              cases hsign : operatorOf? c with
              | none => exact .inl rfl
              | some op => exact .inr fun hhead => hop ⟨op, hsign, hhead⟩
            exact (keeps_classLoop_item f hgo _ _ hlong hshort (Nat.le_refl _) hclose hopen
              hitem).of_le hn
      · rw [classLoop, hlong]
        exact Keeps.error

/-- **A bracketed class is read before the closing as without it.** -/
theorem keeps_bracketed (cs : List Char) :
    Keeps cs.length (fun _ => Taken) (bracketed f (cs ++ closing)) (bracketed f cs) := by
  unfold bracketed
  refine Keeps.bind (keeps_openBracket f cs) ?_ ?_
  · intro p rest hrest
    have hclass : Keeps rest.length (fun _ => Taken)
        (classLoop f ((cs ++ closing).length + 1) [.opened p.1 .empty] p.2 (rest ++ closing))
        (classLoop f (cs.length + 1) [.opened p.1 .empty] p.2 rest) :=
      keeps_classLoop f (by omega) (by rw [List.length_append]; omega) _ _
    refine Keeps.bind (hclass.of_le hrest) ?_ ?_
    · intro set rest hrest
      exact Keeps.ok rest hrest
    · intro set rest hrest short
      exact Keeps.taken hrest
  · intro p rest hrest short
    obtain ⟨e, he⟩ :=
      classLoop_reached f ((cs ++ closing).length + 1) [.opened p.1 .empty] p.2 hrest
    dsimp only
    rw [he]
    exact Keeps.error

end

end TreeEdit.Regex
