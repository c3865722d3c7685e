import TreeEdit.Pattern.Basic
import TreeEdit.Proofs.EnclosedClasses
import TreeEdit.Proofs.EnclosedGroups
import TreeEdit.Proofs.FallibleSteps

/-!
# Segments match whole keys

A key's segment is compiled with anchors around its text, so that it matches whole keys only. The
text is not compiled alone, though: it is put between `^(?:` and `)$`, and the two together are
read. `Regex.parse_of_anchored` says what comes of it. The outcome is the expression of the text
alone, between the anchors, with one exception: a text that closes a group which it has not opened
is no expression, but may become one in that place, because it closes the group of the anchors.

The reader is followed through both texts at once (`Regex.encloses_loop`), with one more group open
around those of the text. What reads single characters, classes and groups comes from the modules
before this one.
-/

namespace TreeEdit

namespace Regex

/-! ## Runs of the reader -/

/-- The expression that holds the whole of a text against another one. -/
def enclosed (e : Regex) : Regex := .seq (.assert .startText) (.seq e (.assert .endText))

/--
An expression that is read between the anchors is the one that is read without them, unless that
closes a group that it has not opened.
-/
def Encloses (long short : Except Fault Regex) : Prop :=
  ∀ r, long = .ok r → short = .error .unopenedGroup ∨ ∃ e, short = .ok e ∧ r = enclosed e

namespace Encloses

theorem error {e : Fault} {short : Except Fault Regex} : Encloses (.error e) short := by
  intro r h
  cases h

theorem of_error {e : Fault} {long short : Except Fault Regex} (h : long = .error e) :
    Encloses long short := by
  rw [h]
  exact error

theorem bind {α : Type} {n : Nat} {slack : α → List Char → Prop}
    {long short : Reading (α × List Char)} {k l : α × List Char → Except Fault Regex}
    (h : Keeps n slack long short)
    (hk : ∀ a rest, rest.length ≤ n → Encloses (k (a, rest ++ closing)) (l (a, rest)))
    (htaken : ∀ a rest, slack a rest → ∃ e, k (a, rest) = .error e) :
    Encloses (long >>= k) (short >>= l) := by
  cases long with
  | error e => exact error
  | ok p =>
      obtain ⟨a, rest⟩ := p
      obtain ⟨rest', rfl, hlength, rfl⟩ | hslack := h a rest rfl
      · exact hk a rest' hlength
      · obtain ⟨e, he⟩ := htaken a rest hslack
        exact of_error he

end Encloses

/-- The group around the text of a segment, after the first anchor. -/
def anchor : Group := ⟨[], [.expr (.assert .startText)], {}⟩

theorem dropLazy_append (cs : List Char) : dropLazy (cs ++ closing) = dropLazy cs ++ closing := by
  cases cs with
  | nil => rfl
  | cons c cs =>
      by_cases hc : c = '?'
      · subst hc
        rfl
      · simp [dropLazy, hc]

theorem length_dropLazy_le (cs : List Char) : (dropLazy cs).length ≤ cs.length := by
  unfold dropLazy
  split
  · exact Nat.le_succ _
  · exact Nat.le_refl _

/-! What the loop does with what a reader gives. -/

section

variable (fuel : Nat) (outer : List Group) (names : List String) (g : Group)

/-- The expression goes on behind a class, a character or a condition. -/
def afterPart (r : Regex) (rest : List Char) : Except Fault Regex :=
  loop fuel outer names { g with parts := .expr r :: g.parts } rest

/-- The expression goes on behind the start of a group, or behind flags. -/
def afterOpening : Opening × List Char → Except Fault Regex
  | (.flagsOnly flags, rest) =>
    loop fuel outer names { g with flags, parts := .nothing :: g.parts } rest
  | (.group flags, rest) => loop fuel (g :: outer) names ⟨[], [], flags⟩ rest
  | (.named name, rest) =>
    if names.contains name then .error .badGroupName
    else loop fuel (g :: outer) (name :: names) ⟨[], [], g.flags⟩ rest

/-- The expression goes on behind an escape. -/
def afterEscape : Atom × List Char → Except Fault Regex
  | (.char c, rest) => afterPart fuel outer names g (literal g.flags c) rest
  | (.set s, rest) => afterPart fuel outer names g (.chars s) rest
  | (.assertion a, rest) => afterPart fuel outer names g (.assert a) rest

/-- The expression goes on behind a repetition. -/
def afterRepeated (least : Nat) (extra : Option Nat) (rest : List Char) : Except Fault Regex :=
  match repeatLast least extra g.parts with
  | .error e => .error e
  | .ok parts => loop fuel outer names { g with parts } (dropLazy rest)

/-- The expression goes on behind the bounds of a repetition. -/
def afterCounts (p : (Nat × Option Nat) × List Char) : Except Fault Regex :=
  match p.1.2 with
  | none => afterRepeated fuel outer names g p.1.1 none p.2
  | some m =>
    if m < p.1.1 then .error .badRepetition
    else afterRepeated fuel outer names g p.1.1 (some (m - p.1.1)) p.2

variable {cs ds : List Char}

theorem loop_open (h : g.flags.skip cs = '(' :: ds) :
    loop (fuel + 1) outer names g cs = opening g.flags ds >>= afterOpening fuel outer names g := by
  rw [loop, h]
  simp only
  rcases opening g.flags ds with e | ⟨_ | _ | _, rest⟩ <;> rfl

theorem loop_class (h : g.flags.skip cs = '[' :: ds) :
    loop (fuel + 1) outer names g cs =
      bracketed g.flags ds >>= fun (set, rest) =>
        afterPart fuel outer names g (.chars set) rest := by
  rw [loop, h]
  simp only
  cases bracketed g.flags ds <;> rfl

theorem loop_escape (h : g.flags.skip cs = '\\' :: ds) :
    loop (fuel + 1) outer names g cs = escape g.flags ds >>= afterEscape fuel outer names g := by
  rw [loop, h]
  simp only
  rcases escape g.flags ds with e | ⟨_ | _ | _, rest⟩ <;> rfl

theorem loop_counted (h : g.flags.skip cs = '\x7b' :: ds) :
    loop (fuel + 1) outer names g cs = if (repeatLast 0 none g.parts).isOk then
        counts g.flags ds >>= afterCounts fuel outer names g
      else .error .nothingToRepeat := by
  rw [loop, h]
  simp only
  split
  · rcases counts g.flags ds with e | ⟨⟨least, _ | m⟩, rest⟩ <;> rfl
  · rfl

end

/-- The last parenthesis closes the text's own group, if no other one is open. -/
theorem encloses_loop_closing {fuel : Nat} (h : 2 ≤ fuel) (outer : List Group)
    (names : List String) (g : Group) :
    Encloses (loop (fuel + 1) (outer ++ [anchor]) names g closing)
      (if outer.isEmpty then .ok g.close else .error .unclosedGroup) := by
  rw [loop, Flags.skip_reached (.inl rfl)]
  cases outer with
  | nil =>
      obtain ⟨fuel, rfl⟩ := Nat.exists_eq_add_of_le h
      intro r hr
      rw [Nat.add_comm] at hr
      cases hr
      exact .inr ⟨_, rfl, rfl⟩
  | cons parent outer =>
      obtain ⟨e, he⟩ := loop_taken (.inr rfl) fuel (List.append_ne_nil_of_right_ne_nil outer
        (List.cons_ne_nil anchor [])) names { parent with parts := .expr g.close :: parent.parts }
      exact Encloses.of_error he

/-! One round with `n` characters left at most, `hgo` being what is known of the rounds after it. -/

section

variable {n fuel fuel' : Nat}
  (hgo : ∀ outer names g rest, rest.length ≤ n →
    Encloses (loop fuel' (outer ++ [anchor]) names g (rest ++ closing))
      (loop fuel outer names g rest))
  (outer : List Group) (names : List String) (g : Group)

theorem exists_error_of_taken {rest : List Char} (h : Taken rest) :
    ∃ e, loop fuel' (outer ++ [anchor]) names g rest = .error e :=
  loop_taken h fuel' (List.append_ne_nil_of_right_ne_nil outer (List.cons_ne_nil anchor [])) names g

include hgo

theorem encloses_repeated (least : Nat) (extra : Option Nat) {rest : List Char}
    (hrest : rest.length ≤ n) :
    Encloses (afterRepeated fuel' (outer ++ [anchor]) names g least extra (rest ++ closing))
      (afterRepeated fuel outer names g least extra rest) := by
  unfold afterRepeated
  cases repeatLast least extra g.parts with
  | error e => exact Encloses.error
  | ok parts =>
      dsimp only
      rw [dropLazy_append]
      exact hgo _ _ _ _ (Nat.le_trans (length_dropLazy_le rest) hrest)

theorem encloses_opening {cs : List Char} (h : cs.length ≤ n) :
    Encloses (opening g.flags (cs ++ closing) >>= afterOpening fuel' (outer ++ [anchor]) names g)
      (opening g.flags cs >>= afterOpening fuel outer names g) := by
  refine Encloses.bind (keeps_opening g.flags cs) ?_ ?_
  · intro kind rest hrest
    have hn := Nat.le_trans hrest h
    cases kind with
    | group flags => exact hgo (g :: outer) _ _ _ hn
    | flagsOnly flags => exact hgo outer _ _ _ hn
    | named name =>
        simp only [afterOpening]
        split
        · exact Encloses.error
        · exact hgo (g :: outer) _ _ _ hn
  · intro kind rest hrest
    cases kind with
    | group flags => exact exists_error_of_taken (g :: outer) _ _ hrest
    | flagsOnly flags => exact exists_error_of_taken outer _ _ hrest
    | named name =>
        simp only [afterOpening]
        split
        · exact ⟨_, rfl⟩
        · exact exists_error_of_taken (g :: outer) _ _ hrest

theorem encloses_class {cs : List Char} (h : cs.length ≤ n) :
    Encloses
      (bracketed g.flags (cs ++ closing) >>= fun (set, rest) =>
        afterPart fuel' (outer ++ [anchor]) names g (.chars set) rest)
      (bracketed g.flags cs >>= fun (set, rest) =>
        afterPart fuel outer names g (.chars set) rest) := by
  refine Encloses.bind (keeps_bracketed g.flags cs) ?_ ?_
  · intro set rest hrest
    exact hgo outer _ _ _ (Nat.le_trans hrest h)
  · intro set rest hrest
    exact exists_error_of_taken outer _ _ hrest

theorem encloses_escape {cs : List Char} (h : cs.length ≤ n) :
    Encloses (escape g.flags (cs ++ closing) >>= afterEscape fuel' (outer ++ [anchor]) names g)
      (escape g.flags cs >>= afterEscape fuel outer names g) := by
  refine Encloses.bind (keeps_escape g.flags cs) ?_ ?_
  · intro a rest hrest
    cases a <;> exact hgo outer _ _ _ (Nat.le_trans hrest h)
  · intro a rest hrest
    rcases hrest with htaken | ⟨x, more, rfl, rfl, hmore⟩
    · cases a <;> exact exists_error_of_taken outer _ _ htaken
    · show ∃ e, loop fuel' (outer ++ [anchor]) names
        { g with parts := .expr (.assert x) :: g.parts } ('\x7b' :: more) = .error e
      cases fuel' with
      | zero => exact ⟨_, rfl⟩
      | succ fuel' =>
          rw [loop_counted _ _ _ _ (Flags.skip_cons (by decide) (by decide) more),
            counts_closing hmore]
          exact ⟨_, rfl⟩

theorem encloses_counts {cs : List Char} (h : cs.length ≤ n) :
    Encloses (counts g.flags (cs ++ closing) >>= afterCounts fuel' (outer ++ [anchor]) names g)
      (counts g.flags cs >>= afterCounts fuel outer names g) := by
  refine Encloses.bind (keeps_counts g.flags cs) ?_ ?_
  · intro bounds rest hrest
    have hn := Nat.le_trans hrest h
    unfold afterCounts
    dsimp only
    split
    · exact encloses_repeated hgo outer names g _ _ hn
    · split
      · exact Encloses.error
      · exact encloses_repeated hgo outer names g _ _ hn
  · intro bounds rest hrest
    have hrepeated : ∀ least extra,
        ∃ e, afterRepeated fuel' (outer ++ [anchor]) names g least extra rest = .error e := by
      intro least extra
      have hlazy : dropLazy rest = rest := by
        rcases hrest with rfl | rfl <;> rfl
      unfold afterRepeated
      rw [hlazy]
      cases repeatLast least extra g.parts with
      | error e => exact ⟨e, rfl⟩
      | ok parts => exact exists_error_of_taken outer _ _ hrest
    unfold afterCounts
    dsimp only
    split
    · exact hrepeated _ _
    · split
      · exact ⟨_, rfl⟩
      · exact hrepeated _ _

/-- What needs no reader: signs of one character, and the characters that stand for themselves. -/
theorem encloses_sign {long short ds : List Char} {c : Char}
    (hlong : g.flags.skip long = c :: (ds ++ closing)) (hshort : g.flags.skip short = c :: ds)
    (hn : ds.length ≤ n) (hreads : c ∉ ['(', '[', '\x7b', '\\']) :
    Encloses (loop (fuel' + 1) (outer ++ [anchor]) names g long)
      (loop (fuel + 1) outer names g short) := by
  have hpart : ∀ r, Encloses (afterPart fuel' (outer ++ [anchor]) names g r (ds ++ closing))
      (afterPart fuel outer names g r ds) := fun r => hgo outer _ _ _ hn
  have hrepeated := fun least extra => encloses_repeated hgo outer names g least extra hn
  rw [loop, hlong, loop, hshort]
  split
  case h_1 heq => cases heq
  case h_14 heq =>
    obtain ⟨rfl, rfl⟩ := List.cons_eq_cons.mp heq
    simp only
    exact hpart _
  all_goals
    rename_i heq
    obtain ⟨rfl, rfl⟩ := List.cons_eq_cons.mp heq
  case h_3 =>
    -- without an open group of its own the text closes the one around it
    cases outer with
    | nil => exact fun _ _ => .inl rfl
    | cons parent outer => exact hgo outer _ _ _ hn
  case h_4 => exact hgo outer _ _ _ hn
  case h_6 => exact hrepeated 0 (some 1)
  case h_7 => exact hrepeated 0 none
  case h_8 => exact hrepeated 1 none
  case h_11 =>
    simp only
    cases dot g.flags with
    | error e => exact Encloses.error
    | ok r => exact hpart r
  case h_12 => exact hpart _
  case h_13 => exact hpart _
  all_goals exact absurd (by decide) hreads

theorem encloses_round {long short ds : List Char} {c : Char}
    (hlong : g.flags.skip long = c :: (ds ++ closing)) (hshort : g.flags.skip short = c :: ds)
    (hn : ds.length ≤ n) :
    Encloses (loop (fuel' + 1) (outer ++ [anchor]) names g long)
      (loop (fuel + 1) outer names g short) := by
  by_cases hreads : c ∈ ['(', '[', '\x7b', '\\']
  · simp only [List.mem_cons, List.not_mem_nil, or_false] at hreads
    rcases hreads with rfl | rfl | rfl | rfl
    · rw [loop_open _ _ _ _ hlong, loop_open _ _ _ _ hshort]
      exact encloses_opening hgo outer names g hn
    · rw [loop_class _ _ _ _ hlong, loop_class _ _ _ _ hshort]
      exact encloses_class hgo outer names g hn
    · rw [loop_counted _ _ _ _ hlong, loop_counted _ _ _ _ hshort]
      split
      · exact encloses_counts hgo outer names g hn
      · exact Encloses.error
    · rw [loop_escape _ _ _ _ hlong, loop_escape _ _ _ _ hshort]
      exact encloses_escape hgo outer names g hn
  · exact encloses_sign hgo outer names g hlong hshort hn hreads

end

/--
**The text of a segment is read in the group of the anchors as it is read alone.** The induction is
on the rounds of the run for the text alone; the other run has two more, for the closing.
-/
theorem encloses_loop {fuel fuel' : Nat} {cs : List Char} (h : cs.length < fuel)
    (h' : fuel + 2 ≤ fuel') (outer : List Group) (names : List String) (g : Group) :
    Encloses (loop fuel' (outer ++ [anchor]) names g (cs ++ closing))
      (loop fuel outer names g cs) := by
  induction fuel generalizing fuel' outer names g cs with
  | zero => omega
  | succ fuel ih =>
      obtain ⟨fuel', rfl⟩ := Nat.exists_eq_succ_of_ne_zero (by omega : fuel' ≠ 0)
      have hlength := g.flags.length_skip_le cs
      obtain hlong | hlong := g.flags.skip_append cs
      · cases hshort : g.flags.skip cs with
        | nil =>
            rw [hshort] at hlong
            have hfuel : 2 ≤ fuel' := by omega
            have hclose := encloses_loop_closing hfuel outer names g
            rw [loop, Flags.skip_reached (.inl rfl)] at hclose
            rw [loop, hlong, loop, hshort]
            exact hclose
        | cons c ds =>
            rw [hshort] at hlong hlength
            rw [List.length_cons] at hlength
            exact encloses_round
              (fun outer names g rest hrest => ih (by omega) (by omega) outer names g)
              outer names g hlong hshort (Nat.le_refl _)
      · rw [loop, hlong]
        exact Encloses.of_error (if_neg (by simp))

/-! ## Expressions for whole keys -/

/-- The first four characters of an expression for whole keys open the group around the text. -/
theorem parse_anchored_eq (text : String) : parse (Segment.anchored text) =
    loop (text.toList.length + 5) [anchor] [] ⟨[], [], {}⟩ (text.toList ++ closing) >>= fun r =>
      if maxSize < r.automatonSize then .error .tooLarge else .ok r := by
  have htext : (Segment.anchored text).toList =
      '^' :: '(' :: '?' :: ':' :: (text.toList ++ closing) := by
    simp [Segment.anchored, closing]
  have hopen : ∀ fuel cs, loop (fuel + 2) [] [] ⟨[], [], {}⟩ ('^' :: '(' :: '?' :: ':' :: cs) =
      loop fuel [anchor] [] ⟨[], [], {}⟩ cs := fun _ _ => rfl
  have hlength : ('^' :: '(' :: '?' :: ':' :: (text.toList ++ closing)).length + 1 =
      text.toList.length + 5 + 2 := by
    simp [closing]
  rw [parse, htext, hlength, hopen]

/--
An expression for whole keys is that of its text between the anchors, unless the text closes a
group that it has not opened.
-/
theorem parse_of_anchored {text : String} {r : Regex} (h : parse (Segment.anchored text) = .ok r) :
    parse text = .error .unopenedGroup ∨ ∃ e, parse text = .ok e ∧ r = enclosed e := by
  rw [parse_anchored_eq] at h
  have hloop : Encloses
      (loop (text.toList.length + 5) [anchor] [] ⟨[], [], {}⟩ (text.toList ++ closing))
      (loop (text.toList.length + 1) [] [] ⟨[], [], {}⟩ text.toList) :=
    encloses_loop (Nat.lt_succ_self _) (by omega) [] [] ⟨[], [], {}⟩
  unfold parse
  generalize loop (text.toList.length + 5) [anchor] [] ⟨[], [], {}⟩ (text.toList ++ closing) = long
    at h hloop
  cases long with
  | error e => cases h
  | ok r' =>
      change (if maxSize < r'.automatonSize then Except.error Fault.tooLarge
        else .ok r') = .ok r at h
      split at h
      · cases h
      · rename_i hle
        cases h
        obtain hunopened | ⟨e, he, rfl⟩ := hloop r rfl
        · exact .inl (by dsimp only; rw [hunopened]; rfl)
        · -- the anchors take no less than nothing, so the text alone is not too large either
          have hsize : ¬ maxSize < e.automatonSize := by
            simp only [automatonSize, enclosed, size] at hle ⊢
            omega
          refine .inr ⟨e, ?_, rfl⟩
          dsimp only
          rw [he]
          exact if_neg hsize

theorem fresh_nil_eq_nil_iff {is : List Nat} : fresh [] is = [] ↔ is = [] := by
  cases is with
  | nil => exact Iff.rfl
  | cons i is => simp [fresh]

theorem reach_eq_nil_iff {step : Nat → List Nat} {front : List Nat} :
    reach step front = [] ↔ ∀ i ∈ front, step i = [] := by
  rw [reach, fresh_nil_eq_nil_iff, List.flatMap_eq_nil_iff]

/-- A match of an enclosed expression begins at the start of the text and ends at its end. -/
theorem ends_enclosed_eq_nil_iff (chars : Array Char) (e : Regex) (i : Nat) :
    ends chars (enclosed e) i = [] ↔ (i = 0 → chars.size ∉ ends chars e 0) := by
  have hend : ∀ j, ends chars (.assert .endText) j = [] ↔ j ≠ chars.size := by
    intro j
    simp [ends, Assertion.holds]
  have hstart : ∀ j, j ∈ ends chars (.assert .startText) i ↔ i = 0 ∧ j = 0 := by
    intro j
    by_cases hi : i = 0
    · simp [ends, Assertion.holds, hi]
    · simp [ends, Assertion.holds, hi]
  rw [enclosed, ends, reach_eq_nil_iff]
  constructor
  · intro hall hi hmem
    have hnone := hall 0 ((hstart 0).mpr ⟨hi, rfl⟩)
    rw [ends, reach_eq_nil_iff] at hnone
    exact (hend _).mp (hnone _ hmem) rfl
  · intro hnot j hj
    obtain ⟨hi, rfl⟩ := (hstart j).mp hj
    rw [ends, reach_eq_nil_iff]
    rintro j hj
    rw [hend]
    rintro rfl
    exact hnot hi hj

/-- Between the anchors only the whole of a text matches. -/
theorem isMatch_enclosed (e : Regex) (text : String) :
    (enclosed e).isMatch text = e.matchesWhole text := by
  have hiff : (enclosed e).isMatch text = true ↔ e.matchesWhole text = true := by
    simp only [isMatch, matchesWhole, List.any_eq_true, List.mem_range, Bool.not_eq_true',
      List.isEmpty_eq_false_iff, ne_eq, ends_enclosed_eq_nil_iff, List.contains_iff_mem,
      Classical.not_imp, Classical.not_not]
    constructor
    · rintro ⟨i, -, -, hmem⟩
      exact hmem
    · intro hmem
      exact ⟨0, Nat.succ_pos _, rfl, hmem⟩
  exact Bool.eq_iff_iff.mpr hiff

end Regex

/-! ## The segments of a pattern -/

/-- The expression of a key's segment was read from its text between the anchors. -/
theorem Segment.parse_anchored_of_literal {text s : String} {r : Regex}
    (h : parse text = .ok (.literal s r)) : s = text ∧ Regex.parse (anchored s) = .ok r := by
  unfold parse at h
  split at h
  · cases h
  split at h
  · cases h
  split at h
  · cases h
  split at h
  · cases h
  split at h
  · rename_i heq
    cases h
    exact ⟨rfl, heq⟩
  · cases h

/-- The segments of a pattern are read from texts. -/
theorem Pattern.exists_parse_of_mem {raw delimiter : String} {p : Pattern}
    (h : compile raw delimiter = .ok p) {seg : Segment} (hseg : seg ∈ p.segments) :
    ∃ text, Segment.parse text = .ok seg := by
  unfold compile at h
  dsimp only at h
  split at h
  · cases h
  split at h
  · cases h
    cases hseg
  split at h
  · cases h
  split at h
  · rename_i segments hparse
    cases h
    have hread : List.Forall₂ (fun s x => (∃ text, Segment.parse text = .ok s) ∧ True) segments
        (Text.splitOn delimiter (Text.trim raw)) :=
      ((forall₂_of_mapM hparse).imp fun x s h => ⟨⟨x, h⟩, trivial⟩).flip
    exact ((List.forall₂_and_left _ _).mp hread).1 seg hseg
  · cases h

/--
**A key's segment matches whole keys only**, unless its text closes a group that it has not opened.
-/
theorem Pattern.matchesText_iff_matchesWhole {raw delimiter : String} {p : Pattern}
    (h : compile raw delimiter = .ok p) {s : String} {r : Regex}
    (hs : Segment.literal s r ∈ p.segments) :
    Regex.parse s ≠ .error .unopenedGroup ↔ ∃ e, Regex.parse s = .ok e ∧
      ∀ k, (Segment.literal s r).matchesText k = true ↔ k = s ∨ e.matchesWhole k = true := by
  obtain ⟨text, htext⟩ := exists_parse_of_mem h hs
  obtain ⟨-, hparse⟩ := Segment.parse_anchored_of_literal htext
  constructor
  · intro hopened
    obtain hunopened | ⟨e, he, rfl⟩ := Regex.parse_of_anchored hparse
    · exact absurd hunopened hopened
    · refine ⟨e, he, fun k => ?_⟩
      simp only [Segment.matchesText, Regex.isMatch_enclosed, Bool.or_eq_true, decide_eq_true_eq]
      exact or_congr_left eq_comm
  · rintro ⟨e, he, -⟩ hunopened
    rw [he] at hunopened
    cases hunopened

/-- Either of two keys. -/
theorem Pattern.matchesText_either : ∃ p s r, compile "a|b" "." = .ok p ∧
    .literal s r ∈ p.segments ∧ Regex.parse s ≠ .error .unopenedGroup ∧ ∃ e,
      Regex.parse s = .ok e ∧
      ∀ k, (Segment.literal s r).matchesText k = true ↔ k = s ∨ e.matchesWhole k = true := by
  obtain ⟨r, hcompile⟩ : ∃ r, compile "a|b" "." = .ok ⟨"a|b", ".", [.literal "a|b" r]⟩ := ⟨_, rfl⟩
  have hmem : Segment.literal "a|b" r ∈ [Segment.literal "a|b" r] := List.mem_singleton_self _
  have hopened : Regex.parse "a|b" ≠ .error .unopenedGroup := by
    intro h
    cases h
  exact ⟨_, _, _, hcompile, hmem, hopened, (matchesText_iff_matchesWhole hcompile hmem).mp hopened⟩

/-- A group closed too early leaves each anchor to one of the alternatives. -/
theorem Pattern.matchesText_of_unopened : ∃ p s r, compile "a)|(?:b" "." = .ok p ∧
    .literal s r ∈ p.segments ∧ Regex.parse s = .error .unopenedGroup ∧
    (Segment.literal s r).matchesText "ax" = true := by
  refine ⟨⟨"a)|(?:b", ".", [.literal "a)|(?:b" _]⟩, "a)|(?:b", _, rfl,
    List.mem_singleton_self _, rfl, ?_⟩
  decide

end TreeEdit
