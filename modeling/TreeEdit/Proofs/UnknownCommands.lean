import TreeEdit.Proofs.Blocks
import TreeEdit.Proofs.CutTexts
import TreeEdit.Proofs.Keywords
import TreeEdit.Proofs.MacroPieces

/-!
# When a command turns out to be unknown

A script is refused before it runs if a line begins with no known keyword. For this check a keyword
ends at the first blank of any kind; when the line runs, the shell ends its first word only at a
space, a tab or a line feed. So the two agree unless another blank stands behind the keyword
(`Line.ReadsOn`): then the first word holds the keyword, the blank and more, no command has such a
name, and the line fails when it is reached, after the lines before it have run.

`commandOf_unknown_iff` says so for all lines of a script whose keyword holds no macro. Every other
failure to build a command is told apart by its cause: only the name of a command gives
`Grammar.unknownCommand` (`Command.ofKeyword_eq_unknown_iff`), and neither quotes nor macros do.
-/

namespace TreeEdit

/-! ## The lines of a script -/

namespace Line

/-- Whether the shell reads on behind the keyword: it does not cut where the keyword ends. -/
def ReadsOn (l : Line) : Prop :=
  ∃ c rest, l.text.toList = l.keyword.toList ++ c :: rest ∧ Words.isSeparator c = false

theorem readsOn_iff {l : Line} {rest : List Char}
    (htext : l.text.toList = l.keyword.toList ++ rest) :
    l.ReadsOn ↔ ∃ c ∈ rest.head?, Words.isSeparator c = false := by
  unfold ReadsOn
  rw [htext]
  cases rest <;> simp

/-- A trimmed line is its keyword, alone or before a blank. -/
theorem exists_behind_keyword {l : Line} (h : ∀ c ∈ l.text.toList.head?, Text.isBlank c = false) :
    ∃ rest, l.text.toList = l.keyword.toList ++ rest ∧
      (∀ c ∈ rest.head?, Text.isBlank c = true) := by
  obtain ⟨blanks, rest, htext, hblanks, hrest⟩ := l.exists_around_keyword
  cases blanks with
  | nil =>
      refine ⟨rest, htext, ?_⟩
      obtain rfl | ⟨c, more, rfl, hc⟩ := hrest
      · simp
      · simpa using hc
  | cons b blanks =>
      have hb : Text.isBlank b = false := h b (by rw [htext]; rfl)
      rw [hblanks b (List.mem_cons_self ..)] at hb
      cases hb

end Line

namespace Script

theorem exists_trim_of_mem_numbered {n : Nat} {texts : List String} {l : Line}
    (h : l ∈ numbered n texts) : ∃ text, l.text = Text.trim text := by
  induction texts generalizing n with
  | nil => cases h
  | cons text texts ih =>
      obtain rfl | h := List.mem_cons.mp h
      · exact ⟨text, rfl⟩
      · exact ih h

/-- The lines of a script begin with no blank. -/
theorem isBlank_of_mem_lines {text : String} {script : Script} (hs : parse text = .ok script)
    {l : Line} (hl : l ∈ script.lines) : ∀ c ∈ l.text.toList.head?, Text.isBlank c = false := by
  intro c hc
  rw [(parse_eq_ok_iff.mp hs).1] at hl
  obtain ⟨raw, hraw⟩ := exists_trim_of_mem_numbered (List.mem_filter.mp hl).1
  rw [hraw, Text.trim, String.toList_ofList] at hc
  exact Text.isBlank_of_head?_trimChars hc

/-- A line of a script begins with a known keyword or with one that holds a macro. -/
theorem keyword_mem_of_mem_lines {text : String} {script : Script} (hs : parse text = .ok script)
    {l : Line} (hl : l ∈ script.lines) (hm : Line.hasMacro l.keyword = false) :
    l.keyword ∈ Command.keywords := by
  have hadmitted := checkKeywords_eq_ok_iff.mp (parse_eq_ok_iff.mp hs).2.1 l hl
  simpa [Line.isAdmitted, hm] using hadmitted

end Script

/-! ## Which names are unknown -/

namespace Command

/-- Whether a part of a command is built or refused for another reason than a name. -/
def NameIsKnown (outcome : Except Grammar α) : Prop :=
  ∀ name, outcome ≠ .error (.unknownCommand name)

namespace NameIsKnown

theorem ok (a : α) : NameIsKnown (.ok a) := fun _ h => by cases h

theorem error {cause : Grammar} (h : ∀ name, cause ≠ .unknownCommand name) :
    NameIsKnown (.error cause : Except Grammar α) :=
  fun name hname => h name (Except.error.inj hname)

theorem bind {outcome : Except Grammar α} {next : α → Except Grammar β} (h : NameIsKnown outcome)
    (hnext : ∀ a, NameIsKnown (next a)) : NameIsKnown (outcome >>= next) := by
  cases outcome with
  | error cause => exact error fun name hname => h name (congrArg Except.error hname)
  | ok a => exact hnext a

theorem single (keyword what : String) (args : List String) :
    NameIsKnown (Command.single keyword what args) := by
  unfold Command.single
  split
  · exact ok _
  · exact error (by simp)

theorem assignment (keyword what : String) (args : List String) :
    NameIsKnown (Command.assignment keyword what args) := by
  unfold Command.assignment
  split
  · dsimp only
    split
    · exact error (by simp)
    · exact ok _
  · exact error (by simp)

theorem sortWords (s : Sorted) (words : List String) : NameIsKnown (Command.sortWords s words) := by
  fun_induction Command.sortWords s words with
  | case1 => exact ok _
  | case2 _ _ _ _ _ ih | case3 _ _ _ _ _ _ ih => exact ih
  | case4 | case6 => exact error (by simp)
  | case5 _ _ _ _ _ ih | case7 _ _ _ _ _ _ ih | case8 _ _ _ _ _ _ _ ih => exact ih

theorem yamlOfWords (words : List String) : NameIsKnown (Command.yamlOfWords words) := by
  unfold Command.yamlOfWords
  split
  · exact error (by simp)
  · refine bind (sortWords _ _) fun s => ?_
    split
    · exact error (by simp)
    · split
      · exact error (by simp)
      · split
        · exact ok _
        · exact error (by simp)
        · exact ok _
        · exact error (by simp)

theorem pauseOfText (word : String) : NameIsKnown (Command.pauseOfText word) := by
  unfold Command.pauseOfText
  split
  · exact ok _
  · exact error (by simp)

end NameIsKnown

/-- A known keyword other than `print` is not refused for its name. -/
theorem nameIsKnown_ofKeyword {keyword : String} (hk : keyword ∈ keywords)
    (hprint : keyword ≠ "print") (args : List String) :
    NameIsKnown (ofKeyword keyword args) := by
  unfold ofKeyword
  split
  case h_10 => exact absurd rfl hprint
  case h_16 => simp_all [keywords]
  case h_4 | h_5 | h_14 => exact .ok _
  case h_2 | h_6 | h_7 | h_8 => exact .bind (.single _ _ _) fun _ => .ok _
  case h_3 | h_9 => exact .bind (.assignment _ _ _) fun _ => .ok _
  case h_1 =>
    split
    · exact .ok _
    · exact .bind (.single _ _ _) fun _ => .ok _
  case h_11 =>
    refine .bind (.single _ _ _) fun library => ?_
    split
    · exact .ok _
    · exact .error (by simp)
  case h_12 =>
    refine .bind (.single _ _ _) fun word => ?_
    split
    · exact .ok _
    · exact .ok _
    · exact .ok _
    · exact .ok _
    · exact .error (by simp)
  case h_13 => exact .bind (.single _ _ _) fun _ => .bind (.pauseOfText _) fun _ => .ok _
  case h_15 => exact .bind (.yamlOfWords _) fun _ => .ok _

/-- A word is refused for its name if it is no keyword, or `print`, which is not made of words. -/
theorem ofKeyword_eq_unknown_iff {keyword name : String} {args : List String} :
    ofKeyword keyword args = .error (.unknownCommand name) ↔
      name = keyword ∧ (keyword ∉ keywords ∨ keyword = "print") := by
  by_cases hk : keyword ∈ keywords
  · by_cases hprint : keyword = "print"
    · subst hprint
      simp [ofKeyword, eq_comm]
    · simp [nameIsKnown_ofKeyword hk hprint args name, hk, hprint]
  · have hother : ofKeyword keyword args = .error (.unknownCommand keyword) := by
      unfold ofKeyword
      split
      all_goals first | rfl | exact absurd (by decide) hk
    simp [hother, hk, eq_comm]

end Command

/-! ## Failures of other kinds -/

/-- A text that cannot be expanded is refused for one of its macros. -/
theorem Macro.expand_error {scope : Scope} {text : String} {e : Error}
    (h : expand scope text = .error e) : ∃ token, e = .unresolved token := by
  obtain ⟨ps, hps⟩ := exists_cut text.toList
  obtain ⟨-, t, -, -, -, -, he⟩ := hps.expand_eq_error_iff.mp h
  exact ⟨_, he⟩

namespace Script

/-- A line that cannot be read as words is refused for its quotes or for one of its macros. -/
theorem wordsOf_error {l : Line} {scope : Scope} {e : Error} (h : wordsOf scope l = .error e) :
    e = .grammar l.number .unbalanced ∨ ∃ token, e = .unresolved token := by
  unfold wordsOf at h
  split at h
  · exact .inl (Except.error.inj h).symm
  · rename_i words _
    have hfault := fault?_eq_some_iff.mpr h
    rw [fault?_mapM] at hfault
    obtain ⟨word, -, hword⟩ := List.exists_of_findSome?_eq_some hfault
    exact .inr (Macro.expand_error (fault?_eq_some_iff.mp hword))

/-- The first word of a line is no keyword where the shell reads on, and else the line's keyword. -/
theorem head_wordsOf_of_trimmed {l : Line} (hk : l.keyword ∈ Command.keywords)
    (htrim : ∀ c ∈ l.text.toList.head?, Text.isBlank c = false) {scope : Scope} {first : String}
    {args : List String} (h : wordsOf scope l = .ok (first :: args)) :
    l.ReadsOn ∧ first ∉ Command.keywords ∨ ¬ l.ReadsOn ∧ first = l.keyword := by
  obtain ⟨rest, htext, hrest⟩ := Line.exists_behind_keyword htrim
  have hne := Command.toList_ne_nil_of_mem_keywords hk
  have hletter := Command.isLetter_of_mem_keywords hk
  obtain ⟨ws, hws, hwords⟩ := wordsOf_ok h
  obtain ⟨w, ws, hexpand, -, rfl⟩ := List.forall₂_cons_right_iff.mp hwords
  rw [htext] at hws
  -- `w` is the first shell word: the keyword with the blank and more behind it, or the keyword alone
  by_cases hreads : l.ReadsOn
  · obtain ⟨c, hc, hsep⟩ := (Line.readsOn_iff htext).mp hreads
    obtain ⟨more, rfl⟩ := List.head?_eq_some_iff.mp hc
    obtain ⟨_, _, hcons, hblank⟩ := Words.first_of_scan_glued hne hletter (hrest c hc) hsep hws
    obtain ⟨rfl, rfl⟩ := List.cons.inj hcons
    exact .inl ⟨hreads, not_mem_keywords_of_expand hblank hexpand⟩
  · have hcut : ∀ c ∈ rest.head?, Words.isSeparator c = true := by
      intro c hc
      by_contra hsep
      exact hreads ((Line.readsOn_iff htext).mpr ⟨c, hc, Bool.eq_false_iff.mpr hsep⟩)
    obtain ⟨_, hcons⟩ := Words.first_of_scan_cut hne hletter hcut hws
    obtain ⟨rfl, rfl⟩ := List.cons.inj hcons
    exact .inr ⟨hreads, eq_keyword_of_expand hk hexpand⟩

/-- A line is refused under its number, for what its command is refused for. -/
theorem onLine_eq_error_iff {number number' : Nat} {outcome : Except Grammar α} {cause : Grammar} :
    onLine number outcome = .error (.grammar number' cause) ↔
      number' = number ∧ outcome = .error cause := by
  cases outcome <;> simp [onLine, eq_comm]

/-- A line that is no `print` line has an unknown command if its first word is one. -/
theorem commandOf_eq_unknown_iff {l : Line} (hwhole : expandsWhole l = false) {w : World}
    {number : Nat} {name : String} :
    (commandOf l w).1 = .error (.grammar number (.unknownCommand name)) ↔
      number = l.number ∧ (name ∉ Command.keywords ∨ name = "print") ∧
        ∃ args, wordsOf w.context.scope l = .ok (name :: args) := by
  rw [commandOf_fst, if_neg (by simp [hwhole])]
  cases hwords : wordsOf w.context.scope l with
  | error e =>
      -- neither quotes nor macros are failures of this kind
      obtain rfl | ⟨token, rfl⟩ := wordsOf_error hwords <;> simp [Except.bind]
  | ok words =>
      cases words with
      | nil => simp [Except.bind, onLine_eq_error_iff, Command.ofWords]
      | cons first args =>
          simp only [Except.bind, onLine_eq_error_iff, Command.ofWords,
            Command.ofKeyword_eq_unknown_iff, Except.ok.injEq, List.cons.injEq]
          constructor
          · rintro ⟨rfl, rfl, hname⟩
            exact ⟨rfl, hname, args, rfl, rfl⟩
          · rintro ⟨rfl, hname, -, rfl, -⟩
            exact ⟨rfl, rfl, hname⟩

/--
**What the check of keywords leaves to the run.** A line of a script whose keyword holds no macro
has no other command than its keyword names. It has an unknown one exactly if the shell reads on
behind the keyword, and then the first word of the line is the name that is unknown.
-/
theorem commandOf_unknown_iff {text : String} {script : Script} (hs : parse text = .ok script)
    {l : Line} (hl : l ∈ script.lines) (hm : Line.hasMacro l.keyword = false) (w : World) :
    (∀ c, (commandOf l w).1 = .ok c → l.keyword ∈ c.names) ∧
      ∀ number name, (commandOf l w).1 = .error (.grammar number (.unknownCommand name)) ↔
        number = l.number ∧ l.keyword ≠ "print" ∧ l.ReadsOn ∧
          ∃ args, wordsOf w.context.scope l = .ok (name :: args) := by
  have hk := keyword_mem_of_mem_lines hs hl hm
  refine ⟨fun c hc => commandOf_keyword hk (Prod.ext hc rfl), fun number name => ?_⟩
  -- a `print` line is not cut into words, so only its macros can be at fault
  by_cases hprint : l.keyword = "print"
  · have hwhole : expandsWhole l = true := by simp [expandsWhole, hprint]
    rw [commandOf_fst, if_pos hwhole]
    cases hexpand : Macro.expand w.context.scope l.text with
    | error e =>
        obtain ⟨token, rfl⟩ := Macro.expand_error hexpand
        simp [Except.bind, hprint]
    | ok text =>
        obtain ⟨printed, hprinted⟩ := exists_parse_of_print hprint hexpand
        simp [Except.bind, hprinted, onLine, hprint]
  · rw [commandOf_eq_unknown_iff (by simp [expandsWhole, hprint, hm])]
    refine and_congr_right fun _ => ?_
    have htrim := isBlank_of_mem_lines hs hl
    constructor
    · rintro ⟨hname, args, hwords⟩
      obtain ⟨hreads, -⟩ | ⟨-, rfl⟩ := head_wordsOf_of_trimmed hk htrim hwords
      · exact ⟨hprint, hreads, args, hwords⟩
      · exact hname.elim (absurd hk) (absurd · hprint)
    · rintro ⟨-, hreads, args, hwords⟩
      obtain ⟨-, hunknown⟩ | ⟨hnot, -⟩ := head_wordsOf_of_trimmed hk htrim hwords
      · exact ⟨.inl hunknown, args, hwords⟩
      · exact absurd hreads hnot

/-- An ideographic space behind a keyword is read with it, and the name is unknown. -/
theorem commandOf_unknown_iff_ideographic_space :
    let l : Line := ⟨2, "batch\u3000@steps"⟩
    let script : Script := ⟨[⟨1, "print on"⟩, l]⟩
    parse "print on\nbatch\u3000@steps" = .ok script ∧ l ∈ script.lines ∧
      Line.hasMacro l.keyword = false ∧
      (commandOf l {}).1 = .error (.grammar 2 (.unknownCommand "batch\u3000@steps")) := by
  intro l script
  have hparse : parse "print on\nbatch\u3000@steps" = .ok script := rfl
  have hl : l ∈ script.lines := List.mem_cons_of_mem _ (List.mem_singleton_self l)
  have hm : Line.hasMacro l.keyword = false := by decide
  have hreads : l.ReadsOn := ⟨'\u3000', "@steps".toList, by decide, by decide⟩
  have hwords : wordsOf (World.context {}).scope l = .ok ["batch\u3000@steps"] :=
    wordsOf_of_plain (by decide) (by decide)
  refine ⟨hparse, hl, hm, ?_⟩
  exact ((commandOf_unknown_iff hparse hl hm {}).2 2 _).mpr ⟨rfl, by decide, hreads, [], hwords⟩

/-- A script with a no-break space behind a keyword is accepted, and its command is unknown. -/
theorem commandOf_no_break_space :
    let l : Line := ⟨1, "expandTree\u00a0now"⟩
    parse "expandTree\u00a0now" = .ok ⟨[l]⟩ ∧ Line.hasMacro l.keyword = false ∧
      (commandOf l {}).1 = .error (.grammar 1 (.unknownCommand "expandTree\u00a0now")) := by
  intro l
  refine ⟨rfl, by decide, ?_⟩
  rw [commandOf_fst, if_neg (by decide),
    wordsOf_of_plain (by decide : Words.split? l.text = some ["expandTree\u00a0now"]) (by decide)]
  rfl

end Script

end TreeEdit
