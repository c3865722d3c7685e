import TreeEdit.Proofs.Lookups
import TreeEdit.Proofs.MacroPieces

/-!
# The keyword of a line and its command

A script is checked by the first words of its lines, cut at blanks, before it runs. When a line
runs, its command comes from its first shell word, and that after macros have been replaced. This
module shows that the two cannot disagree on a known keyword: letters mean nothing to the shell and
begin no macro, so the first shell word starts with the keyword; and where the shell does not cut at
the blank behind it, the word holds that blank, and no command has such a name.

So a `foreach` line gives no other command than `foreach`, and a line that is no bracket of a loop
gives none.
-/

namespace TreeEdit

namespace Text

/-- The first word, once one is under way. -/
theorem head?_wordsFrom {word : List Char} (hw : word ≠ []) (cs : List Char) :
    (wordsFrom word cs).head? = some (word.reverse ++ cs.takeWhile (! isBlank ·)) := by
  induction cs generalizing word with
  | nil => simp [wordsFrom, hw]
  | cons c cs ih =>
      rw [wordsFrom]
      by_cases hc : isBlank c = true
      · simp [hc, hw]
      · simp [hc, ih (List.cons_ne_nil c word)]

/-- The first word of a text is what stands before the first blank after the leading ones. -/
theorem head?_words (s : String) :
    ((words s).head?).getD "" =
      String.ofList ((s.toList.dropWhile isBlank).takeWhile (! isBlank ·)) := by
  rw [words, List.head?_map]
  induction s.toList with
  | nil => rfl
  | cons c cs ih =>
      rw [wordsFrom]
      by_cases hc : isBlank c = true
      · simpa [hc] using ih
      · simp [hc, head?_wordsFrom]

end Text

/-- Whether a character has no meaning of its own in a line, except that it may separate words. -/
def Words.IsOrdinary (c : Char) : Prop := c ≠ '"' ∧ c ≠ '\'' ∧ c ≠ '\\' ∧ c ≠ '#' ∧ c ≠ '$'

instance Words.decidableIsOrdinary (c : Char) : Decidable (Words.IsOrdinary c) :=
  inferInstanceAs (Decidable (_ ∧ _))

namespace Words

theorem isOrdinary_of_isBlank {c : Char} (h : Text.isBlank c = true) : IsOrdinary c := by
  refine ⟨?_, ?_, ?_, ?_, ?_⟩ <;> (rintro rfl; exact absurd h (by decide))

theorem isOrdinary_of_isLetter {c : Char} (h : Text.isLetter c = true) : IsOrdinary c := by
  refine ⟨?_, ?_, ?_, ?_, ?_⟩ <;> (rintro rfl; exact absurd h (by decide))

/-- A letter is no blank. -/
theorem isBlank_of_isLetter {c : Char} (h : Text.isLetter c = true) : Text.isBlank c = false := by
  have hval : c.toNat = c.val.toNat := rfl
  have hcode : ('a' : Char).val.toNat = 97 ∧ ('z' : Char).val.toNat = 122 ∧
      ('A' : Char).val.toNat = 65 ∧ ('Z' : Char).val.toNat = 90 := by decide
  simp only [Text.isLetter, Bool.or_eq_true, Bool.and_eq_true, decide_eq_true_eq, Char.le_def,
    UInt32.le_iff_toNat_le, hcode] at h
  rw [← Bool.not_eq_true]
  simp only [Text.isBlank, Bool.or_eq_true, Bool.and_eq_true, decide_eq_true_eq, beq_iff_eq]
  omega

/-- A character that separates words is a blank. -/
theorem isBlank_of_isSeparator {c : Char} (h : isSeparator c = true) : Text.isBlank c = true := by
  simp only [isSeparator, Bool.or_eq_true, decide_eq_true_eq] at h
  obtain (rfl | rfl) | rfl := h <;> decide

/-- A letter separates nothing. -/
theorem isSeparator_of_isLetter {c : Char} (h : Text.isLetter c = true) :
    isSeparator c = false := by
  rw [← Bool.not_eq_true]
  intro hsep
  exact absurd (isBlank_of_isSeparator hsep) (by simp [isBlank_of_isLetter h])

/-! ## The first shell word -/

theorem IsOrdinary.inWord {c : Char} (h : IsOrdinary c) (word : List Char) :
    inWord word c = (.word, c :: word) := by
  simp only [Words.inWord, h.1, h.2.1, h.2.2.1, if_false]

/-- Ordinary characters that separate nothing go into the word under way. -/
theorem scan_word_append {cs : List Char} (h : ∀ c ∈ cs, IsOrdinary c ∧ isSeparator c = false)
    (word rest : List Char) :
    scan .word word (cs ++ rest) = scan .word (cs.reverse ++ word) rest := by
  induction cs generalizing word with
  | nil => rfl
  | cons c cs ih =>
      obtain ⟨⟨hc, hsep⟩, hcs⟩ := List.forall_mem_cons.mp h
      simp only [List.cons_append, scan, hsep, Bool.false_eq_true, if_false, hc.inWord, ih hcs,
        List.reverse_cons, List.append_assoc, List.nil_append]

/-- Between words, an ordinary character that separates nothing begins one. -/
theorem scan_between_cons {c : Char} (h : IsOrdinary c) (hsep : isSeparator c = false)
    (rest : List Char) : scan .between [] (c :: rest) = scan .word [c] rest := by
  simp only [scan, hsep, Bool.false_eq_true, if_false, h.2.2.2.1, h.inWord]

/-- Whether there are words of which the first begins with the reverse of `word`. -/
def Begin (word : List Char) (ws : List (List Char)) : Prop :=
  ∃ first more, ws = first :: more ∧ word.reverse <+: first

theorem Begin.of_append {xs word : List Char} {ws : List (List Char)} (h : Begin (xs ++ word) ws) :
    Begin word ws := by
  obtain ⟨first, more, rfl, hfirst⟩ := h
  rw [List.reverse_append] at hfirst
  exact ⟨first, more, rfl, (List.prefix_append ..).trans hfirst⟩

theorem Begin.of_cons {c : Char} {word : List Char} {ws : List (List Char)}
    (h : Begin (c :: word) ws) : Begin word ws :=
  of_append (show Begin ([c] ++ word) ws from h)

/-- Whether a word is under way. -/
def Place.isInside : Place → Bool
  | .between | .comment => false
  | .word | .single | .double | .escaped | .doubleEscaped => true

/-- A character read in a word leaves the scanner in the word. -/
theorem inWord_inside {word word' : List Char} {c : Char} {place : Place}
    (h : inWord word c = (place, word')) : place.isInside = true ∧ ∃ xs, word' = xs ++ word := by
  unfold inWord at h
  split at h
  · cases h; exact ⟨rfl, [], rfl⟩
  · split at h
    · cases h; exact ⟨rfl, [], rfl⟩
    · split at h
      · cases h; exact ⟨rfl, [], rfl⟩
      · cases h; exact ⟨rfl, [c], rfl⟩

/-- The word under way begins the first word. -/
theorem begin_of_scan {place : Place} (hplace : place.isInside = true) {word cs : List Char}
    {ws : List (List Char)} (h : scan place word cs = some ws) : Begin word ws := by
  fun_induction scan place word cs generalizing ws with
  | case1 | case2 | case8 | case9 | case10 | case11 => cases hplace
  | case4 | case5 | case6 | case7 => cases h
  | case3 word =>
      cases h
      exact ⟨_, _, rfl, List.prefix_rfl⟩
  | case12 word c cs hsep ih =>
      obtain ⟨more, -, rfl⟩ := Option.map_eq_some_iff.mp h
      exact ⟨_, more, rfl, List.prefix_rfl⟩
  | case13 word c cs hsep place' word' hin ih =>
      obtain ⟨hplace', xs, rfl⟩ := inWord_inside hin
      exact (ih hplace' h).of_append
  | case14 word cs ih | case16 word cs ih | case17 word cs _ ih | case21 word cs _ ih =>
      exact ih rfl h
  | case15 word c cs _ ih | case18 word c cs _ _ ih | case20 word c cs _ ih =>
      exact (ih rfl h).of_cons
  | case19 word c cs ih =>
      have hbegin := ih rfl h
      split at hbegin
      · exact hbegin
      · exact hbegin.of_cons
  | case22 word c cs _ _ ih => exact (ih rfl h).of_cons.of_cons

/-- Whether a blank stands in a word before anything that may begin a macro. -/
def HasEarlyBlank (word : List Char) : Prop :=
  ∃ plain c rest, word = plain ++ c :: rest ∧ (∀ d ∈ plain, d ≠ '$') ∧ Text.isBlank c = true

/-- At a separator, or at the end of the line, the first word ends where the keyword ends. -/
theorem first_of_scan_cut {keyword rest : List Char} (hne : keyword ≠ [])
    (hkeyword : ∀ c ∈ keyword, Text.isLetter c = true)
    (hrest : ∀ c ∈ rest.head?, isSeparator c = true) {ws : List (List Char)}
    (h : scan .between [] (keyword ++ rest) = some ws) : ∃ more, ws = keyword :: more := by
  have hplain : ∀ c ∈ keyword, IsOrdinary c ∧ isSeparator c = false := fun c hc =>
    ⟨isOrdinary_of_isLetter (hkeyword c hc), isSeparator_of_isLetter (hkeyword c hc)⟩
  obtain ⟨k, ks, rfl⟩ := List.exists_cons_of_ne_nil hne
  obtain ⟨⟨hk, hsep⟩, hks⟩ := List.forall_mem_cons.mp hplain
  rw [List.cons_append, scan_between_cons hk hsep, scan_word_append hks] at h
  cases rest with
  | nil =>
      simp only [scan, List.reverse_append, List.reverse_cons, List.reverse_nil, List.nil_append,
        List.reverse_reverse, List.cons_append, Option.some.injEq] at h
      exact ⟨_, h.symm⟩
  | cons c rest =>
      simp only [scan, hrest c rfl, if_true, Option.map_eq_some_iff] at h
      obtain ⟨more, -, rfl⟩ := h
      exact ⟨more, by simp⟩

/-- At another blank the shell reads on, and the blank is in its first word. -/
theorem first_of_scan_glued {keyword rest : List Char} {c : Char} (hne : keyword ≠ [])
    (hkeyword : ∀ c ∈ keyword, Text.isLetter c = true) (hc : Text.isBlank c = true)
    (hsep : isSeparator c = false) {ws : List (List Char)}
    (h : scan .between [] (keyword ++ c :: rest) = some ws) :
    ∃ first more, ws = first :: more ∧ HasEarlyBlank first := by
  have hplain : ∀ c ∈ keyword, IsOrdinary c ∧ isSeparator c = false := fun c hc =>
    ⟨isOrdinary_of_isLetter (hkeyword c hc), isSeparator_of_isLetter (hkeyword c hc)⟩
  obtain ⟨k, ks, rfl⟩ := List.exists_cons_of_ne_nil hne
  obtain ⟨⟨hk, hksep⟩, hks⟩ := List.forall_mem_cons.mp hplain
  rw [List.cons_append, scan_between_cons hk hksep, scan_word_append hks] at h
  simp only [scan, hsep, Bool.false_eq_true, if_false, (isOrdinary_of_isBlank hc).inWord] at h
  obtain ⟨first, more, rfl, tail, rfl⟩ := begin_of_scan rfl h
  refine ⟨_, _, rfl, k :: ks, c, tail, by simp, fun d hd => ?_, hc⟩
  exact (hplain d hd).1.2.2.2.2

/-- The first shell word is the first word cut at blanks, or the shell has not cut at the blank. -/
theorem first_of_scan {blanks keyword rest : List Char}
    (hblanks : ∀ c ∈ blanks, Text.isBlank c = true) (hne : keyword ≠ [])
    (hkeyword : ∀ c ∈ keyword, Text.isLetter c = true)
    (hrest : rest = [] ∨ ∃ c more, rest = c :: more ∧ Text.isBlank c = true)
    {ws : List (List Char)} (h : scan .between [] (blanks ++ (keyword ++ rest)) = some ws) :
    ∃ first more, ws = first :: more ∧ (first = keyword ∨ HasEarlyBlank first) := by
  induction blanks with
  | nil =>
      rw [List.nil_append] at h
      -- the keyword has been read; the line ends, or the shell cuts at the blank, or it reads on
      obtain rfl | ⟨c, more, rfl, hc⟩ := hrest
      · obtain ⟨more, rfl⟩ := first_of_scan_cut hne hkeyword (by simp) h
        exact ⟨_, _, rfl, .inl rfl⟩
      · by_cases hsep : isSeparator c = true
        · obtain ⟨more, rfl⟩ := first_of_scan_cut hne hkeyword (by simpa using hsep) h
          exact ⟨_, _, rfl, .inl rfl⟩
        · obtain ⟨first, more, rfl, hfirst⟩ :=
            first_of_scan_glued hne hkeyword hc (Bool.eq_false_iff.mpr hsep) h
          exact ⟨_, _, rfl, .inr hfirst⟩
  | cons b blanks ih =>
      obtain ⟨hb, hblanks⟩ := List.forall_mem_cons.mp hblanks
      by_cases hsep : isSeparator b = true
      · simp only [List.cons_append, scan, hsep, if_true] at h
        exact ih hblanks h
      · rw [List.cons_append, scan_between_cons (isOrdinary_of_isBlank hb) (by simpa using hsep)] at h
        obtain ⟨first, more, rfl, tail, rfl⟩ := begin_of_scan rfl h
        exact ⟨_, _, rfl, .inr ⟨[], b, tail, rfl, fun _ hd => absurd hd (by simp), hb⟩⟩

end Words

/-! ## Macros begin with a dollar sign -/

namespace Macro

/-- Characters before the first dollar sign stay as they are. -/
theorem expandChars_append (scope : Scope) {plain : List Char} (h : ∀ c ∈ plain, c ≠ '$')
    (rest : List Char) :
    expandChars scope 0 (plain ++ rest) = (expandChars scope 0 rest).map (plain ++ ·) := by
  induction plain with
  | nil =>
      rw [List.nil_append]
      cases expandChars scope 0 rest <;> rfl
  | cons c plain ih =>
      obtain ⟨hc, hplain⟩ := List.forall_mem_cons.mp h
      have hnone : token? (c :: (plain ++ rest)) = none := by
        unfold token?
        split <;> simp_all
      simp only [List.cons_append, expandChars, hnone, ih hplain]
      cases expandChars scope 0 rest <;> rfl

/-- What stands before the first dollar sign of a text begins the expanded one. -/
theorem toList_of_expand {scope : Scope} {text expanded : String} {plain rest : List Char}
    (h : expand scope text = .ok expanded) (htext : text.toList = plain ++ rest)
    (hplain : ∀ c ∈ plain, c ≠ '$') :
    ∃ rest', expandChars scope 0 rest = .ok rest' ∧ expanded.toList = plain ++ rest' := by
  rw [expand, htext, expandChars_append scope hplain] at h
  cases hrest : expandChars scope 0 rest with
  | error e => rw [hrest] at h; cases h
  | ok rest' =>
      rw [hrest] at h
      cases h
      exact ⟨rest', rfl, String.toList_ofList⟩

/-- A text without dollar signs stays as it is. -/
theorem expand_of_plain {scope : Scope} {text : String} (h : ∀ c ∈ text.toList, c ≠ '$') :
    expand scope text = .ok text := by
  have hchars := expandChars_append scope h []
  simp only [List.append_nil, expandChars] at hchars
  simp [expand, hchars, Except.map]

/-- An early blank stays where it is. -/
theorem hasEarlyBlank_of_expand {scope : Scope} {text expanded : String}
    (hblank : Words.HasEarlyBlank text.toList) (h : expand scope text = .ok expanded) :
    Words.HasEarlyBlank expanded.toList := by
  obtain ⟨plain, c, rest, htext, hplain, hc⟩ := hblank
  have hdollar : ∀ d ∈ plain ++ [c], d ≠ '$' :=
    List.forall_mem_append.mpr
      ⟨hplain, List.forall_mem_singleton.mpr (Words.isOrdinary_of_isBlank hc).2.2.2.2⟩
  obtain ⟨rest', -, hexpanded⟩ := toList_of_expand h (htext.trans (List.append_cons ..)) hdollar
  exact ⟨plain, c, rest', by simpa using hexpanded, hplain, hc⟩

end Macro

/-! ## The keyword and what stands around it -/

namespace Line

variable {l : Line}

/-- A line is its keyword between blanks, with anything behind them. -/
theorem exists_around_keyword (l : Line) :
    ∃ blanks rest, l.text.toList = blanks ++ (l.keyword.toList ++ rest) ∧
      (∀ c ∈ blanks, Text.isBlank c = true) ∧
      (rest = [] ∨ ∃ c more, rest = c :: more ∧ Text.isBlank c = true) := by
  have hk : l.keyword.toList =
      (l.text.toList.dropWhile Text.isBlank).takeWhile (! Text.isBlank ·) := by
    rw [keyword, Text.head?_words, String.toList_ofList]
  refine ⟨l.text.toList.takeWhile Text.isBlank,
    (l.text.toList.dropWhile Text.isBlank).dropWhile (! Text.isBlank ·), ?_, ?_, ?_⟩
  · rw [hk, List.takeWhile_append_dropWhile, List.takeWhile_append_dropWhile]
  · exact fun c hc => List.mem_takeWhile_imp hc
  · cases hrest : (l.text.toList.dropWhile Text.isBlank).dropWhile (! Text.isBlank ·) with
    | nil => exact .inl rfl
    | cons c more =>
        refine .inr ⟨c, more, rfl, ?_⟩
        have := List.head?_dropWhile_not (! Text.isBlank ·) (l.text.toList.dropWhile Text.isBlank)
        rw [hrest] at this
        simpa using this

end Line

/-! ## Commands by their keywords -/

namespace Command

/-- The keywords of a command. -/
def names : Command → List String
  | makeNewRoot _ => ["makeNewRoot"]
  | batch _ => ["batch"]
  | property _ _ => ["property"]
  | foreach => ["foreach"]
  | end_ => ["end"]
  | save _ => ["saveTo", "saveAs"]
  | useAsInput _ => ["useAsInput"]
  | setProperty _ _ => ["setProperty"]
  | print _ => ["print"]
  | useYamlLibrary _ => ["useYamlLibrary"]
  | verbose _ => ["verbose"]
  | sleep _ => ["sleep"]
  | expandTree => ["expandTree"]
  | yaml _ => ["yaml"]

theorem names_subset_keywords (c : Command) : c.names ⊆ keywords := by
  cases c <;> exact List.subset_def.mpr (by simp [names, keywords])

/-- A keyword names the command that it makes of its arguments. -/
theorem mem_names_of_ofKeyword {keyword : String} {args : List String} {c : Command}
    (h : ofKeyword keyword args = .ok c) : keyword ∈ c.names := by
  unfold ofKeyword at h
  split at h
  -- one case for each keyword; what is left of it is the checks of its arguments
  all_goals
    try simp only [bind, Except.bind, pure, Except.pure] at h
    repeat' split at h
  all_goals cases h
  all_goals simp [names]

theorem isLetter_of_mem_keywords {keyword : String} (h : keyword ∈ keywords) :
    ∀ c ∈ keyword.toList, Text.isLetter c = true := by
  have hall : (keywords.all fun k => k.toList.all Text.isLetter) = true := by decide
  exact List.all_eq_true.mp (List.all_eq_true.mp hall keyword h)

theorem toList_ne_nil_of_mem_keywords {keyword : String} (h : keyword ∈ keywords) :
    keyword.toList ≠ [] := by
  have hall : ∀ k ∈ keywords, k ≠ "" := by decide
  exact fun hnil => hall keyword h (String.toList_eq_nil_iff.mp hnil)

/-- A known keyword holds no dollar sign. -/
theorem plain_of_mem_keywords {keyword : String} (h : keyword ∈ keywords) :
    ∀ c ∈ keyword.toList, c ≠ '$' :=
  fun c hc => (Words.isOrdinary_of_isLetter (isLetter_of_mem_keywords h c hc)).2.2.2.2

/-- A known keyword holds no macro. -/
theorem hasMacro_of_mem_keywords {keyword : String} (h : keyword ∈ keywords) :
    Line.hasMacro keyword = false := by
  have hall : (keywords.all fun k => !Line.hasMacro k) = true := by decide
  simpa using List.all_eq_true.mp hall keyword h

/-- No command has a name with a blank in it. -/
theorem not_mem_keywords {word : String} (h : Words.HasEarlyBlank word.toList) :
    word ∉ keywords := by
  obtain ⟨plain, c, rest, hword, -, hc⟩ := h
  intro hmem
  have hletter := isLetter_of_mem_keywords hmem c (by simp [hword])
  exact absurd hc (by simp [Words.isBlank_of_isLetter hletter])

/-- A text that is `print`, alone or before a blank, is the command of that name. -/
theorem parse_print {text : String} {blanks rest : List Char}
    (htext : text.toList = blanks ++ ("print".toList ++ rest))
    (hblanks : ∀ c ∈ blanks, Text.isBlank c = true)
    (hrest : rest = [] ∨ ∃ c more, rest = c :: more ∧ Text.isBlank c = true) :
    ∃ printed, parse text = .ok (.print printed) := by
  have htrim : Text.trimLeft text.toList = "print".toList ++ rest := by
    rw [htext, Text.trimLeft, List.dropWhile_append_of_pos hblanks]
    rfl
  have hprinted : ∃ printed, printed? text = some printed := by
    unfold printed?
    rw [htrim]
    obtain rfl | ⟨c, more, rfl, hc⟩ := hrest
    · exact ⟨_, rfl⟩
    · exact ⟨_, if_pos hc⟩
  obtain ⟨printed, hprinted⟩ := hprinted
  exact ⟨printed, by rw [parse, hprinted]⟩

end Command

namespace Script

/-- The outcome of building a command, whatever is told on the way. -/
theorem commandOf_fst (l : Line) (w : World) :
    (commandOf l w).1 =
      if expandsWhole l = true then
        (Macro.expand w.context.scope l.text).bind fun text => onLine l.number (Command.parse text)
      else
        (wordsOf w.context.scope l).bind fun words => onLine l.number (Command.ofWords words) := by
  rw [commandOf, Lookup.bind_apply]
  dsimp only [Run.context]
  split
  · cases Macro.expand w.context.scope l.text <;> rfl
  · cases wordsOf w.context.scope l <;> rfl

theorem onLine_ok {number : Nat} {outcome : Except Grammar α} {a : α}
    (h : onLine number outcome = .ok a) : outcome = .ok a := by
  cases outcome <;> cases h
  rfl

/-- How the command of a line came about. -/
theorem commandOf_ok {line : Line} {w w' : World} {c : Command}
    (h : commandOf line w = (.ok c, w')) :
    (expandsWhole line = true ∧
      ∃ text, Macro.expand w.context.scope line.text = .ok text ∧ Command.parse text = .ok c) ∨
    (expandsWhole line = false ∧
      ∃ words, wordsOf w.context.scope line = .ok words ∧ Command.ofWords words = .ok c) := by
  have hfst : (commandOf line w).1 = .ok c := congrArg Prod.fst h
  rw [commandOf_fst] at hfst
  split at hfst
  · obtain ⟨text, htext, hc⟩ := bind_eq_ok_iff.mp hfst
    exact .inl ⟨‹_›, text, htext, onLine_ok hc⟩
  · obtain ⟨words, hwords, hc⟩ := bind_eq_ok_iff.mp hfst
    exact .inr ⟨Bool.eq_false_iff.mpr ‹_›, words, hwords, onLine_ok hc⟩

/-- A line without dollar signs is read as its shell words. -/
theorem wordsOf_of_plain {line : Line} {scope : Scope} {words : List String}
    (hsplit : Words.split? line.text = some words)
    (hplain : ∀ word ∈ words, (word.toList.all fun c => c ≠ '$') = true) :
    wordsOf scope line = .ok words := by
  have hexpand : words.mapM (Macro.expand scope) = .ok (words.map id) :=
    mapM_eq_ok fun word hword => Macro.expand_of_plain fun c hc => by
      simpa using List.all_eq_true.mp (hplain word hword) c hc
  rw [wordsOf, hsplit]
  rwa [List.map_id] at hexpand

/-- A line is read as its shell words with the macros in each of them replaced. -/
theorem wordsOf_ok {line : Line} {scope : Scope} {words : List String}
    (h : wordsOf scope line = .ok words) :
    ∃ ws, Words.scan .between [] line.text.toList = some ws ∧
      List.Forall₂ (fun w word => Macro.expand scope (String.ofList w) = .ok word) ws words := by
  unfold wordsOf at h
  split at h
  · cases h
  · rename_i shellWords hsplit
    obtain ⟨ws, hws, rfl⟩ := Option.map_eq_some_iff.mp hsplit
    exact ⟨ws, hws, List.forall₂_map_left_iff.mp (forall₂_of_mapM h)⟩

/-- A known keyword alone in a shell word stays as it is. -/
theorem eq_keyword_of_expand {line : Line} (hk : line.keyword ∈ Command.keywords) {scope : Scope}
    {word : String} (h : Macro.expand scope (String.ofList line.keyword.toList) = .ok word) :
    word = line.keyword := by
  rw [String.ofList_toList, Macro.expand_of_plain (Command.plain_of_mem_keywords hk)] at h
  exact (Except.ok.inj h).symm

/-- A shell word with an early blank becomes no keyword. -/
theorem not_mem_keywords_of_expand {w : List Char} (hblank : Words.HasEarlyBlank w) {scope : Scope}
    {word : String} (h : Macro.expand scope (String.ofList w) = .ok word) :
    word ∉ Command.keywords := by
  rw [← String.toList_ofList (l := w)] at hblank
  exact Command.not_mem_keywords (Macro.hasEarlyBlank_of_expand hblank h)

/-- The first word of a line, macros replaced, is its keyword if it is a known one at all. -/
theorem head_wordsOf {line : Line} (hk : line.keyword ∈ Command.keywords) {scope : Scope}
    {words : List String} (h : wordsOf scope line = .ok words) :
    ∃ first more, words = first :: more ∧ (first = line.keyword ∨ first ∉ Command.keywords) := by
  obtain ⟨blanks, rest, htext, hblanks, hrest⟩ := line.exists_around_keyword
  obtain ⟨ws, hws, hwords⟩ := wordsOf_ok h
  rw [htext] at hws
  obtain ⟨w, ws, rfl, hfirst⟩ := Words.first_of_scan hblanks
    (Command.toList_ne_nil_of_mem_keywords hk) (Command.isLetter_of_mem_keywords hk) hrest hws
  obtain ⟨first, more, hexpand, -, rfl⟩ := List.forall₂_cons_left_iff.mp hwords
  refine ⟨first, more, rfl, ?_⟩
  obtain rfl | hblank := hfirst
  · exact .inl (eq_keyword_of_expand hk hexpand)
  · exact .inr (not_mem_keywords_of_expand hblank hexpand)

/-- Expanding a line as a whole leaves its keyword standing alone. -/
theorem around_keyword_expand {line : Line} (hk : line.keyword ∈ Command.keywords) {scope : Scope}
    {expanded : String} (h : Macro.expand scope line.text = .ok expanded) :
    ∃ blanks rest, expanded.toList = blanks ++ (line.keyword.toList ++ rest) ∧
      (∀ c ∈ blanks, Text.isBlank c = true) ∧
      (rest = [] ∨ ∃ c more, rest = c :: more ∧ Text.isBlank c = true) := by
  obtain ⟨blanks, rest, htext, hblanks, hrest⟩ := line.exists_around_keyword
  have hplain : ∀ c ∈ blanks ++ line.keyword.toList, c ≠ '$' :=
    List.forall_mem_append.mpr ⟨fun c hc => (Words.isOrdinary_of_isBlank (hblanks c hc)).2.2.2.2,
      Command.plain_of_mem_keywords hk⟩
  obtain rfl | ⟨c, more, rfl, hc⟩ := hrest
  · rw [← List.append_assoc] at htext
    obtain ⟨rest', hrest', hexpanded⟩ := Macro.toList_of_expand h htext hplain
    cases hrest'
    exact ⟨blanks, [], by simpa using hexpanded, hblanks, .inl rfl⟩
  · have hplain : ∀ d ∈ blanks ++ line.keyword.toList ++ [c], d ≠ '$' :=
      List.forall_mem_append.mpr
        ⟨hplain, List.forall_mem_singleton.mpr (Words.isOrdinary_of_isBlank hc).2.2.2.2⟩
    rw [← List.append_assoc, List.append_cons] at htext
    obtain ⟨rest', -, hexpanded⟩ := Macro.toList_of_expand h htext hplain
    exact ⟨blanks, c :: rest', by simpa using hexpanded, hblanks, .inr ⟨c, rest', rfl, hc⟩⟩

/-- A `print` line has its command once its macros are replaced. -/
theorem exists_parse_of_print {l : Line} (hprint : l.keyword = "print") {scope : Scope}
    {text : String} (h : Macro.expand scope l.text = .ok text) :
    ∃ printed, Command.parse text = .ok (.print printed) := by
  obtain ⟨blanks, rest, htext, hblanks, hrest⟩ :=
    around_keyword_expand (by rw [hprint]; decide) h
  rw [hprint] at htext
  exact Command.parse_print htext hblanks hrest

/-- **A known keyword names the command of its line.** -/
theorem commandOf_keyword {line : Line} (hk : line.keyword ∈ Command.keywords) {w w' : World}
    {c : Command} (h : commandOf line w = (.ok c, w')) :
    line.keyword ∈ c.names := by
  obtain ⟨hwhole, text, htext, hc⟩ | ⟨-, words, hwords, hc⟩ := commandOf_ok h
  -- a keyword without macros is expanded with its whole line only if it is `print`
  · have hprint : line.keyword = "print" := by
      simpa [expandsWhole, Command.hasMacro_of_mem_keywords hk] using hwhole
    obtain ⟨printed, hprinted⟩ := exists_parse_of_print hprint htext
    rw [hprint, Except.ok.inj (hc.symm.trans hprinted)]
    exact List.mem_singleton_self _
  · obtain ⟨first, more, rfl, rfl | hunknown⟩ := head_wordsOf hk hwords
    · exact Command.mem_names_of_ofKeyword hc
    · exact absurd (c.names_subset_keywords (Command.mem_names_of_ofKeyword hc)) hunknown

/-- A `foreach` line has no other command. -/
theorem commandOf_of_isForeach {line : Line} (hf : line.isForeach = true) {w w' : World}
    {c : Command} (h : commandOf line w = (.ok c, w')) : c = .foreach := by
  have hk : line.keyword = "foreach" := by simpa [Line.isForeach] using hf
  have hnames := commandOf_keyword (by rw [hk]; decide) h
  rw [hk] at hnames
  cases c <;> simp [Command.names] at hnames
  rfl

/-- A line that is no bracket of a loop has the command of one only through a macro. -/
theorem commandOf_of_plain {line : Line} (hadmitted : line.isAdmitted = true)
    (hplain : Line.hasMacro line.keyword = false) (hf : line.isForeach = false)
    (he : line.isEnd = false) {w w' : World} {c : Command}
    (h : commandOf line w = (.ok c, w')) : c ≠ .foreach ∧ c ≠ .end_ := by
  have hk : line.keyword ∈ Command.keywords := by simpa [Line.isAdmitted, hplain] using hadmitted
  have hnames := commandOf_keyword hk h
  constructor <;> rintro rfl
  · simp_all [Command.names, Line.isForeach]
  · simp_all [Command.names, Line.isEnd]

end Script

end TreeEdit
