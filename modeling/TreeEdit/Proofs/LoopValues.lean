import TreeEdit.Proofs.JsonReadBack
import TreeEdit.Proofs.LetterKeys
import TreeEdit.Proofs.OptionOrder
import TreeEdit.Proofs.Outcomes

/-!
# A loop value travels whole through a line

A collection that a loop runs over reaches a line of its body as text: it is written as JSON on one
line, put in the place of a macro in a single shell word, taken for the argument of the command, and
read again as a document given in place. `Script.wrapEach` is the script that does nothing else, and
whatever strings and keys the collections hold, they come out of it as they went in
(`Script.run_wrapEach`).

The shell has cut the line before the macro is replaced, so blanks and quotes in the value have no
say there. The text of a collection begins with a bracket or a brace, so it is no option, no file
and no stored document; and JSON is tried first where a document is given in place.
-/

namespace TreeEdit

/-! ## Words of a line -/

/-- A word that means nothing to the shell is cut off at the blank behind it. -/
theorem Words.scan_word {word : List Char}
    (h : ∀ c ∈ word, IsOrdinary c ∧ isSeparator c = false) (hne : word ≠ []) (rest : List Char) :
    scan .between [] (word ++ ' ' :: rest) = (scan .between [] rest).map (word :: ·) := by
  obtain ⟨c, cs, rfl⟩ := List.exists_cons_of_ne_nil hne
  obtain ⟨⟨hc, hsep⟩, hcs⟩ := List.forall_mem_cons.mp h
  rw [List.cons_append, scan_between_cons hc hsep, scan_word_append hcs, scan,
    if_pos (by decide : isSeparator ' ' = true)]
  simp

/-- Letters at the start of a line are its keyword, if a blank or nothing stands behind them. -/
theorem Line.keyword_of_letters {l : Line} {word rest : List Char}
    (htext : l.text.toList = word ++ rest) (hword : ∀ c ∈ word, Text.isLetter c = true)
    (hne : word ≠ []) (hrest : ∀ c ∈ rest.head?, Text.isBlank c = true) :
    l.keyword = String.ofList word := by
  have hdrop : (word ++ rest).dropWhile Text.isBlank = word ++ rest := by
    obtain ⟨c, cs, rfl⟩ := List.exists_cons_of_ne_nil hne
    exact List.dropWhile_cons_of_neg (by simp [Words.isBlank_of_isLetter (hword c (by simp))])
  have hkeep : ∀ c ∈ word, (! Text.isBlank c) = true := fun c hc => by
    rw [Words.isBlank_of_isLetter (hword c hc)]
    rfl
  have hstop : rest.takeWhile (! Text.isBlank ·) = [] := by
    cases rest with
    | nil => rfl
    | cons c rest => exact List.takeWhile_cons_of_neg (by simp [hrest c rfl])
  rw [keyword, Text.head?_words, htext, hdrop, List.takeWhile_append_of_pos hkeep, hstop,
    List.append_nil]

/-- A word that does not begin with a hyphen is an operand. -/
theorem Command.isOperand_of_head? {word : String} (h : word.toList.head? ≠ some '-') :
    IsOperand word := by
  have hne : ∀ {option : String}, option.toList.head? = some '-' → word ≠ option := by
    rintro option hoption rfl
    exact h hoption
  have hno : ∀ {start : List Char}, start.head? = some '-' → ¬ start <+: word.toList := by
    rintro start hstart ⟨rest, hrest⟩
    rw [← hrest, List.head?_append, hstart] at h
    exact h rfl
  exact ⟨hne (by decide), hne (by decide), hno (by decide), hno (by decide)⟩

/-- A word that does not begin with a hyphen is the content to insert. -/
theorem Command.ofWords_insert {key value : String} (h : value.toList.head? ≠ some '-') :
    ofWords ["yaml", "insert", "--yamlpath", key, value] =
      .ok (.yaml ⟨.insert, key, none, some value⟩) := by
  let parts : List Part := [.option .pattern ⟨.twoWords, key⟩, .operand value]
  have hpattern : (parts.filterMap (Part.setting? .pattern)).getLast? = some ⟨.twoWords, key⟩ := rfl
  have hoperands : ∀ w ∈ parts.filterMap Part.operand?, IsOperand w := by
    simpa [parts, Part.operand?] using isOperand_of_head? h
  exact ofWords_parts .insert hpattern hoperands

namespace Text

theorem closeLine_eq_reverse {line : List Char} (h : ∀ c ∈ line, c ≠ '\r') :
    closeLine line = line.reverse := by
  unfold closeLine
  split
  · exact absurd rfl (h '\r' (List.mem_cons_self ..))
  · rfl

/-- Characters that break no line go into the line under way. -/
theorem linesFrom_append {cs : List Char} (h : ∀ c ∈ cs, c ≠ '\n') (line rest : List Char) :
    linesFrom line (cs ++ rest) = linesFrom (cs.reverse ++ line) rest := by
  induction cs generalizing line with
  | nil => rfl
  | cons c cs ih =>
      obtain ⟨hc, hcs⟩ := List.forall_mem_cons.mp h
      rw [List.cons_append, linesFrom, ih hcs, List.reverse_cons, List.append_assoc,
        List.singleton_append]
      exact hc

/-- A line without a line feed or a carriage return is cut off at the line feed behind it. -/
theorem linesFrom_line {line : List Char} (h : ∀ c ∈ line, c ≠ '\n' ∧ c ≠ '\r')
    (rest : List Char) : linesFrom [] (line ++ '\n' :: rest) = line :: linesFrom [] rest := by
  rw [linesFrom_append (fun c hc => (h c hc).1), List.append_nil, linesFrom,
    closeLine_eq_reverse (fun c hc => (h c (List.mem_reverse.mp hc)).2), List.reverse_reverse]

end Text

namespace Script

open Run (Gives)

/-! ## The script -/

/-- The line that inserts the value of a loop at a key. -/
def insertText (key : String) : String :=
  "yaml insert --yamlpath " ++ key ++ " $\x7bBATCH::value\x7d"

/-- The script that puts every item of a sequence under a key in a mapping of its own. -/
def wrapEach (key : String) : String := "foreach\nmakeNewRoot\n" ++ insertText key ++ "\nend"

theorem toList_insertText (key : String) : (insertText key).toList =
    "yaml".toList ++ ' ' :: ("insert".toList ++ ' ' :: ("--yamlpath".toList ++
      ' ' :: (key.toList ++ ' ' :: "$\x7bBATCH::value\x7d".toList))) := by
  have hbefore : "yaml insert --yamlpath ".toList =
      "yaml".toList ++ ' ' :: ("insert".toList ++ ' ' :: ("--yamlpath".toList ++ [' '])) := by
    decide
  have hbehind : " $\x7bBATCH::value\x7d".toList = ' ' :: "$\x7bBATCH::value\x7d".toList := by
    decide
  unfold insertText
  rw [String.toList_append, String.toList_append, hbefore, hbehind]
  simp only [List.append_assoc, List.cons_append, List.nil_append]

theorem keyword_insertText (n : Nat) (key : String) :
    (⟨n, insertText key⟩ : Line).keyword = "yaml" := by
  have hkeyword : (⟨n, insertText key⟩ : Line).keyword = String.ofList "yaml".toList :=
    Line.keyword_of_letters (toList_insertText key) (List.all_iff_forall_prop.mp (by decide))
      (by decide) (by simp; decide)
  rw [hkeyword, String.ofList_toList]

/-- The key and the macro are words of the line, whatever the macro stands for. -/
theorem split_insertText {key : String} (hkey : ∀ c ∈ key.toList, Text.isLetter c = true)
    (hne : key ≠ "") : Words.split? (insertText key) =
      some ["yaml", "insert", "--yamlpath", key, "$\x7bBATCH::value\x7d"] := by
  have hplain : ∀ c ∈ key.toList, Words.IsOrdinary c ∧ Words.isSeparator c = false := fun c hc =>
    ⟨Words.isOrdinary_of_isLetter (hkey c hc), Words.isSeparator_of_isLetter (hkey c hc)⟩
  have hlast : Words.scan .between [] "$\x7bBATCH::value\x7d".toList =
      some ["$\x7bBATCH::value\x7d".toList] := by decide
  rw [Words.split?, toList_insertText,
    Words.scan_word (List.all_iff_forall_prop.mp (by decide)) (by decide),
    Words.scan_word (List.all_iff_forall_prop.mp (by decide)) (by decide),
    Words.scan_word (List.all_iff_forall_prop.mp (by decide)) (by decide),
    Words.scan_word hplain (by simpa using hne), hlast]
  simp

/-- The lines of the script. -/
def wrapLines (key : String) : List Line :=
  [⟨1, "foreach"⟩, ⟨2, "makeNewRoot"⟩, ⟨3, insertText key⟩, ⟨4, "end"⟩]

/-- The body of its loop. -/
def wrapBody (key : String) : List Block :=
  [.command ⟨2, "makeNewRoot"⟩ (by decide),
    .command ⟨3, insertText key⟩ (by simp [Line.isForeach, Line.isEnd, keyword_insertText])]

/-- The line breaks nowhere, and neither begins nor ends with a blank. -/
theorem insertText_unbroken {key : String} (hkey : ∀ c ∈ key.toList, Text.isLetter c = true) :
    (∀ c ∈ (insertText key).toList, c ≠ '\n' ∧ c ≠ '\r') ∧
      Text.trim (insertText key) = insertText key := by
  constructor
  · simp only [toList_insertText, List.forall_mem_append, List.forall_mem_cons]
    refine ⟨List.all_iff_forall_prop.mp ?_, ?_, List.all_iff_forall_prop.mp ?_, ?_,
      List.all_iff_forall_prop.mp ?_, ?_, fun c hc => ?_, ?_, List.all_iff_forall_prop.mp ?_⟩
    case refine_7 =>
      exact ⟨Text.ne_of_isLetter (hkey c hc) rfl, Text.ne_of_isLetter (hkey c hc) rfl⟩
    all_goals decide
  · have hlast : (insertText key).toList.getLast? = some '\x7d' := by
      unfold insertText
      have hbehind : " $\x7bBATCH::value\x7d".toList.getLast? = some '\x7d' := by decide
      rw [String.toList_append, List.getLast?_append, hbehind, Option.some_or]
    refine Text.trim_eq_self (fun c hc => ?_) (fun c hc => ?_)
    · rw [toList_insertText] at hc
      obtain rfl : 'y' = c := Option.some.inj hc
      decide
    · rw [hlast] at hc
      obtain rfl : '\x7d' = c := Option.some.inj hc
      decide

theorem toList_wrapEach (key : String) : (wrapEach key).toList =
    "foreach".toList ++ '\n' :: ("makeNewRoot".toList ++ '\n' :: ((insertText key).toList ++
      '\n' :: "end".toList)) := by
  have hbefore : "foreach\nmakeNewRoot\n".toList =
      "foreach".toList ++ '\n' :: ("makeNewRoot".toList ++ ['\n']) := by decide
  have hbehind : "\nend".toList = '\n' :: "end".toList := by decide
  unfold wrapEach
  rw [String.toList_append, String.toList_append, hbefore, hbehind]
  simp only [List.append_assoc, List.cons_append, List.nil_append]

theorem lines_wrapEach {key : String} (hkey : ∀ c ∈ key.toList, Text.isLetter c = true) :
    Text.lines (wrapEach key) = ["foreach", "makeNewRoot", insertText key, "end"] := by
  have hend : Text.linesFrom [] "end".toList = ["end".toList] := by decide
  rw [Text.lines, toList_wrapEach, Text.linesFrom_line (List.all_iff_forall_prop.mp (by decide)),
    Text.linesFrom_line (List.all_iff_forall_prop.mp (by decide)),
    Text.linesFrom_line (insertText_unbroken hkey).1, hend]
  simp

/-- No line of the script is left out as blank or as a comment. -/
theorem linesOf_wrapEach {key : String} (hkey : ∀ c ∈ key.toList, Text.isLetter c = true) :
    linesOf (wrapEach key) = wrapLines key := by
  have hnumbered :
      numbered 1 ["foreach", "makeNewRoot", insertText key, "end"] = wrapLines key := by
    have hforeach : Text.trim "foreach" = "foreach" := by decide
    have hroot : Text.trim "makeNewRoot" = "makeNewRoot" := by decide
    have hend : Text.trim "end" = "end" := by decide
    simp only [numbered, (insertText_unbroken hkey).2, hforeach, hroot, hend, wrapLines]
  have hkept : isKept ⟨3, insertText key⟩ = true := by
    have hhead : (insertText key).toList.head? = some 'y' := by
      rw [toList_insertText]
      rfl
    have hne : insertText key ≠ "" := by
      intro heq
      rw [heq] at hhead
      cases hhead
    simp [isKept, hne, hhead]
  rw [linesOf, lines_wrapEach hkey, hnumbered, List.filter_eq_self]
  simp only [wrapLines, List.forall_mem_cons]
  exact ⟨by decide, by decide, hkept, by decide, by simp⟩

/-- **The script is accepted**, with its four lines. -/
theorem parse_wrapEach {key : String} (hkey : ∀ c ∈ key.toList, Text.isLetter c = true) :
    parse (wrapEach key) = .ok ⟨wrapLines key⟩ := by
  have hadmitted : ∀ l ∈ wrapLines key, l.isAdmitted = true := by
    simp only [wrapLines, List.forall_mem_cons, List.not_mem_nil, false_implies, implies_true,
      and_true]
    refine ⟨by decide, by decide, ?_, by decide⟩
    rw [Line.isAdmitted, keyword_insertText]
    decide
  exact parse_eq_ok_iff.mpr ⟨(linesOf_wrapEach hkey).symm, checkKeywords_eq_ok_iff.mpr hadmitted,
    Block.checkBalance_eq_ok_iff.mpr
      ⟨[.loop ⟨1, "foreach"⟩ (by decide) (wrapBody key) ⟨4, "end"⟩ (by decide)], rfl⟩⟩

/-! ## The run -/

/-- A macro for the value of the loop is replaced by it. -/
theorem expand_value {scope : Scope} {value : String}
    (h : scope "BATCH" "value" = some value) :
    Macro.expand scope "$\x7bBATCH::value\x7d" = .ok value := by
  have hchars : Macro.expandChars scope 0 "$\x7bBATCH::value\x7d".toList =
      (Macro.resolve scope ⟨false, "BATCH".toList, "value".toList⟩).bind
        fun value => .ok (value ++ []) := by
    rfl
  have hresolve : Macro.resolve scope ⟨false, "BATCH".toList, "value".toList⟩ =
      .ok value.toList := by
    have hkey : Text.trimChars "value".toList = "value".toList := by decide
    simp only [Macro.resolve, String.ofList_toList, hkey, h]
  rw [Macro.expand, hchars, hresolve]
  simp [Except.bind, Except.map]

/-- The words of the line in a turn whose value is a text. -/
theorem wordsOf_insertText {key : String} (hkey : ∀ c ∈ key.toList, Text.isLetter c = true)
    (hne : key ≠ "") {scope : Scope} {value : String}
    (h : scope "BATCH" "value" = some value) :
    wordsOf scope ⟨3, insertText key⟩ = .ok ["yaml", "insert", "--yamlpath", key, value] := by
  have hplain : ∀ word : String, (word.toList.all fun c => c ≠ '$') = true →
      Macro.expand scope word = .ok word := fun _ hword =>
    Macro.expand_of_plain (List.all_iff_forall_prop.mp hword)
  have hletters : ∀ c ∈ key.toList, c ≠ '$' := fun c hc => Text.ne_of_isLetter (hkey c hc) rfl
  simp only [wordsOf, split_insertText hkey hne, List.mapM_cons, List.mapM_nil,
    hplain "yaml" (by decide), hplain "insert" (by decide), hplain "--yamlpath" (by decide),
    Macro.expand_of_plain hletters, expand_value h]
  rfl

/-- What a collection's text stands for where a document is given in place. -/
theorem gives_load {P : Context → Prop} {t : Tree} {text : String}
    (hhead : text.toList.head? = some '[' ∨ text.toList.head? = some '\x7b')
    (hparse : Json.parse text = .ok t) : Gives P (Run.load text) (.ok t) P := by
  -- a text that begins so names neither a file nor a stored document
  have hinline : Reference.ofText text = .inline text := by
    unfold Reference.ofText
    split <;> rename_i htext
    all_goals first | rfl | (rw [htext] at hhead; simp at hhead)
  have hread : ∀ d, parseInline d text = t := by
    intro d
    simp [parseInline, hparse, Except.toOption]
  refine .context_bind fun c _ => ?_
  rw [hinline]
  dsimp only
  rw [hread]
  exact .pure t

/-- Inserting at a key gives what reading the key as a pattern allows. -/
theorem gives_runYaml {P : Context → Prop} (hP : ∀ c, P c → c.delimiter = ".") {key text : String}
    {v : Tree} (hkey : ∀ c ∈ key.toList, Text.isLetter c = true) (hne : key ≠ "")
    (hload : Gives P (Run.load text) (.ok v) P) :
    Gives P (runYaml ⟨.insert, key, none, some text⟩ (.mapping []))
      ((patternOf key ".").map fun _ => .singleton key v) P := by
  refine .context_bind fun c hc => ?_
  have hdelimiter : (none : Option String).getD c.delimiter = "." := hP c hc
  dsimp only
  rw [hdelimiter, patternOf, Pattern.compile_letters hkey hne]
  by_cases hsize : Regex.maxSize < 32 * (key.length + 6)
  · rw [if_pos hsize]
    exact .bind_error (.ofExcept _)
  · rw [if_neg hsize]
    have hverb : Gives P (verbOf ⟨.insert, key, none, some text⟩) (.ok (.insert v)) P :=
      .bind hload (.pure _)
    refine .bind (.ofExcept _) (.bind hverb (.context_bind fun c' _ => .bind (.tellAll _) ?_))
    rw [Segment.ofLetters, Verb.insert_into_empty]
    exact .ofExcept _

/-- The context of a turn in which the macro for the value stands for a text. -/
def InTurn (text : String) (c : Context) : Prop :=
  c.delimiter = "." ∧ c.scope "BATCH" "value" = some text

section

variable {key : String} (hkey : ∀ c ∈ key.toList, Text.isLetter c = true) (hne : key ≠ "")
  (base : Level) (runScript : List Line → Tree → Run Tree)

include hkey hne

/-- The body of the loop gives what the text stands for under the key, or refuses the key. -/
theorem gives_wrapBody {text : String} {v : Tree}
    (hhead : text.toList.head? = some '[' ∨ text.toList.head? = some '\x7b')
    (hparse : Json.parse text = .ok v) (input : Tree) :
    Gives (InTurn text) (runLines (execute base runScript) (Block.linesOf (wrapBody key)) input)
      (((patternOf key ".").map fun _ => .singleton key v).mapError (.atLine 3 (insertText key)))
      (InTurn text) := by
  have hmake : Gives (InTurn text) (commandOf ⟨2, "makeNewRoot"⟩) (.ok (.makeNewRoot none))
      (InTurn text) :=
    gives_commandOf_of_plain (by decide)
      (show Words.split? "makeNewRoot" = some ["makeNewRoot"] by decide) (by decide) rfl
  have hroot : Gives (InTurn text)
      (runCommand (execute base runScript) ⟨2, "makeNewRoot"⟩ input) (.ok (.mapping []))
      (InTurn text) := gives_runCommand hmake (by decide) (.pure _)
  -- the text begins with a bracket or a brace, so the command does not take it for an option
  have hoption : text.toList.head? ≠ some '-' := by
    rcases hhead with h | h <;> rw [h] <;> decide
  have hyaml : Gives (InTurn text) (commandOf ⟨3, insertText key⟩)
      (.ok (.yaml ⟨.insert, key, none, some text⟩)) (InTurn text) := by
    refine gives_commandOf ?_ (fun context h => wordsOf_insertText hkey hne h.2)
      (Command.ofWords_insert hoption)
    rw [expandsWhole, keyword_insertText]
    decide
  have hinsert : Gives (InTurn text)
      (runCommand (execute base runScript) ⟨3, insertText key⟩ (.mapping []))
      ((patternOf key ".").map fun _ => .singleton key v) (InTurn text) :=
    gives_runCommand hyaml ⟨Command.noConfusion, Command.noConfusion⟩
      (gives_runYaml (fun _ h => h.1) hkey hne (gives_load hhead hparse))
  have hplain : Line.isForeach ⟨3, insertText key⟩ = false ∧
      Line.isEnd ⟨3, insertText key⟩ = false := by
    simp [Line.isForeach, Line.isEnd, keyword_insertText]
  show Gives _ (runLines _ [⟨2, "makeNewRoot"⟩, ⟨3, insertText key⟩] input) _ _
  rw [runLines_command (by decide)]
  refine .bind (.atLine _ hroot) ?_
  rw [runLines_singleton hplain]
  exact .atLine _ hinsert

/-- **A turn of the script gives the item under the key**, or refuses the key. -/
theorem gives_turn_wrapBody {v : Tree} (hcollection : v.isScalar = false)
    (hexact : Json.isExact v = true) (hdepth : v.nesting < Json.maxDepth) (index : Nat)
    (name : String) :
    Gives (·.delimiter = ".")
      (turn (runLines (execute base runScript) (Block.linesOf (wrapBody key))) index (name, v))
      (((patternOf key ".").map fun _ => .singleton key v).mapError (.atLine 3 (insertText key)))
      (·.delimiter = ".") := by
  obtain ⟨text, htext, hparse⟩ := Json.parse_compact hexact hdepth
  have hplain : v.plainText = .ok text := by
    have hnone : v.text? = none := by
      rw [← Option.not_isSome_iff_eq_none, Tree.isSome_text?, hcollection]
      exact Bool.false_ne_true
    rw [Tree.plainText, hnone]
    exact htext
  have henter : Gives (·.delimiter = ".")
      (Run.changeContext (·.enterIteration index name text)) (.ok ()) (InTurn text) := by
    refine .changeContext fun c hc => ⟨hc, ?_⟩
    simp [Context.scope, Context.enterIteration, Context.iteration, Dictionary.get?]
  have hbody :=
    gives_wrapBody hkey hne base runScript (Json.head?_compact htext hcollection) hparse v
  rw [turn, hplain]
  exact .bind (.ofExcept _) (.bind henter (hbody.weaken fun _ h => h.1))

end

/-- The script gives what its loop gives. -/
theorem run_wrapEach_of_loop {key : String} (hkey : ∀ c ∈ key.toList, Text.isLetter c = true)
    {P : Context → Prop} {input : Tree} {outcome : Except Error Tree}
    (hloop : ∀ base runScript, Gives P
      (loop (runLines (execute base runScript) (Block.linesOf (wrapBody key))) input) outcome
      fun _ => True)
    {w : World} (hw : P w.context) :
    ∃ script, parse (wrapEach key) = .ok script ∧
      (run maxDepth script input w).1 = outcome.mapError (.atLine 1 "foreach") := by
  obtain ⟨depth, hmax⟩ : ∃ depth, maxDepth = depth + 1 := ⟨_, rfl⟩
  have hlines : wrapLines key =
      ⟨1, "foreach"⟩ :: (Block.linesOf (wrapBody key) ++ ⟨4, "end"⟩ :: []) := rfl
  have hforeach : Gives P (commandOf ⟨1, "foreach"⟩) (.ok .foreach) P :=
    gives_commandOf_of_plain (by decide)
      (show Words.split? "foreach" = some ["foreach"] by decide) (by decide) rfl
  refine ⟨_, parse_wrapEach hkey, run_of_gives (fun base => ?_) hw⟩
  rw [hmax, runNested, hlines, runLines_loop (by decide) (by decide), runLines_nil, bind_pure]
  exact .atLine _ (.bind hforeach (hloop base _))

/-- A key that is too long for its pattern is refused in the first turn. -/
theorem run_wrapEach_too_long {key : String} (hkey : ∀ c ∈ key.toList, Text.isLetter c = true)
    (hlength : 327674 < key.length) {v : Tree} (hcollection : v.isScalar = false)
    (hexact : Json.isExact v = true) (hdepth : v.nesting < Json.maxDepth) (vs : List Tree)
    {w : World} (hw : w.context.delimiter = ".") :
    ∃ script, parse (wrapEach key) = .ok script ∧
      (run maxDepth script (.sequence (v :: vs)) w).1 =
        .error (.atLine 1 "foreach" (.atLine 3 (insertText key)
          (.pattern ⟨key, .regex key .tooLarge⟩))) := by
  have hne : key ≠ "" := by
    rintro rfl
    exact absurd hlength (by decide)
  have hpattern : patternOf key "." = .error (.pattern ⟨key, .regex key .tooLarge⟩) := by
    have hsize : Regex.maxSize < 32 * (key.length + 6) := by
      rw [Regex.maxSize]
      omega
    rw [patternOf, Pattern.compile_letters hkey hne, if_pos hsize]
  have hloop : ∀ base runScript, Gives (·.delimiter = ".")
      (loop (runLines (execute base runScript) (Block.linesOf (wrapBody key)))
        (.sequence (v :: vs)))
      (.error (.atLine 3 (insertText key) (.pattern ⟨key, .regex key .tooLarge⟩)))
      fun _ => True := by
    intro base runScript
    have hturn := gives_turn_wrapBody hkey hne base runScript hcollection hexact hdepth
    rw [hpattern] at hturn
    exact gives_loop_error (fun _ h => h) fun name index => hturn index name
  exact run_wrapEach_of_loop hkey hloop hw

/--
**A loop value travels whole through a line.** The script puts every collection of a sequence under
the key, whatever strings and keys it holds: the collection is written into the line, taken for one
word and for an argument of the command, and read again, and is what it was. The key may be as long
as the pattern that it makes.
-/
theorem run_wrapEach {key : String} (hkey : ∀ c ∈ key.toList, Text.isLetter c = true)
    (hne : key ≠ "") (hlength : key.length ≤ 327674) {vs : List Tree}
    (hvs : ∀ v ∈ vs, v.isScalar = false ∧ Json.isExact v = true ∧ v.nesting < Json.maxDepth)
    {w : World} (hw : w.context.delimiter = ".") :
    ∃ script, parse (wrapEach key) = .ok script ∧
      (run maxDepth script (.sequence vs) w).1 =
        .ok (.sequence (vs.map (Tree.singleton key))) := by
  have hpattern : patternOf key "." = .ok ⟨key, ".", [.ofLetters key]⟩ := by
    have hsize : ¬ Regex.maxSize < 32 * (key.length + 6) := by
      rw [Regex.maxSize]
      omega
    rw [patternOf, Pattern.compile_letters hkey hne, if_neg hsize]
  have hloop : ∀ base runScript, Gives (·.delimiter = ".")
      (loop (runLines (execute base runScript) (Block.linesOf (wrapBody key))) (.sequence vs))
      (.ok (.sequence (vs.map (Tree.singleton key)))) fun _ => True := by
    intro base runScript
    refine gives_loop (fun _ h => h) fun v hv name index => ?_
    obtain ⟨hcollection, hexact, hdepth⟩ := hvs v hv
    have hturn := gives_turn_wrapBody hkey hne base runScript hcollection hexact hdepth
    rw [hpattern] at hturn
    exact hturn index name
  exact run_wrapEach_of_loop hkey hloop hw

/-- Strings and keys that would mean something to the shell, to macros or to the command. -/
theorem run_wrapEach_signs :
    let key := "Infinity"
    let vs : List Tree :=
      [.sequence [.string "a b\n\"c\" \\ 'd' # e", .string "$\x7bBATCH::value\x7d", .null],
        .mapping [(.string "@file", .string "!name"), (.string "--yamlpath", .sequence []),
          (.string "", .mapping [(.string "=", .bool true)])]]
    (∀ c ∈ key.toList, Text.isLetter c = true) ∧ key ≠ "" ∧ key.length ≤ 327674 ∧
      (∀ v ∈ vs, v.isScalar = false ∧ Json.isExact v = true ∧ v.nesting < Json.maxDepth) ∧
      ∃ script, parse (wrapEach key) = .ok script ∧
        (run maxDepth script (.sequence vs) {}).1 =
          .ok (.sequence (vs.map (Tree.singleton key))) := by
  intro key vs
  have hkey : ∀ c ∈ key.toList, Text.isLetter c = true := List.all_eq_true.mp (by decide)
  have hvs : ∀ v ∈ vs, v.isScalar = false ∧ Json.isExact v = true ∧ v.nesting < Json.maxDepth := by
    decide +kernel
  exact ⟨hkey, by decide, by decide, hvs, run_wrapEach hkey (by decide) (by decide) hvs rfl⟩

/-- A key of half a million letters is too long, whatever the loop runs over. -/
theorem run_wrapEach_long_key :
    let key := String.ofList (List.replicate 500000 'a')
    let v : Tree := .sequence [.sequence []]
    (∀ c ∈ key.toList, Text.isLetter c = true) ∧ key ≠ "" ∧
      v.isScalar = false ∧ Json.isExact v = true ∧ v.nesting ≤ 100 ∧
      ¬ ∃ script, parse (wrapEach key) = .ok script ∧
        (run maxDepth script (.sequence [v]) {}).1 = .ok (.sequence [.singleton key v]) := by
  intro key v
  have hlength : key.length = 500000 := by
    rw [← String.length_toList, String.toList_ofList, List.length_replicate]
  have hkey : ∀ c ∈ key.toList, Text.isLetter c = true := by
    intro c hc
    rw [String.toList_ofList] at hc
    rw [List.eq_of_mem_replicate hc]
    decide
  have hne : key ≠ "" := by
    intro heq
    rw [heq] at hlength
    exact absurd hlength (by decide)
  refine ⟨hkey, hne, rfl, by decide, by decide, ?_⟩
  rintro ⟨script, hparse, hrun⟩
  obtain ⟨script', hparse', hrun'⟩ :=
    run_wrapEach_too_long hkey (by omega) (v := v) rfl (by decide) (by decide) [] (w := {}) rfl
  obtain rfl : script = script' := Except.ok.inj (hparse.symm.trans hparse')
  rw [hrun'] at hrun
  cases hrun

end Script

end TreeEdit
