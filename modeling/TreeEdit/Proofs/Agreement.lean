import TreeEdit.Proofs.Brackets
import TreeEdit.Proofs.Lookups
import TreeEdit.Proofs.OptionOrder

/-!
# Two ways to a verb

A verb is applied to a document by the command line and by the `yaml` command of scripts. The one
has its arguments told apart already and looks at content and columns before it reads the pattern;
the other scans words for options and reads the pattern first. So the two may fail differently, but
they give the same results: each succeeds if the pattern can be read, the verb can be made and the
verb can be applied to the document, in whichever order (`Session.onDocument_ok_iff`,
`Script.runYaml_ok_iff`).

Words are scanned one by one, and the word behind an option is its value whatever it looks like.
Only an operand must not look like an option (`Command.IsOperand`).
-/

namespace TreeEdit

/-! ## From words to a command -/

namespace Command

/-- The operand of a verb, if it has one. -/
def operandOf (verb : VerbName) (argument : String) : Option String :=
  if verb.takesArgument then some argument else none

/-- The words that name a verb, its pattern and its delimiter, with its operand if it has one. -/
def wordsOf (verb : VerbName) (pattern delimiter argument : String) : List String :=
  "yaml" :: verb.text :: "--yamlpath" :: pattern :: "--delimiter" :: delimiter ::
    (operandOf verb argument).toList

/-- **Such words are read as they are meant.** -/
theorem ofWords_wordsOf (verb : VerbName) (pattern delimiter : String) {argument : String}
    (h : IsOperand argument) : ofWords (wordsOf verb pattern delimiter argument) =
      .ok (.yaml ⟨verb, pattern, some delimiter, operandOf verb argument⟩) := by
  let parts : List Part := .option .pattern ⟨.twoWords, pattern⟩ ::
    .option .delimiter ⟨.twoWords, delimiter⟩ :: (operandOf verb argument).toList.map .operand
  have hwords : wordsOf verb pattern delimiter argument =
      "yaml" :: verb.text :: parts.flatMap Part.words := by
    cases verb <;> rfl
  have hoperands : ∀ w ∈ parts.filterMap Part.operand?, IsOperand w := by
    cases verb <;> simp [parts, operandOf, VerbName.takesArgument, Part.operand?, h]
  have hpattern : (parts.filterMap (Part.setting? .pattern)).getLast? =
      some ⟨.twoWords, pattern⟩ := by
    cases verb <;> rfl
  rw [hwords, ofWords_parts verb hpattern hoperands]
  cases verb <;> rfl

end Command

/-! ## What a verb needs -/

namespace Script

/-- A `yaml` command succeeds if there are a pattern and a verb, and the verb can be applied. -/
theorem runYaml_ok_iff {c : YamlCommand} {t x : Tree} {w : World} :
    (runYaml c t w).1 = .ok x ↔ ∃ p v,
      patternOf c.pattern (c.delimiter.getD w.context.delimiter) = .ok p ∧
        (verbOf c w).1 = .ok v ∧ v.apply p w.context.listDelimiter t = .ok x := by
  have hverb (p : Pattern) : Lookup (verbOf c >>= fun v => applyVerb v p t) :=
    .bind (.verbOf c) fun v => .applyVerb v p t
  have hrun : (runYaml c t w).1 =
      ((Run.ofExcept (patternOf c.pattern (c.delimiter.getD w.context.delimiter)) >>= fun p =>
        verbOf c >>= fun v => applyVerb v p t) w).1 := rfl
  rw [hrun, Lookup.bind_ok_iff (.ofExcept _) hverb]
  refine exists_congr fun p => ?_
  rw [Lookup.bind_ok_iff (.verbOf c) fun v => .applyVerb v p t]
  simp only [applyVerb_fst, Run.ofExcept, ← exists_and_left]

end Script

namespace CommandLine.Session

open Script (patternOf applyVerb applyVerb_fst)

/--
**The command line and commands make the same verbs**, from the same arguments. Without columns
there is none, and only the words for that differ.
-/
theorem verbOf_ok_iff {e : Edit} {w : World} {v : Verb} : (verbOf e w).1 = .ok v ↔
    (Script.verbOf ⟨e.verb, e.pattern, none, e.argument⟩ w).1 = .ok v := by
  have hpure (u : Verb) : ((pure u : Session Verb) w).1 = .ok v ↔
      ((pure u : Run Verb) w).1 = .ok v := by
    constructor <;> intro h <;> cases h <;> rfl
  unfold verbOf Script.verbOf
  cases e.verb with
  | read | list | delete => exact hpure _
  | insert | replace =>
      dsimp only
      rw [Lookup.bind_ok_iff (.ofRun (.load _)) fun _ => .pure _,
        Lookup.bind_ok_iff (.load _) fun _ => .pure _]
      simp only [ofRun_fst_ok_iff, hpure]
  | table =>
      dsimp only
      split
      · constructor <;> intro h <;> cases h
      · exact hpure _

theorem prepare_ok_iff {e : Edit} {w : World} {v : Verb} {p : Pattern} :
    (prepare e w).1 = .ok (v, p) ↔
      (Script.verbOf ⟨e.verb, e.pattern, none, e.argument⟩ w).1 = .ok v ∧
        patternOf e.pattern w.context.delimiter = .ok p := by
  have hpattern : Lookup (ofRun do
      Run.ofExcept (patternOf e.pattern (← Run.context).delimiter)) :=
    .ofRun (.bind .context fun _ => .ofExcept _)
  rw [prepare, Lookup.bind_ok_iff (lookup_verbOf e) fun _ => .bind hpattern fun _ => .pure _]
  simp only [Lookup.bind_ok_iff hpattern fun _ => .pure _, verbOf_ok_iff, ofRun_fst_ok_iff]
  constructor
  · rintro ⟨v', hv, p', hp, h⟩
    cases h
    exact ⟨hv, hp⟩
  · rintro ⟨hv, hp⟩
    exact ⟨v, hv, p, hp, rfl⟩

/-- What an edit makes of a document. -/
def onDocument (e : Edit) (t : Tree) : Session Tree := do
  let (verb, p) ← prepare e
  ofRun (applyVerb verb p t)

theorem onDocument_ok_iff {e : Edit} {t x : Tree} {w : World} :
    (onDocument e t w).1 = .ok x ↔ ∃ p v, patternOf e.pattern w.context.delimiter = .ok p ∧
      (Script.verbOf ⟨e.verb, e.pattern, none, e.argument⟩ w).1 = .ok v ∧
        v.apply p w.context.listDelimiter t = .ok x := by
  rw [onDocument, Lookup.bind_ok_iff (lookup_prepare e) fun (v, p) => .ofRun (.applyVerb v p t)]
  constructor
  · rintro ⟨⟨v, p⟩, hprepare, h⟩
    obtain ⟨hv, hp⟩ := prepare_ok_iff.mp hprepare
    refine ⟨p, v, hp, hv, ?_⟩
    rw [← applyVerb_fst]
    exact ofRun_fst_ok_iff.mp h
  · rintro ⟨p, v, hp, hv, h⟩
    rw [← applyVerb_fst] at h
    exact ⟨(v, p), prepare_ok_iff.mpr ⟨hv, hp⟩, ofRun_fst_ok_iff.mpr h⟩

/-- **What an edit gives is what it makes of the document that it reads.** -/
theorem result_ok_iff {standardInput : StandardInput} {e : Edit} {x : Tree} {w : World} :
    (result standardInput e w).1 = .ok x ↔ ∃ t,
      (readInput standardInput e.input w).1 = .ok t ∧ (onDocument e t w).1 = .ok x := by
  have happly (v : Verb) (p : Pattern) (t : Tree) : Lookup (ofRun (applyVerb v p t)) :=
    .ofRun (.applyVerb v p t)
  have hread (v : Verb) (p : Pattern) :
      Lookup (readInput standardInput e.input >>= fun t => ofRun (applyVerb v p t)) :=
    .bind (lookup_readInput standardInput e.input) (happly v p)
  simp only [onDocument, Lookup.bind_ok_iff (lookup_prepare e) fun vp => happly vp.1 vp.2 _]
  rw [result, Lookup.bind_ok_iff (lookup_prepare e) fun vp => hread vp.1 vp.2]
  constructor
  · rintro ⟨vp, hprepare, h⟩
    obtain ⟨t, ht, h⟩ :=
      (Lookup.bind_ok_iff (lookup_readInput standardInput e.input) (happly vp.1 vp.2)).mp h
    exact ⟨t, ht, vp, hprepare, h⟩
  · rintro ⟨t, ht, vp, hprepare, h⟩
    refine ⟨vp, hprepare, ?_⟩
    exact (Lookup.bind_ok_iff (lookup_readInput standardInput e.input) (happly vp.1 vp.2)).mpr
      ⟨t, ht, h⟩

/-! ## Both ways give the same -/

/-- What has been set up for commands is what settings say, and no document has been stored. -/
structure SetUp (s : Settings) (files : Files) (w : World) : Prop where
  files : w.files = files
  baseDir : w.context.baseDir = ""
  store : w.context.store = []
  dialect : w.context.dialect = s.dialect
  listDelimiter : w.context.listDelimiter = s.listDelimiter

/-- A job starts so. -/
theorem setUp_world (s : Settings) (environment : Dictionary String) (files : Files) :
    SetUp s files (s.world environment files) :=
  ⟨rfl, rfl, rfl, rfl, rfl⟩

/--
**The command line and scripts agree.** The words for a verb, a pattern and the delimiter of the
settings, with an operand if the verb has one, are a command. On every document it gives a result if
and only if an edit with the same arguments does, and then the same one.
-/
theorem onDocument_ok_iff_execute (s : Settings) (environment : Dictionary String) (files : Files)
    (verb : VerbName) (pattern input output : String) (json : Bool) {argument : String}
    (hargument : Command.IsOperand argument) {w : World} (hw : SetUp s files w) (base : Level)
    (runScript : List Line → Tree → Run Tree) (t : Tree) :
    let e : Edit := ⟨verb, pattern, Command.operandOf verb argument, input, output, json⟩
    ∃ c, Command.ofWords (Command.wordsOf verb pattern s.delimiter argument) = .ok c ∧
      ∀ x, (Script.execute base runScript c t w).1 = .ok x ↔
        (onDocument e t (s.world environment files)).1 = .ok x := by
  intro e
  refine ⟨_, Command.ofWords_wordsOf verb pattern s.delimiter hargument, fun x => ?_⟩
  have hload (reference : String) :
      (Run.load reference w).1 = (Run.load reference (s.world environment files)).1 :=
    Run.load_congr hw.files hw.baseDir hw.dialect hw.store reference
  have hverb (c : YamlCommand) : (Script.verbOf c w).1 =
      (Script.verbOf c (s.world environment files)).1 := Script.verbOf_congr c hload
  rw [Script.execute, Script.runYaml_ok_iff, onDocument_ok_iff, hverb, hw.listDelimiter]
  rfl

/-- Content that begins like an option is content in both ways, and both insert it. -/
theorem onDocument_ok_iff_execute_dashes :
    let s : Settings := ⟨"/", ",", .tagged, .off⟩
    let e : Edit := ⟨.insert, "a/b", some "--x", "-", "-", false⟩
    let words := ["yaml", "insert", "--yamlpath", "a/b", "--delimiter", "/", "--x"]
    let runScript : List Line → Tree → Run Tree := fun _ _ => throw .tooDeep
    Command.IsOperand "--x" ∧ SetUp s .empty {} ∧ ∃ c x, Command.ofWords words = .ok c ∧
      (Script.execute .off runScript c (.mapping []) {}).1 = .ok x ∧
      (onDocument e (.mapping []) (s.world [] .empty)).1 = .ok x := by
  intro s e words runScript
  have hoperand : Command.IsOperand "--x" := ⟨by decide, by decide, by decide, by decide⟩
  have hsetUp : SetUp s .empty {} := ⟨rfl, rfl, rfl, rfl, rfl⟩
  obtain ⟨c, hc, hsame⟩ := onDocument_ok_iff_execute s [] .empty .insert "a/b" "-" "-" false
    hoperand hsetUp .off runScript (.mapping [])
  have hinserts : (onDocument e (.mapping []) (s.world [] .empty)).1.isOk = true := by
    decide +kernel
  cases hx : (onDocument e (.mapping []) (s.world [] .empty)).1 with
  | error f =>
      rw [hx] at hinserts
      cases hinserts
  | ok x => exact ⟨hoperand, hsetUp, c, x, hc, (hsame x).mpr hx, rfl⟩

end CommandLine.Session

end TreeEdit
