import TreeEdit.Proofs.Kept

/-!
# What a run gives back and what it changes

Commands are not known before a run, since macros make them, and loops and other scripts decide how
often a line is run. So what a run does is said in terms of the lines that it comes to:
`ComesTo … m` holds of every `Moment` at which a line is about to be run. It follows the run into
turns of loops and into other scripts, and is no run of its own: from one line to the next the world
is what the steps of the run make of it.

* In a script in a file, relative paths start at the directory of the file, at every line
  (`ComesTo.baseDir_eq`).
* What a context holds at the end and did not hold before was put there by the command of a line
  that the run came to (`ChangedBy`).

With `Context.lent` and the level of records, which are given back, that is all that a run does to
the settings and values that commands share (`runFrom_gives_back`).
-/

namespace TreeEdit

namespace Script

/-! ## The lines that a run comes to -/

/-- A line that is about to be run. -/
structure Moment where
  /-- the path of the script, if it was found in a file by another one -/
  file : Option String
  line : Line
  input : Tree
  world : World

/-- The command of the line, if it can be built. -/
def Moment.command? (m : Moment) : Option Command := (commandOf m.line m.world).1.toOption

/-- The script that a command refers to, and the path where it is found. -/
def scriptOf (reference : String) : Run (String × Script) := do
  let path := (Text.dropPrefix? ['@'] reference.toList).elim reference String.ofList
  let path := (← Run.context).resolvePath path
  let script ← load path
  Run.tell (.info ("Running sub-script '" ++ path ++ "'"))
  return (path, script)

/-- The directory of a script in a file. -/
def directoryOf (path : String) : String := (Path.parent? path).getD ""

/-- The context in which the script at a path is run. -/
def enterFile (path : String) (c : Context) : Context := { c with baseDir := directoryOf path }

/-- The context in which the turns of a loop are run. -/
def enterLoop (c : Context) : Context := { c with loopScope := [] }

theorem runFile_eq (runScript : List Line → Tree → Run Tree) (reference : String) (input : Tree) :
    runFile runScript reference input = scriptOf reference >>= fun s =>
      Run.lending (enterFile s.1) restoreBase (runScript s.2.lines input) := by
  simp only [runFile, scriptOf, bind_assoc, pure_bind]
  rfl

/-- A turn of a loop starts, with an item and in a world. -/
inductive TurnStarts (body : Tree → Run Tree) :
    (index : Nat) → List (String × Tree) → World → (item : Tree) → World → Prop where
  | here {index : Nat} {key value : String} {item : Tree} {rest : List (String × Tree)}
      {w : World} :
      item.plainText = .ok value →
      TurnStarts body index ((key, item) :: rest) w item
        { w with context := w.context.enterIteration index key value }
  | later {index : Nat} {key value : String} {item result item' : Tree}
      {rest : List (String × Tree)} {w w₁ w' : World} :
      item.plainText = .ok value →
      body item { w with context := w.context.enterIteration index key value } = (.ok result, w₁) →
      TurnStarts body (index + 1) rest w₁ item' w' →
      TurnStarts body index ((key, item) :: rest) w item' w'

/-- A run of lines comes to a line of its own, of a loop, or of a script that a command runs. -/
inductive ComesTo (base : Level) : (depth : Nat) → (file : Option String) → List Line → Tree →
    World → Moment → Prop where
  | line {depth : Nat} {file : Option String} {line : Line} {rest : List Line} {input : Tree}
      {w : World} : ComesTo base (depth + 1) file (line :: rest) input w ⟨file, line, input, w⟩
  /-- behind a line whose command has been executed -/
  | next {depth : Nat} {file : Option String} {line : Line} {rest : List Line} {input result : Tree}
      {w w₁ w₂ : World} {c : Command} {m : Moment} :
      commandOf line w = (.ok c, w₁) → c ≠ .foreach → c ≠ .end_ →
      execute base (runNested base depth) c input w₁ = (.ok result, w₂) →
      ComesTo base (depth + 1) file rest result w₂ m →
      ComesTo base (depth + 1) file (line :: rest) input w m
  /-- in the script that a command runs -/
  | script {depth : Nat} {file : Option String} {line : Line} {rest : List Line} {input : Tree}
      {w w₁ w₂ : World} {reference path : String} {script : Script} {m : Moment} :
      commandOf line w = (.ok (.batch reference), w₁) →
      scriptOf reference w₁ = (.ok (path, script), w₂) →
      ComesTo base depth (some path) script.lines input
        { w₂ with context := enterFile path w₂.context } m →
      ComesTo base (depth + 1) file (line :: rest) input w m
  /-- in a turn of a loop -/
  | turn {depth close : Nat} {file : Option String} {line : Line} {rest : List Line}
      {input item : Tree} {items : List (String × Tree)} {w w₁ w₂ : World} {m : Moment} :
      commandOf line w = (.ok .foreach, w₁) → matchingEnd (line :: rest) 0 = .ok close →
      loopItems input = .ok items →
      TurnStarts (runNested base (depth + 1) (rest.take (close - 1))) 0 items
        { w₁ with context := enterLoop w₁.context } item w₂ →
      ComesTo base (depth + 1) file (rest.take (close - 1)) item w₂ m →
      ComesTo base (depth + 1) file (line :: rest) input w m
  /-- behind a loop -/
  | behind {depth close : Nat} {file : Option String} {line : Line} {rest : List Line}
      {input result : Tree} {w w₁ w₂ : World} {m : Moment} :
      commandOf line w = (.ok .foreach, w₁) → matchingEnd (line :: rest) 0 = .ok close →
      loop (runNested base (depth + 1) (rest.take (close - 1))) input w₁ = (.ok result, w₂) →
      ComesTo base (depth + 1) file (rest.drop close) result w₂ m →
      ComesTo base (depth + 1) file (line :: rest) input w m

/-! ## Where relative paths start -/

/-- The directory at which relative paths start, that of the first script being `start`. -/
def placeOf (start : String) : Option String → String
  | none => start
  | some path => directoryOf path

theorem keeps_context_scriptOf (reference : String) :
    Run.Keeps World.context (scriptOf reference) := by
  have hload (path : String) : Run.Keeps World.context (load path) :=
    .bind (Run.keeps_context_readText path) fun _ => .ofExcept _
  exact .bind .context fun _ => .bind (hload _) fun _ =>
    .bind (Run.keeps_context_tell _) fun _ => .pure _

theorem baseDir_of_lent {c c' : Context} (h : c.lent = c'.lent) : c.baseDir = c'.baseDir :=
  congrArg (·.1.2.2) h

theorem TurnStarts.settings_eq {body : Tree → Run Tree} {index : Nat} {w w' : World} {item : Tree}
    {items : List (String × Tree)} (h : TurnStarts body index items w item w')
    (hbody : ∀ t, Run.Keeps (·.context.settings) (body t)) :
    w'.context.settings = w.context.settings := by
  induction h with
  | here => rfl
  | @later index key value item _ _ _ w _ _ _ hresult _ ih =>
      have hkept := (hbody item).of_eq hresult
      rw [ih]
      exact hkept

/-- **Every line of a script in a file is run with relative paths starting at its directory.** -/
theorem ComesTo.baseDir_eq {base : Level} {depth : Nat} {file : Option String} {lines : List Line}
    {input : Tree} {w : World} {m : Moment} (h : ComesTo base depth file lines input w m)
    {start : String} (hw : w.context.baseDir = placeOf start file) :
    m.world.context.baseDir = placeOf start m.file := by
  induction h with
  | line => exact hw
  | @next depth _ line _ input _ w w₁ w₂ c _ hc _ _ hresult _ ih =>
      have hexec := keeps_lent_execute (keeps_lent_runNested base depth) base c input
      have hline := (keeps_context_commandOf line).of_eq hc
      refine ih ?_
      rw [baseDir_of_lent (hexec.of_eq hresult), hline]
      exact hw
  | script _ _ _ ih =>
      -- a script starts in its own directory, wherever the one that runs it stands
      exact ih rfl
  | @turn depth close _ line rest _ item _ w w₁ w₂ _ hc _ _ hstarts _ ih =>
      -- the turns before this one set loop variables, so only the settings can be followed
      have hbody : ∀ t, Run.Keeps (·.context.settings)
          (runNested base (depth + 1) (rest.take (close - 1)) t) :=
        fun t => (keeps_lent_runNested base (depth + 1) _ t).comp Prod.fst
      have hline := (keeps_context_commandOf line).of_eq hc
      have hsettings : w₂.context.settings = w₁.context.settings := hstarts.settings_eq hbody
      refine ih ?_
      rw [show w₂.context.baseDir = w₁.context.baseDir from congrArg (·.2.2) hsettings, hline]
      exact hw
  | @behind depth close _ line rest input _ w w₁ w₂ _ hc _ hresult _ ih =>
      have hbody := keeps_lent_runNested base (depth + 1) (rest.take (close - 1))
      have hloop := keeps_lent_loop hbody input
      have hline := (keeps_context_commandOf line).of_eq hc
      refine ih ?_
      rw [baseDir_of_lent (hloop.of_eq hresult), hline]
      exact hw

/-! ## What is changed, and by which command -/

/-- What is changed from `c` to `c'` was said by the commands of the moments. -/
structure ChangedBy (moments : Moment → Prop) (c c' : Context) : Prop where
  dialect : c'.dialect = c.dialect ∨
    ∃ m, moments m ∧ m.command? = some (.useYamlLibrary c'.dialect)
  globals : ∀ key, c'.globals.get? key = c.globals.get? key ∨
    ∃ m value, moments m ∧ m.command? = some (.setProperty key value) ∧
      c'.globals.get? key = some value
  namespaces : ∀ space, c'.namespaces.get? space = c.namespaces.get? space ∨
    ∃ m reference, moments m ∧ m.command? = some (.property space reference)
  store : ∀ name, c'.store.get? name = c.store.get? name ∨
    ∃ m reference isOptional, moments m ∧ m.command? = some (.save reference) ∧
      Reference.ofText reference = .stored name isOptional ∧ c'.store.get? name = some m.input
  environment : c'.environment = c.environment

namespace ChangedBy

variable {moments more : Moment → Prop} {c c' c'' : Context}

theorem refl (c : Context) : ChangedBy moments c c where
  dialect := .inl rfl
  globals _ := .inl rfl
  namespaces _ := .inl rfl
  store _ := .inl rfl
  environment := rfl

theorem of_eq (h : c' = c) : ChangedBy moments c c' := by
  rw [h]
  exact .refl c

theorem mono (h : ChangedBy moments c c') (hmore : ∀ m, moments m → more m) :
    ChangedBy more c c' where
  dialect := h.dialect.imp_right fun ⟨m, hm, hrest⟩ => ⟨m, hmore m hm, hrest⟩
  globals key := (h.globals key).imp_right fun ⟨m, v, hm, hrest⟩ => ⟨m, v, hmore m hm, hrest⟩
  namespaces space :=
    (h.namespaces space).imp_right fun ⟨m, r, hm, hrest⟩ => ⟨m, r, hmore m hm, hrest⟩
  store name := (h.store name).imp_right fun ⟨m, r, o, hm, hrest⟩ => ⟨m, r, o, hmore m hm, hrest⟩
  environment := h.environment

theorem trans (h : ChangedBy moments c c') (h' : ChangedBy moments c' c'') :
    ChangedBy moments c c'' where
  dialect := by
    rcases h'.dialect with heq | hby
    · rw [heq]
      exact h.dialect
    · exact .inr hby
  globals key := by
    rcases h'.globals key with heq | hby
    · rw [heq]
      exact h.globals key
    · exact .inr hby
  namespaces space := by
    rcases h'.namespaces space with heq | hby
    · rw [heq]
      exact h.namespaces space
    · exact .inr hby
  store name := by
    rcases h'.store name with heq | hby
    · rw [heq]
      exact h.store name
    · exact .inr hby
  environment := h'.environment.trans h.environment

/-! ### Steps -/

theorem of_keeps {step : Run α} (h : Run.Keeps World.context step) (w : World) :
    ChangedBy moments w.context (step w).2.context :=
  .of_eq (h w)

theorem bind {step : Run α} {next : α → Run β} {w : World}
    (h : ChangedBy moments w.context (step w).2.context)
    (hnext : ∀ a w', step w = (.ok a, w') → ChangedBy moments w'.context (next a w').2.context) :
    ChangedBy moments w.context ((step >>= next) w).2.context := by
  rw [Run.bind_apply]
  rcases hstep : step w with ⟨_ | a, w'⟩
  · rw [hstep] at h
    exact h
  · rw [hstep] at h
    exact h.trans (hnext a w' hstep)

theorem atLine {step : Run α} {w : World} (line : Line)
    (h : ChangedBy moments w.context (step w).2.context) :
    ChangedBy moments w.context (Script.atLine line step w).2.context := by
  rw [Script.atLine]
  rcases hstep : step w with ⟨_ | a, w'⟩ <;> rwa [hstep] at h

/-- A change of the context, and nothing else. -/
theorem changeContext {change : Context → Context} {w : World}
    (h : ChangedBy moments w.context (change w.context)) :
    ChangedBy moments w.context (Run.changeContext change w).2.context :=
  h

theorem setGlobal {m : Moment} {key value : String} (hm : moments m)
    (hc : m.command? = some (.setProperty key value)) (c : Context) :
    ChangedBy moments c (c.setGlobal key value) where
  dialect := .inl rfl
  globals other := by
    rw [Context.setGlobal, Dictionary.get?_set]
    by_cases heq : other = key
    · subst heq
      exact .inr ⟨m, value, hm, hc, if_pos rfl⟩
    · exact .inl (if_neg heq)
  namespaces _ := .inl rfl
  store _ := .inl rfl
  environment := rfl

theorem setProperties {m : Moment} {space reference : String} (hm : moments m)
    (hc : m.command? = some (.property space reference)) (properties : Dictionary String)
    (c : Context) : ChangedBy moments c (c.setProperties space properties) where
  dialect := .inl rfl
  globals _ := .inl rfl
  namespaces other := by
    rw [Context.setProperties, Dictionary.get?_set]
    by_cases heq : other = space
    · subst heq
      exact .inr ⟨m, reference, hm, hc⟩
    · exact .inl (if_neg heq)
  store _ := .inl rfl
  environment := rfl

theorem storeAs {m : Moment} {name reference : String} {isOptional : Bool} (hm : moments m)
    (hc : m.command? = some (.save reference))
    (hname : Reference.ofText reference = .stored name isOptional) (c : Context) :
    ChangedBy moments c (c.storeAs name m.input) where
  dialect := .inl rfl
  globals _ := .inl rfl
  namespaces _ := .inl rfl
  store other := by
    rw [Context.storeAs, Dictionary.get?_set]
    by_cases heq : other = name
    · subst heq
      exact .inr ⟨m, reference, isOptional, hm, hc, hname, if_pos rfl⟩
    · exact .inl (if_neg heq)
  environment := rfl

theorem useDialect {m : Moment} {dialect : Dialect} (hm : moments m)
    (hc : m.command? = some (.useYamlLibrary dialect)) (c : Context) :
    ChangedBy moments c { c with dialect } where
  dialect := .inr ⟨m, hm, hc⟩
  globals _ := .inl rfl
  namespaces _ := .inl rfl
  store _ := .inl rfl
  environment := rfl

/-! ### Commands -/

theorem save {m : Moment} {reference : String} (hm : moments m)
    (hc : m.command? = some (.save reference)) (w : World) :
    ChangedBy moments w.context (Run.save reference m.input w).2.context := by
  unfold Run.save
  cases href : Reference.ofText reference with
  | file path _ =>
      dsimp only
      refine .of_keeps (.bind .context fun c => ?_) w
      exact .bind (Run.keeps_context_tell _) fun _ => Run.keeps_context_writeDocument _ m.input
  | stored name isOptional => exact .changeContext (.storeAs hm hc href w.context)
  | inline text => exact .refl _

theorem loadProperties {m : Moment} {space reference : String} (hm : moments m)
    (hc : m.command? = some (.property space reference)) (t : Tree) (w : World) :
    ChangedBy moments w.context (Run.loadProperties space t w).2.context := by
  refine .bind (.of_keeps (.ofExcept _) w) fun properties w₁ _ => ?_
  refine .bind (.of_keeps (Run.keeps_context_tell _) w₁) fun _ w₂ _ => ?_
  exact .changeContext (.setProperties hm hc properties w₂.context)

/-- A command that runs no other script changes what it says. -/
theorem execute {m : Moment} {c : Command} (hm : moments m) (hc : m.command? = some c)
    (hbatch : ∀ reference, c ≠ .batch reference) (base : Level)
    (runScript : List Line → Tree → Run Tree) (w : World) :
    ChangedBy moments w.context (execute base runScript c m.input w).2.context := by
  cases c with
  | batch reference => exact absurd rfl (hbatch reference)
  | makeNewRoot reference =>
      cases reference with
      | none => exact .refl _
      | some reference => exact .of_keeps (Run.keeps_context_load reference) w
  | useAsInput reference => exact .of_keeps (Run.keeps_context_load reference) w
  | property space reference =>
      exact .bind (.of_keeps (Run.keeps_context_load reference) w) fun t w₁ _ =>
        .bind (.loadProperties hm hc t w₁) fun _ _ _ => .refl _
  | save reference => exact .bind (.save hm hc w) fun _ _ _ => .refl _
  | setProperty key value =>
      exact .bind (.changeContext (.setGlobal hm hc w.context)) fun _ _ _ => .refl _
  | print text =>
      exact .bind (.of_keeps (keeps_context_printText text m.input) w) fun _ _ _ => .refl _
  | useYamlLibrary dialect =>
      refine .bind (.of_keeps (Run.keeps_context_tell _) w) fun _ w₁ _ => ?_
      exact .bind (.changeContext (.useDialect hm hc w₁.context)) fun _ _ _ => .refl _
  | verbose on =>
      exact .bind (.of_keeps (Run.keeps_context_setLevel _) w) fun _ _ _ => .refl _
  | sleep pause =>
      refine .bind (.of_keeps (Run.keeps_context_tell _) w) fun _ w₁ _ => ?_
      exact .bind (.of_keeps (Run.keeps_context_pause _) w₁) fun _ _ _ => .refl _
  | expandTree => exact .of_keeps (.bind .context fun _ => .ofExcept _) w
  | yaml c => exact .of_keeps (keeps_context_runYaml c m.input) w
  | foreach | end_ => exact .refl _

/-! ### Loops and other scripts -/

/-- Settings that are lent are no change. -/
theorem of_fields (hdialect : c'.dialect = c.dialect) (hglobals : c'.globals = c.globals)
    (hnamespaces : c'.namespaces = c.namespaces) (hstore : c'.store = c.store)
    (henvironment : c'.environment = c.environment) : ChangedBy moments c c' where
  dialect := .inl hdialect
  globals _ := .inl (by rw [hglobals])
  namespaces _ := .inl (by rw [hnamespaces])
  store _ := .inl (by rw [hstore])
  environment := henvironment

theorem lending {change : Context → Context} {restore : (old new : Context) → Context}
    {step : Run α} {w : World} (hchange : ChangedBy moments w.context (change w.context))
    (hstep : ChangedBy moments (change w.context)
      (step { w with context := change w.context }).2.context)
    (hrestore : ∀ old new, ChangedBy moments new (restore old new)) :
    ChangedBy moments w.context (Run.lending change restore step w).2.context :=
  (hchange.trans hstep).trans (hrestore _ _)

/-- The turns of a loop change what is changed in each of them. -/
theorem turns {body : Tree → Run Tree} {seen : Tree → World → Moment → Prop}
    (hbody : ∀ t w, ChangedBy (seen t w) w.context (body t w).2.context) (index : Nat)
    (items : List (String × Tree)) (w : World) :
    ChangedBy (fun m => ∃ item w', TurnStarts body index items w item w' ∧ seen item w' m)
      w.context (turns body index items w).2.context := by
  induction items generalizing index w with
  | nil => exact .refl _
  | cons first items ih =>
      obtain ⟨key, item⟩ := first
      refine .bind (.of_keeps (.ofExcept _) w) fun value w₁ hvalue => ?_
      obtain ⟨hplain, rfl⟩ := Prod.mk.inj hvalue
      refine .bind (.changeContext (.of_fields rfl rfl rfl rfl rfl)) fun _ w₁ hw₁ => ?_
      obtain ⟨-, rfl⟩ := Prod.mk.inj hw₁
      -- this turn is the first of the loop, and those of the rest are later ones
      refine .bind ((hbody item _).mono fun m hm => ?_) fun result w₂ hresult => ?_
      · exact ⟨item, _, .here hplain, hm⟩
      · refine .bind ((ih (index + 1) w₂).mono fun m hm => ?_) fun _ _ _ => .refl _
        obtain ⟨item', w', hstarts, hm⟩ := hm
        exact ⟨item', w', .later hplain hresult hstarts, hm⟩

theorem loop {body : Tree → Run Tree} {seen : Tree → World → Moment → Prop}
    (hbody : ∀ t w, ChangedBy (seen t w) w.context (body t w).2.context) (input : Tree)
    (w : World) :
    ChangedBy (fun m => ∃ items item w', loopItems input = .ok items ∧
        TurnStarts body 0 items { w with context := enterLoop w.context } item w' ∧ seen item w' m)
      w.context (loop body input w).2.context := by
  refine .bind (.of_keeps (.ofExcept _) w) fun items w₁ hfound => ?_
  obtain ⟨hitems, rfl⟩ := Prod.mk.inj hfound
  refine .bind ?_ fun _ _ _ => .refl _
  refine .lending (.of_fields rfl rfl rfl rfl rfl) ?_ fun _ _ => .of_fields rfl rfl rfl rfl rfl
  refine (turns hbody 0 items { w with context := enterLoop w.context }).mono fun m hm => ?_
  obtain ⟨item, w', hstarts, hm⟩ := hm
  exact ⟨items, item, w', hitems, hstarts, hm⟩

/-- A script in a file changes what its lines change. -/
theorem runFile {runScript : List Line → Tree → Run Tree}
    {seen : String → List Line → Tree → World → Moment → Prop}
    (hrun : ∀ path lines t w, ChangedBy (seen path lines t w) w.context
      (runScript lines t w).2.context) (reference : String) (input : Tree) (w : World) :
    ChangedBy (fun m => ∃ path script w', scriptOf reference w = (.ok (path, script), w') ∧
        seen path script.lines input { w' with context := enterFile path w'.context } m)
      w.context (runFile runScript reference input w).2.context := by
  rw [runFile_eq]
  refine .bind (.of_keeps (keeps_context_scriptOf reference) w) fun found w' hfound => ?_
  refine .lending (.of_fields rfl rfl rfl rfl rfl) ?_ fun _ _ => .of_fields rfl rfl rfl rfl rfl
  refine (hrun found.1 found.2.lines input
    { w' with context := enterFile found.1 w'.context }).mono fun m hm => ?_
  exact ⟨found.1, found.2, w', hfound, hm⟩

/-! ### Runs -/

/-- The command of a line changes what it says, or what the script that it runs changes. -/
theorem command {base : Level} {depth : Nat}
    (hrun : ∀ file lines input w, ChangedBy (ComesTo base depth file lines input w) w.context
      (runNested base depth lines input w).2.context)
    {line : Line} {w w₁ : World} {c : Command} (hc : commandOf line w = (.ok c, w₁))
    (file : Option String) (rest : List Line) (input : Tree) :
    ChangedBy (ComesTo base (depth + 1) file (line :: rest) input w) w₁.context
      (Script.execute base (runNested base depth) c input w₁).2.context := by
  by_cases hbatch : ∃ reference, c = .batch reference
  · obtain ⟨reference, rfl⟩ := hbatch
    rw [Script.execute]
    refine (runFile (fun path => hrun (some path)) reference input w₁).mono fun m hm => ?_
    obtain ⟨path, script, w', hscript, hm⟩ := hm
    exact .script hc hscript hm
  · have hcommand : Moment.command? ⟨file, line, input, w⟩ = some c := by
      rw [Moment.command?, hc]
      rfl
    have hno : ∀ reference, c ≠ .batch reference := fun reference h => hbatch ⟨reference, h⟩
    exact execute ComesTo.line hcommand hno base (runNested base depth) w₁

/-- **Lines change what their commands say**, if the scripts that they run do. -/
theorem runLines {base : Level} {depth : Nat}
    (hrun : ∀ file lines input w, ChangedBy (ComesTo base depth file lines input w) w.context
      (runNested base depth lines input w).2.context)
    (lines : List Line) (input : Tree) : ∀ (file : Option String) (w : World),
    ChangedBy (ComesTo base (depth + 1) file lines input w) w.context
      (Script.runLines (Script.execute base (runNested base depth)) lines input w).2.context := by
  fun_induction Script.runLines (Script.execute base (runNested base depth)) lines input with
  | case1 input => exact fun _ _ => .refl _
  | case2 input line rest ihbody ihrest ihnext =>
      intro file w
      have hline := keeps_context_commandOf line
      refine .bind (.atLine line (.of_keeps hline w)) fun c w₁ hc => ?_
      have hc := atLine_ok hc
      have hcommand := command hrun hc file rest input
      cases c with
      | foreach =>
          -- what a turn comes to, and what the lines behind the loop come to, the loop comes to
          refine .bind (.atLine line (.refl _)) fun close w₂ hfound => ?_
          obtain ⟨hclose, rfl⟩ := Prod.mk.inj (atLine_ok hfound)
          refine .bind (.atLine line ((loop (fun t => ihbody close t file) input w₁).mono ?_))
            fun result w₃ hresult => ?_
          · rintro m ⟨items, item, w', hitems, hstarts, hm⟩
            exact .turn hc hclose hitems hstarts hm
          · refine (ihrest close result file w₃).mono fun m hm => ?_
            exact .behind hc hclose (atLine_ok hresult) hm
      | end_ => exact .atLine line (.refl _)
      | _ =>
          dsimp only
          refine .bind (.atLine line hcommand) fun result w₂ hresult => ?_
          refine (ihnext result file w₂).mono fun m hm => ?_
          exact .next hc (by simp) (by simp) (atLine_ok hresult) hm

end ChangedBy

/-- A run changes what the commands of the lines say that it comes to. -/
theorem changedBy_runNested (base : Level) (depth : Nat) (file : Option String) (lines : List Line)
    (input : Tree) (w : World) : ChangedBy (ComesTo base depth file lines input w) w.context
      (runNested base depth lines input w).2.context := by
  induction depth generalizing file lines input w with
  | zero => exact .refl _
  | succ depth ih => exact ChangedBy.runLines ih lines input file w

/--
**A run gives back everything that it borrowed**, whether it succeeds or fails. Afterwards the loop
variables, the base directory, the settings of patterns and the level of records are what they were.
At every line that it came to in a script in a file, relative paths started at the directory of that
file. The dialect, global properties, namespaces and stored documents are changed only as the
commands of such lines say.
-/
theorem runFrom_gives_back (base : Level) (depth : Nat) (script : Script) (input : Tree)
    (w : World) :
    let w₀ := (Run.tell (scriptRecord script) w).2
    let moments := ComesTo base depth none script.lines input w₀
    let w' := (runFrom base depth script input w).2
    w'.context.loopScope = w.context.loopScope ∧
      w'.context.baseDir = w.context.baseDir ∧
      w'.context.delimiter = w.context.delimiter ∧
      w'.context.listDelimiter = w.context.listDelimiter ∧
      w'.level = base ∧
      (∀ m, moments m → m.world.context.baseDir = placeOf w.context.baseDir m.file) ∧
      ChangedBy moments w.context w'.context := by
  intro w₀ moments w'
  have hw₀ : w₀.context = w.context := Run.keeps_context_tell _ w
  have hw' : w'.context = (runNested base depth script.lines input w₀).2.context := by
    have htell : Run.tell (scriptRecord script) w = (.ok (), w₀) := rfl
    simp only [w', runFrom, Run.bind_apply, htell]
    rfl
  have hlent : w'.context.lent = w.context.lent := by
    rw [hw', ← hw₀]
    exact keeps_lent_runNested base depth script.lines input w₀
  have hsettings : w'.context.settings = w.context.settings := congrArg Prod.fst hlent
  refine ⟨congrArg Prod.snd hlent, congrArg (·.2.2) hsettings, congrArg Prod.fst hsettings,
    congrArg (·.2.1) hsettings, rfl, fun m hm => ?_, ?_⟩
  · rw [← hw₀]
    exact hm.baseDir_eq rfl
  · rw [hw', ← hw₀]
    exact changedBy_runNested base depth none script.lines input w₀

example :
    let files := Files.empty.create "d/sub" "setProperty k=v\nuseAsInput @gone".toUTF8
    ∃ m, ComesTo .off 2 none [⟨1, "batch @d/sub"⟩] .null { files } m ∧
      m.file = some "d/sub" ∧ m.world.context.baseDir = "d" :=
  ⟨_, .script (by rfl) (by rfl) .line, rfl, rfl⟩

end Script

end TreeEdit
