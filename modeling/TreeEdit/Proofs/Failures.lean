import TreeEdit.Proofs.RootCauses

/-!
# Where a run fails

A failure comes out of a run wrapped in lines, one for each line that was being run when it
happened: the line itself, around it the `foreach` of the loop or the `batch` of the script that it
stands in, and so on. `Fails … ms cause` declares this. It follows a run to the line where it stops
and keeps the moments at which the lines around that one were entered; like `ComesTo` it goes over
the functions of the run and is no run of its own.

* A run fails exactly as declared: with the cause, wrapped in the lines of the moments
  (`runNested_error_iff`). A step of a line fails wrapped in the line, and what comes behind it is
  not wrapped again (`atLine_bind_error_iff`).
* What fails at a line itself is a root cause (`FailsAt.isRoot`), so nothing is wrapped twice and
  nothing comes out bare.
* From one moment to the next the lines lead into the body of a loop or into a script
  (`Fails.layered`).
-/

namespace TreeEdit

/-! ## Failures wrapped in lines -/

/-- A failure wrapped in lines, the outermost first. -/
def Error.through (lines : List Line) (cause : Error) : Error :=
  lines.foldr (fun line e => .atLine line.number line.text e) cause

theorem Error.rootCause_through (lines : List Line) (cause : Error) :
    (Error.through lines cause).rootCause = cause.rootCause := by
  induction lines with
  | nil => rfl
  | cons line lines ih => exact ih

namespace Run

variable {step : Run α} {w : World} {e : Error}

/-- Two steps fail if the first one does, or the second one behind it. -/
theorem bind_error_iff {next : α → Run β} : ((step >>= next) w).1 = .error e ↔
    (step w).1 = .error e ∨ ∃ a w', step w = (.ok a, w') ∧ (next a w').1 = .error e := by
  rw [bind_apply]
  rcases step w with ⟨e' | a, w'⟩
  · simp only [Except.error.injEq]
    constructor
    · exact .inl
    · rintro (h | ⟨a, w', h, -⟩)
      · exact h
      · cases h
  · constructor
    · exact fun h => .inr ⟨a, w', rfl, h⟩
    · rintro (h | ⟨a, w', h, hnext⟩)
      · cases h
      · cases h
        exact hnext

theorem ofExcept_bind_error_iff {outcome : Except Error α} {next : α → Run β} :
    ((ofExcept outcome >>= next) w).1 = .error e ↔
      outcome = .error e ∨ ∃ a, outcome = .ok a ∧ (next a w).1 = .error e := by
  rw [bind_error_iff]
  refine or_congr Iff.rfl ⟨?_, fun ⟨a, ha, h⟩ => ⟨a, w, Prod.ext ha rfl, h⟩⟩
  rintro ⟨a, w', ha, h⟩
  obtain ⟨hok, rfl⟩ := Prod.mk.inj ha
  exact ⟨a, hok, h⟩

theorem changeContext_bind {change : Context → Context} {next : Unit → Run β} :
    (changeContext change >>= next) w = next () { w with context := change w.context } := rfl

/-- What is made of a result cannot fail. -/
theorem bind_pure_error_iff {f : α → β} :
    ((step >>= fun a => pure (f a)) w).1 = .error e ↔ (step w).1 = .error e := by
  rw [bind_error_iff]
  constructor
  · rintro (h | ⟨a, w', -, h⟩)
    · exact h
    · cases h
  · exact .inl

end Run

namespace Script

section

variable {line : Line} {step : Run α} {w : World}

theorem atLine_ok_iff {a : α} {w' : World} :
    atLine line step w = (.ok a, w') ↔ step w = (.ok a, w') := by
  refine ⟨atLine_ok, fun h => ?_⟩
  rw [atLine, h]

theorem atLine_error_iff {e : Error} : (atLine line step w).1 = .error e ↔
    ∃ cause, (step w).1 = .error cause ∧ e = Error.through [line] cause := by
  rw [atLine]
  rcases step w with ⟨cause | b, w₁⟩ <;> simp [Error.through, eq_comm]

/-- A step of a line fails wrapped in it; what comes behind the step is not wrapped. -/
theorem atLine_bind_error_iff {next : α → Run β} {e : Error} :
    ((atLine line step >>= next) w).1 = .error e ↔
      (∃ cause, (step w).1 = .error cause ∧ e = Error.through [line] cause) ∨
        ∃ a w', step w = (.ok a, w') ∧ (next a w').1 = .error e := by
  rw [Run.bind_error_iff, atLine_error_iff]
  simp only [atLine_ok_iff]

end

/-! ## What fails at a line -/

/-- The turn of an item comes that has no text. -/
inductive NoText (body : Tree → Run Tree) :
    (index : Nat) → List (String × Tree) → World → Error → Prop where
  | here {index : Nat} {key : String} {item : Tree} {rest : List (String × Tree)} {w : World}
      {cause : Error} : item.plainText = .error cause →
      NoText body index ((key, item) :: rest) w cause
  | later {index : Nat} {key value : String} {item result : Tree} {rest : List (String × Tree)}
      {w w₁ : World} {cause : Error} : item.plainText = .ok value →
      body item { w with context := w.context.enterIteration index key value } = (.ok result, w₁) →
      NoText body (index + 1) rest w₁ cause →
      NoText body index ((key, item) :: rest) w cause

/-- What fails at a line itself, before, between or without lines that are run for it. -/
inductive FailsAt (base : Level) (depth : Nat) (line : Line) (rest : List Line) (input : Tree)
    (w : World) : Error → Prop where
  /-- its words, its macros, or the grammar of its command -/
  | command {cause : Error} : (commandOf line w).1 = .error cause →
      FailsAt base depth line rest input w cause
  | unopened {w₁ : World} : commandOf line w = (.ok .end_, w₁) →
      FailsAt base depth line rest input w (.grammar line.number .unopenedEnd)
  | unclosed {cause : Error} {w₁ : World} : commandOf line w = (.ok .foreach, w₁) →
      matchingEnd (line :: rest) 0 = .error cause → FailsAt base depth line rest input w cause
  /-- the document has no items to loop over -/
  | noItems {close : Nat} {cause : Error} {w₁ : World} : commandOf line w = (.ok .foreach, w₁) →
      matchingEnd (line :: rest) 0 = .ok close → loopItems input = .error cause →
      FailsAt base depth line rest input w cause
  | noText {close : Nat} {items : List (String × Tree)} {cause : Error} {w₁ : World} :
      commandOf line w = (.ok .foreach, w₁) → matchingEnd (line :: rest) 0 = .ok close →
      loopItems input = .ok items →
      NoText (runNested base (depth + 1) (rest.take (close - 1))) 0 items
        { w₁ with context := enterLoop w₁.context } cause →
      FailsAt base depth line rest input w cause
  | noScript {reference : String} {cause : Error} {w₁ : World} :
      commandOf line w = (.ok (.batch reference), w₁) →
      (scriptOf reference w₁).1 = .error cause → FailsAt base depth line rest input w cause
  /-- what any other command does -/
  | effect {c : Command} {cause : Error} {w₁ : World} : commandOf line w = (.ok c, w₁) →
      c ≠ .foreach → c ≠ .end_ → (∀ reference, c ≠ .batch reference) →
      (execute base (runNested base depth) c input w₁).1 = .error cause →
      FailsAt base depth line rest input w cause

/--
A run of lines fails, `ms` being the moments at which the lines were entered that are being run
then, the outermost first.
-/
inductive Fails (base : Level) : (depth : Nat) → (file : Option String) → List Line → Tree →
    World → (ms : List Moment) → (cause : Error) → Prop where
  | tooDeep {file : Option String} {lines : List Line} {input : Tree} {w : World} :
      Fails base 0 file lines input w [] .tooDeep
  | here {depth : Nat} {file : Option String} {line : Line} {rest : List Line} {input : Tree}
      {w : World} {cause : Error} : FailsAt base depth line rest input w cause →
      Fails base (depth + 1) file (line :: rest) input w [⟨file, line, input, w⟩] cause
  /-- behind a line whose command has been executed -/
  | next {depth : Nat} {file : Option String} {line : Line} {rest : List Line}
      {input result : Tree} {w w₁ w₂ : World} {c : Command} {ms : List Moment} {cause : Error} :
      commandOf line w = (.ok c, w₁) → c ≠ .foreach → c ≠ .end_ →
      execute base (runNested base depth) c input w₁ = (.ok result, w₂) →
      Fails base (depth + 1) file rest result w₂ ms cause →
      Fails base (depth + 1) file (line :: rest) input w ms cause
  /-- in the script that a command runs -/
  | script {depth : Nat} {file : Option String} {line : Line} {rest : List Line} {input : Tree}
      {w w₁ w₂ : World} {reference path : String} {script : Script} {ms : List Moment}
      {cause : Error} : commandOf line w = (.ok (.batch reference), w₁) →
      scriptOf reference w₁ = (.ok (path, script), w₂) →
      Fails base depth (some path) script.lines input
        { w₂ with context := enterFile path w₂.context } ms cause →
      Fails base (depth + 1) file (line :: rest) input w (⟨file, line, input, w⟩ :: ms) cause
  /-- in a turn of a loop -/
  | turn {depth close : Nat} {file : Option String} {line : Line} {rest : List Line}
      {input item : Tree} {items : List (String × Tree)} {w w₁ w₂ : World} {ms : List Moment}
      {cause : Error} : commandOf line w = (.ok .foreach, w₁) →
      matchingEnd (line :: rest) 0 = .ok close → loopItems input = .ok items →
      TurnStarts (runNested base (depth + 1) (rest.take (close - 1))) 0 items
        { w₁ with context := enterLoop w₁.context } item w₂ →
      Fails base (depth + 1) file (rest.take (close - 1)) item w₂ ms cause →
      Fails base (depth + 1) file (line :: rest) input w (⟨file, line, input, w⟩ :: ms) cause
  /-- behind a loop -/
  | behind {depth close : Nat} {file : Option String} {line : Line} {rest : List Line}
      {input result : Tree} {w w₁ w₂ : World} {ms : List Moment} {cause : Error} :
      commandOf line w = (.ok .foreach, w₁) → matchingEnd (line :: rest) 0 = .ok close →
      loop (runNested base (depth + 1) (rest.take (close - 1))) input w₁ = (.ok result, w₂) →
      Fails base (depth + 1) file (rest.drop close) result w₂ ms cause →
      Fails base (depth + 1) file (line :: rest) input w ms cause

/-! ## Loops and scripts that fail -/

section

variable {body : Tree → Run Tree}

/-- The turns of a loop fail at the first item, or behind its turn. -/
theorem turns_cons_error_iff {index : Nat} {key : String} {item : Tree}
    {rest : List (String × Tree)} {w : World} {e : Error} :
    (turns body index ((key, item) :: rest) w).1 = .error e ↔
      item.plainText = .error e ∨ ∃ value, item.plainText = .ok value ∧
        let w' := { w with context := w.context.enterIteration index key value }
        (body item w').1 = .error e ∨ ∃ result w₁, body item w' = (.ok result, w₁) ∧
          (turns body (index + 1) rest w₁).1 = .error e := by
  rw [turns, Run.ofExcept_bind_error_iff]
  refine or_congr Iff.rfl (exists_congr fun value => and_congr Iff.rfl ?_)
  rw [Run.changeContext_bind, Run.bind_error_iff]
  refine or_congr Iff.rfl (exists₂_congr fun result w₁ => and_congr Iff.rfl ?_)
  exact Run.bind_pure_error_iff

/-- The turns of a loop fail where an item has no text, or in a turn. -/
theorem turns_error_iff {index : Nat} {items : List (String × Tree)} {w : World} {e : Error} :
    (turns body index items w).1 = .error e ↔ NoText body index items w e ∨
      ∃ item w', TurnStarts body index items w item w' ∧ (body item w').1 = .error e := by
  induction items generalizing index w with
  | nil =>
      constructor
      · intro h
        cases h
      · rintro (h | ⟨_, _, h, -⟩) <;> cases h
  | cons first items ih =>
      obtain ⟨key, item⟩ := first
      rw [turns_cons_error_iff]
      constructor
      · rintro (hno | ⟨value, hplain, hbody | ⟨result, w₁, hresult, hrest⟩⟩)
        · exact .inl (.here hno)
        · exact .inr ⟨item, _, .here hplain, hbody⟩
        · obtain hno | ⟨item', w', hstarts, hbody⟩ := ih.mp hrest
          · exact .inl (.later hplain hresult hno)
          · exact .inr ⟨item', w', .later hplain hresult hstarts, hbody⟩
      · rintro (hno | ⟨item', w', hstarts, hbody⟩)
        · cases hno with
          | here hno => exact .inl hno
          | later hplain hresult hno =>
              exact .inr ⟨_, hplain, .inr ⟨_, _, hresult, ih.mpr (.inl hno)⟩⟩
        · cases hstarts with
          | here hplain => exact .inr ⟨_, hplain, .inl hbody⟩
          | later hplain hresult hstarts =>
              exact .inr ⟨_, hplain, .inr ⟨_, _, hresult, ih.mpr (.inr ⟨_, _, hstarts, hbody⟩)⟩⟩

/-- A loop fails for its items, or in its turns. -/
theorem loop_error_iff {input : Tree} {w : World} {e : Error} : (loop body input w).1 = .error e ↔
    loopItems input = .error e ∨ ∃ items, loopItems input = .ok items ∧
      (turns body 0 items { w with context := enterLoop w.context }).1 = .error e := by
  rw [loop, Run.ofExcept_bind_error_iff]
  exact or_congr Iff.rfl
    (exists_congr fun items => and_congr Iff.rfl Run.bind_pure_error_iff)

end

/-- The script of a command fails to be found, or fails. -/
theorem runFile_error_iff {runScript : List Line → Tree → Run Tree} {reference : String}
    {input : Tree} {w : World} {e : Error} : (runFile runScript reference input w).1 = .error e ↔
      (scriptOf reference w).1 = .error e ∨ ∃ path script w',
        scriptOf reference w = (.ok (path, script), w') ∧
          (runScript script.lines input { w' with context := enterFile path w'.context }).1 =
            .error e := by
  rw [runFile_eq, Run.bind_error_iff]
  refine or_congr Iff.rfl ⟨?_, ?_⟩
  · rintro ⟨⟨path, script⟩, w', hfound, h⟩
    exact ⟨path, script, w', hfound, h⟩
  · rintro ⟨path, script, w', hfound, h⟩
    exact ⟨(path, script), w', hfound, h⟩

/-! ## Lines that fail -/

section

variable {execute : Command → Tree → Run Tree} {line : Line} {rest : List Line} {input : Tree}
  {w w₁ : World} {e : Error}

/-- Without a command, a line fails itself. -/
theorem runLines_of_no_command {cause : Error} (hc : (commandOf line w).1 = .error cause) :
    (runLines execute (line :: rest) input w).1 = .error (Error.through [line] cause) := by
  rw [runLines, atLine_bind_error_iff]
  exact .inl ⟨cause, hc, rfl⟩

/-- Lines fail that begin with an `end`. -/
theorem runLines_of_end (hc : commandOf line w = (.ok .end_, w₁)) :
    (runLines execute (line :: rest) input w).1 =
      .error (Error.through [line] (.grammar line.number .unopenedEnd)) := by
  rw [runLines, atLine_bind_error_iff]
  exact .inr ⟨.end_, w₁, hc, rfl⟩

/-- Lines that begin with a loop fail at its start, in it, or behind it. -/
theorem runLines_of_foreach (hc : commandOf line w = (.ok .foreach, w₁)) :
    (runLines execute (line :: rest) input w).1 = .error e ↔
      (∃ cause, matchingEnd (line :: rest) 0 = .error cause ∧ e = Error.through [line] cause) ∨
        ∃ close, matchingEnd (line :: rest) 0 = .ok close ∧
          ((∃ cause, (loop (runLines execute (rest.take (close - 1))) input w₁).1 = .error cause ∧
              e = Error.through [line] cause) ∨
            ∃ result w₂, loop (runLines execute (rest.take (close - 1))) input w₁ =
                (.ok result, w₂) ∧
              (runLines execute (rest.drop close) result w₂).1 = .error e) := by
  rw [runLines, Run.bind_apply, atLine_ok_iff.mpr hc]
  refine atLine_bind_error_iff.trans (or_congr Iff.rfl ⟨?_, ?_⟩)
  · rintro ⟨close, w₂, hfound, h⟩
    obtain ⟨hclose, rfl⟩ := Prod.mk.inj hfound
    exact ⟨close, hclose, atLine_bind_error_iff.mp h⟩
  · rintro ⟨close, hclose, h⟩
    exact ⟨close, w₁, Prod.ext hclose rfl, atLine_bind_error_iff.mpr h⟩

theorem runLines_of_loop {close : Nat} {cause : Error} (hc : commandOf line w = (.ok .foreach, w₁))
    (hclose : matchingEnd (line :: rest) 0 = .ok close)
    (h : (loop (runLines execute (rest.take (close - 1))) input w₁).1 = .error cause) :
    (runLines execute (line :: rest) input w).1 = .error (Error.through [line] cause) :=
  (runLines_of_foreach hc).mpr (.inr ⟨close, hclose, .inl ⟨cause, h, rfl⟩⟩)

/-- Lines that begin with any other command fail with it or behind it. -/
theorem runLines_of_command {c : Command} (hc : commandOf line w = (.ok c, w₁))
    (hforeach : c ≠ .foreach) (hend : c ≠ .end_) :
    (runLines execute (line :: rest) input w).1 = .error e ↔
      (∃ cause, (execute c input w₁).1 = .error cause ∧ e = Error.through [line] cause) ∨
        ∃ result w₂, execute c input w₁ = (.ok result, w₂) ∧
          (runLines execute rest result w₂).1 = .error e := by
  rw [runLines, Run.bind_apply, atLine_ok_iff.mpr hc]
  cases c with
  | foreach => exact absurd rfl hforeach
  | end_ => exact absurd rfl hend
  | _ => exact atLine_bind_error_iff

end

/-! ## A run fails as declared -/

/-- A run of lines fails, its failure wrapped in the lines that are being run. -/
def FailsWith (base : Level) (depth : Nat) (file : Option String) (lines : List Line)
    (input : Tree) (w : World) (e : Error) : Prop :=
  ∃ ms cause, Fails base depth file lines input w ms cause ∧
    e = Error.through (ms.map Moment.line) cause

section

variable {base : Level} {depth : Nat} {line : Line} {rest : List Line} {input : Tree}
  {w w₁ : World} {cause : Error}

/-- A loop that fails does so itself, or in a turn. -/
theorem failsWith_of_loop {close : Nat} {file : Option String}
    (hbody : ∀ item w e, (runNested base (depth + 1) (rest.take (close - 1)) item w).1 = .error e →
      FailsWith base (depth + 1) file (rest.take (close - 1)) item w e)
    (hc : commandOf line w = (.ok .foreach, w₁)) (hclose : matchingEnd (line :: rest) 0 = .ok close)
    (h : (loop (runNested base (depth + 1) (rest.take (close - 1))) input w₁).1 = .error cause) :
    FailsWith base (depth + 1) file (line :: rest) input w (Error.through [line] cause) := by
  obtain hno | ⟨items, hitems, hturns⟩ := loop_error_iff.mp h
  · exact ⟨_, cause, .here (.noItems hc hclose hno), rfl⟩
  · obtain hno | ⟨item, w', hstarts, hturn⟩ := turns_error_iff.mp hturns
    · exact ⟨_, cause, .here (.noText hc hclose hitems hno), rfl⟩
    · obtain ⟨ms, root, hfails, rfl⟩ := hbody item w' cause hturn
      exact ⟨_, root, .turn hc hclose hitems hstarts hfails, rfl⟩

/-- A command that fails does so itself, or in the script that it runs. -/
theorem failsWith_of_command
    (hrun : ∀ file lines input w e, (runNested base depth lines input w).1 = .error e →
      FailsWith base depth file lines input w e)
    {c : Command} (hc : commandOf line w = (.ok c, w₁)) (hforeach : c ≠ .foreach)
    (hend : c ≠ .end_) (h : (execute base (runNested base depth) c input w₁).1 = .error cause)
    (file : Option String) :
    FailsWith base (depth + 1) file (line :: rest) input w (Error.through [line] cause) := by
  by_cases hbatch : ∃ reference, c = .batch reference
  · obtain ⟨reference, rfl⟩ := hbatch
    obtain h | ⟨path, script, w₂, hscript, h⟩ := runFile_error_iff.mp h
    · exact ⟨_, cause, .here (.noScript hc h), rfl⟩
    · obtain ⟨ms, root, hfails, rfl⟩ := hrun (some path) _ _ _ _ h
      exact ⟨_, root, .script hc hscript hfails, rfl⟩
  · have hno : ∀ reference, c ≠ .batch reference := fun reference h => hbatch ⟨reference, h⟩
    exact ⟨_, cause, .here (.effect hc hforeach hend hno h), rfl⟩

/-- **Lines fail as declared**, if the scripts that they run do. -/
theorem failsWith_of_runLines
    (hrun : ∀ file lines input w e, (runNested base depth lines input w).1 = .error e →
      FailsWith base depth file lines input w e)
    (lines : List Line) (input : Tree) : ∀ (file : Option String) (w : World) (e : Error),
    (runLines (execute base (runNested base depth)) lines input w).1 = .error e →
      FailsWith base (depth + 1) file lines input w e := by
  induction lines, input using runLines.induct with
  | case1 input =>
      intro file w e h
      rw [runLines] at h
      cases h
  | case2 input line rest ihbody ihrest ihnext =>
      intro file w e h
      rcases hcommand : commandOf line w with ⟨cause | c, w₁⟩
      · have hno : (commandOf line w).1 = .error cause := congrArg Prod.fst hcommand
        rw [runLines_of_no_command hno] at h
        cases h
        exact ⟨_, cause, .here (.command hno), rfl⟩
      · cases c with
        | foreach =>
            obtain ⟨cause, hclose, rfl⟩ | ⟨close, hclose, ⟨cause, hloop, rfl⟩ |
              ⟨result, w₂, hloop, h⟩⟩ := (runLines_of_foreach hcommand).mp h
            · exact ⟨_, cause, .here (.unclosed hcommand hclose), rfl⟩
            · exact failsWith_of_loop (fun item => ihbody close item file) hcommand hclose hloop
            · obtain ⟨ms, cause, hfails, rfl⟩ := ihrest close result file w₂ e h
              exact ⟨ms, cause, .behind hcommand hclose hloop hfails, rfl⟩
        | end_ =>
            rw [runLines_of_end hcommand] at h
            cases h
            exact ⟨_, _, .here (.unopened hcommand), rfl⟩
        | _ =>
            obtain ⟨cause, hfails, rfl⟩ | ⟨result, w₂, hresult, h⟩ :=
              (runLines_of_command hcommand (by simp) (by simp)).mp h
            · exact failsWith_of_command hrun hcommand (by simp) (by simp) hfails file
            · obtain ⟨ms, cause, hfails, rfl⟩ := ihnext result file w₂ e h
              exact ⟨ms, cause, .next hcommand (by simp) (by simp) hresult hfails, rfl⟩

end

/-- What is declared to fail at a line does, wrapped in it. -/
theorem FailsAt.runNested_eq {base : Level} {depth : Nat} {line : Line} {rest : List Line}
    {input : Tree} {w : World} {cause : Error} (h : FailsAt base depth line rest input w cause) :
    (runNested base (depth + 1) (line :: rest) input w).1 =
      .error (Error.through [line] cause) := by
  rw [runNested]
  cases h with
  | command hc => exact runLines_of_no_command hc
  | unopened hc => exact runLines_of_end hc
  | unclosed hc hclose => exact (runLines_of_foreach hc).mpr (.inl ⟨cause, hclose, rfl⟩)
  | noItems hc hclose hitems =>
      exact runLines_of_loop hc hclose (loop_error_iff.mpr (.inl hitems))
  | noText hc hclose hitems hno =>
      have hturns := turns_error_iff.mpr (.inl hno)
      exact runLines_of_loop hc hclose (loop_error_iff.mpr (.inr ⟨_, hitems, hturns⟩))
  | noScript hc hscript =>
      refine (runLines_of_command hc (by simp) (by simp)).mpr (.inl ⟨cause, ?_, rfl⟩)
      exact runFile_error_iff.mpr (.inl hscript)
  | effect hc hforeach hend _ hfails =>
      exact (runLines_of_command hc hforeach hend).mpr (.inl ⟨cause, hfails, rfl⟩)

/-- **What is declared to fail does**, wrapped in the lines of the moments. -/
theorem Fails.runNested_eq {base : Level} {depth : Nat} {file : Option String} {lines : List Line}
    {input : Tree} {w : World} {ms : List Moment} {cause : Error}
    (h : Fails base depth file lines input w ms cause) :
    (runNested base depth lines input w).1 =
      .error (Error.through (ms.map Moment.line) cause) := by
  induction h with
  | tooDeep => rfl
  | here h => exact h.runNested_eq
  | next hc hforeach hend hresult _ ih =>
      exact (runLines_of_command hc hforeach hend).mpr (.inr ⟨_, _, hresult, ih⟩)
  | script hc hscript _ ih =>
      have hfile := runFile_error_iff.mpr (.inr ⟨_, _, _, hscript, ih⟩)
      exact (runLines_of_command hc (by simp) (by simp)).mpr (.inl ⟨_, hfile, rfl⟩)
  | turn hc hclose hitems hstarts _ ih =>
      have hturns := turns_error_iff.mpr (.inr ⟨_, _, hstarts, ih⟩)
      exact runLines_of_loop hc hclose (loop_error_iff.mpr (.inr ⟨_, hitems, hturns⟩))
  | behind hc hclose hresult _ ih =>
      exact (runLines_of_foreach hc).mpr (.inr ⟨_, hclose, .inr ⟨_, _, hresult, ih⟩⟩)

/-- **A run of lines fails exactly as declared.** -/
theorem runNested_error_iff {base : Level} {depth : Nat} (file : Option String)
    {lines : List Line} {input : Tree} {w : World} {e : Error} :
    (runNested base depth lines input w).1 = .error e ↔
      FailsWith base depth file lines input w e := by
  constructor
  · intro h
    induction depth generalizing file lines input w e with
    | zero =>
        cases h
        exact ⟨[], .tooDeep, .tooDeep, rfl⟩
    | succ depth ih =>
        exact failsWith_of_runLines (fun file _ _ _ _ => ih file) lines input file w e h
  · rintro ⟨ms, cause, hfails, rfl⟩
    exact hfails.runNested_eq

/-! ## What the layers are -/

section

variable {base : Level} {depth : Nat} {file : Option String} {lines : List Line} {input : Tree}
  {w : World} {ms : List Moment} {cause : Error}

theorem NoText.isRoot {body : Tree → Run Tree} {index : Nat} {items : List (String × Tree)}
    (h : NoText body index items w cause) : cause.IsRoot := by
  induction h with
  | here hplain => exact rootsOnly_plainText _ _ hplain
  | later _ _ _ ih => exact ih

/-- **What fails at a line itself is a root cause.** -/
theorem FailsAt.isRoot {line : Line} {rest : List Line}
    (h : FailsAt base depth line rest input w cause) : cause.IsRoot := by
  cases h with
  | command hc => exact Run.RootsOnly.commandOf line w _ hc
  | unopened => trivial
  | unclosed _ hclose => exact rootsOnly_matchingEnd _ _ _ hclose
  | noItems _ _ hitems => exact rootsOnly_loopItems _ _ hitems
  | noText _ _ _ hno => exact hno.isRoot
  | noScript _ hscript => exact Run.RootsOnly.scriptOf _ _ _ hscript
  | effect _ _ _ hbatch hfails => exact Run.RootsOnly.execute hbatch base _ input _ _ hfails

theorem Fails.isRoot (h : Fails base depth file lines input w ms cause) : cause.IsRoot := by
  induction h with
  | tooDeep => trivial
  | here h => exact h.isRoot
  | next _ _ _ _ _ ih | script _ _ _ ih | turn _ _ _ _ _ ih | behind _ _ _ _ ih => exact ih

/-- Only scripts that run each other too deeply fail at no line. -/
theorem Fails.ne_nil (h : Fails base depth file lines input w ms cause) (hdepth : 0 < depth) :
    ms ≠ [] := by
  induction h with
  | tooDeep => exact absurd hdepth (Nat.lt_irrefl 0)
  | here | script | turn => exact List.cons_ne_nil _ _
  | next _ _ _ _ _ ih | behind _ _ _ _ ih => exact ih hdepth

/-- The moments of a failure are moments of the run. -/
theorem Fails.comesTo (h : Fails base depth file lines input w ms cause) {m : Moment}
    (hm : m ∈ ms) : ComesTo base depth file lines input w m := by
  induction h with
  | tooDeep => cases hm
  | here =>
      obtain rfl := List.mem_singleton.mp hm
      exact .line
  | next hc hforeach hend hresult _ ih => exact .next hc hforeach hend hresult (ih hm)
  | script hc hscript _ ih =>
      obtain rfl | hm := List.mem_cons.mp hm
      · exact .line
      · exact .script hc hscript (ih hm)
  | turn hc hclose hitems hstarts _ ih =>
      obtain rfl | hm := List.mem_cons.mp hm
      · exact .line
      · exact .turn hc hclose hitems hstarts (ih hm)
  | behind hc hclose hresult _ ih => exact .behind hc hclose hresult (ih hm)

/--
The first moment is at one of the lines of a script. Each one behind it is at a line of the loop
that the line before opens, or of the script that it runs.
-/
inductive Layered : (file : Option String) → List Line → List Moment → Prop where
  | last {file : Option String} {lines : List Line} {m : Moment} : m.file = file →
      m.line ∈ lines → Layered file lines [m]
  | loop {file : Option String} {lines : List Line} {m : Moment} {ms : List Moment}
      {i close : Nat} {w : World} : m.file = file → lines[i]? = some m.line →
      commandOf m.line m.world = (.ok .foreach, w) → matchingEnd lines i = .ok close →
      Layered file (between lines i close) ms → Layered file lines (m :: ms)
  | script {file : Option String} {lines : List Line} {m : Moment} {ms : List Moment}
      {reference path : String} {script : Script} {w w' : World} : m.file = file →
      m.line ∈ lines → commandOf m.line m.world = (.ok (.batch reference), w) →
      scriptOf reference w = (.ok (path, script), w') →
      Layered (some path) script.lines ms → Layered file lines (m :: ms)

/-- The end of a loop is found among all lines where it is found among the last ones. -/
theorem matchingEnd_of_drop {k i close : Nat} {l : Line} (hl : (lines.drop k)[i]? = some l)
    (h : matchingEnd (lines.drop k) i = .ok close) :
    matchingEnd lines (k + i) = .ok (k + close) := by
  obtain ⟨hi, rfl⟩ := List.getElem?_eq_some_iff.mp hl
  have hpart := List.drop_eq_getElem_cons hi
  have hall : lines.drop (k + i) = (lines.drop k)[i] :: (lines.drop k).drop (i + 1) := by
    rw [← List.drop_drop]
    exact hpart
  rw [matchingEnd_eq_map hpart] at h
  rw [matchingEnd_eq_map hall]
  cases hfound : matchingEnd ((lines.drop k)[i] :: (lines.drop k).drop (i + 1)) 0 with
  | error e =>
      rw [hfound] at h
      cases h
  | ok n =>
      rw [hfound] at h
      obtain rfl := Except.ok.inj h
      exact congrArg Except.ok (show n + (k + i) = k + (n + i) by omega)

/-- Lines of a part that a script ends with are lines of the script. -/
theorem Layered.of_drop {k : Nat} (h : Layered file (lines.drop k) ms) : Layered file lines ms := by
  cases h with
  | last hfile hmem => exact .last hfile (List.mem_of_mem_drop hmem)
  | @loop _ _ m ms i close w hfile hline hc hclose hrest =>
      have hbetween : between (lines.drop k) i close = between lines (k + i) (k + close) := by
        rw [between, between, List.drop_drop]
        congr 1
        · omega
      rw [hbetween] at hrest
      refine .loop hfile ?_ hc (matchingEnd_of_drop hline hclose) hrest
      rw [← List.getElem?_drop, hline]
  | script hfile hmem hc hscript hrest =>
      exact .script hfile (List.mem_of_mem_drop hmem) hc hscript hrest

/-- **Each moment is within the one before it.** -/
theorem Fails.layered (h : Fails base depth file lines input w ms cause) (hms : ms ≠ []) :
    Layered file lines ms := by
  induction h with
  | tooDeep => exact absurd rfl hms
  | here => exact .last rfl (List.mem_cons_self ..)
  | next _ _ _ _ _ ih => exact (ih hms).of_drop (k := 1)
  | @script _ _ _ _ _ _ _ _ _ _ _ ms _ hc hscript _ ih =>
      by_cases hnil : ms = []
      · subst hnil
        exact .last rfl (List.mem_cons_self ..)
      · exact .script rfl (List.mem_cons_self ..) hc hscript (ih hnil)
  | @turn _ _ _ _ _ _ _ _ _ _ _ ms _ hc hclose hitems hstarts hfails ih =>
      have hnil := hfails.ne_nil (Nat.succ_pos _)
      exact .loop (i := 0) rfl rfl hc hclose (ih hnil)
  | behind _ _ _ _ ih => exact (ih hms).of_drop (k := _ + 1)

end

/--
**A run that fails points at its lines.** It fails exactly as `Fails` declares: with a root cause
that is wrapped once in each of the lines that are being run when it happens, the outermost of them
a line of the script, and each of the others one of the loop that the line before opens or of the
script that it runs.
-/
theorem runFrom_error_iff (base : Level) (depth : Nat) (script : Script) (input : Tree) (w : World)
    (e : Error) :
    let w₀ := (Run.tell (scriptRecord script) w).2
    (runFrom base (depth + 1) script input w).1 = .error e ↔
      ∃ m ms cause, Fails base (depth + 1) none script.lines input w₀ (m :: ms) cause ∧
        e = .atLine m.line.number m.line.text (Error.through (ms.map Moment.line) cause) ∧
        Layered none script.lines (m :: ms) ∧
        (∀ n ∈ m :: ms, ComesTo base (depth + 1) none script.lines input w₀ n) ∧
        cause.IsRoot ∧ e.rootCause = cause := by
  intro w₀
  have hrun : (runFrom base (depth + 1) script input w).1 =
      (runNested base (depth + 1) script.lines input w₀).1 := rfl
  rw [hrun, runNested_error_iff none]
  constructor
  · rintro ⟨ms, cause, hfails, rfl⟩
    have hms := hfails.ne_nil (Nat.succ_pos depth)
    have hroot : (Error.through (ms.map Moment.line) cause).rootCause = cause := by
      rw [Error.rootCause_through, hfails.isRoot.rootCause_eq]
    obtain ⟨m, ms, rfl⟩ := List.exists_cons_of_ne_nil hms
    exact ⟨m, ms, cause, hfails, rfl, hfails.layered hms, fun _ => hfails.comesTo, hfails.isRoot,
      hroot⟩
  · rintro ⟨m, ms, cause, hfails, rfl, -⟩
    exact ⟨m :: ms, cause, hfails, rfl⟩

example : ∃ m m', Fails .off 1 none [⟨1, "foreach"⟩, ⟨2, "useAsInput !gone"⟩, ⟨3, "end"⟩]
    (.sequence [.null]) {} [m, m'] (.resource "!gone" .notStored) ∧
      m.line.number = 1 ∧ m'.line.number = 2 := by
  refine ⟨_, _, .turn (by rfl) (by rfl) (by rfl) (.here (by rfl)) (.here ?_), by rfl, by rfl⟩
  exact .effect (c := .useAsInput "!gone") (by rfl) nofun nofun nofun (by rfl)

end Script

end TreeEdit
