import TreeEdit.Script.Run

/-!
# What a run leaves as it was

A run changes its world step by step, and what most steps change is little. `Run.Keeps f step` says
that `f` of the world is the same after the step as before it, whether the step succeeds or fails.
Steps of a program keep what all their parts keep, so a fact about a whole run is a fact about each
single step.

Steps on files, records and printed text keep the context. A script does change it, and two parts
of it for a time only: a loop sets its variables and a script in a file sets the base directory,
each giving back the old value. `Context.lent` is what is given back that way, together with the
settings of patterns, which no command changes.
-/

namespace TreeEdit

namespace Run

variable {f : World → β} {m : Run α}

/-- A step after another one, on a world. -/
theorem bind_apply (m : Run α) (g : α → Run γ) (w : World) :
    (m >>= g) w = match m w with
      | (.ok a, w') => g a w'
      | (.error e, w') => (.error e, w') := by
  simp only [bind, ExceptT.bind, ExceptT.mk, StateT.bind, ExceptT.bindCont]
  rcases m w with ⟨_ | _, _⟩ <;> rfl

/-- A step after another one succeeds if both do. -/
theorem bind_ok {g : α → Run γ} {w w'' : World} {b : γ} (h : (m >>= g) w = (.ok b, w'')) :
    ∃ a w', m w = (.ok a, w') ∧ g a w' = (.ok b, w'') := by
  rw [bind_apply] at h
  split at h
  · exact ⟨_, _, ‹_›, h⟩
  · cases h

/-- Whether `f` of the world is the same after a step as before it. -/
def Keeps (f : World → β) (m : Run α) : Prop := ∀ w, f (m w).2 = f w

namespace Keeps

/-- What a step keeps, once its outcome is known. -/
theorem of_eq (h : Keeps f m) {w w' : World} {r : Except Error α} (hw : m w = (r, w')) :
    f w' = f w := by
  rw [← h w, hw]

/-- What is seen through something that is kept is kept. -/
theorem comp (h : Keeps f m) (g : β → γ) : Keeps (fun w => g (f w)) m :=
  fun w => congrArg g (h w)

theorem pure (a : α) : Keeps f (Pure.pure a : Run α) := fun _ => rfl

theorem throw (e : Error) : Keeps f (MonadExcept.throw e : Run α) := fun _ => rfl

theorem ofExcept (outcome : Except Error α) : Keeps f (Run.ofExcept outcome) := fun _ => rfl

theorem context : Keeps f Run.context := fun _ => rfl

/-- Steps in a row keep what each of them keeps. -/
theorem bind {g : α → Run γ} (hm : Keeps f m) (hg : ∀ a, Keeps f (g a)) : Keeps f (m >>= g) := by
  intro w
  rw [bind_apply]
  have hw := hm w
  rcases hres : m w with ⟨_ | a, w'⟩
  · exact (congrArg (f ·.2) hres).symm.trans hw
  · exact (hg a w').trans ((congrArg (f ·.2) hres).symm.trans hw)

theorem atLine (line : Line) (hm : Keeps f m) : Keeps f (Script.atLine line m) := by
  intro w
  rw [← hm w, Script.atLine]
  rcases m w with ⟨_ | _, _⟩ <;> rfl

/-- A change of the context keeps what does not depend on what it changes. -/
theorem changeContext {g : Context → β} {change : Context → Context}
    (h : ∀ c, g (change c) = g c) : Keeps (g ·.context) (Run.changeContext change) :=
  fun w => h w.context

/-- A step in a changed context keeps what it gives back. -/
theorem lending {g : Context → β} {k : Context → γ} {change : Context → Context}
    {restore : (old new : Context) → Context} (hm : Keeps (k ·.context) m)
    (h : ∀ old new, k new = k (change old) → g (restore old new) = g old) :
    Keeps (g ·.context) (Run.lending change restore m) :=
  fun w => h w.context _ (hm _)

end Keeps

/-! ## Steps that keep the context -/

theorem keeps_context_tell (r : Record) : Keeps World.context (tell r) := by
  intro w
  rw [tell]
  split <;> rfl

theorem keeps_context_tellAll (rs : List Record) : Keeps World.context (tellAll rs) := by
  induction rs with
  | nil => exact .pure _
  | cons r rs ih => exact .bind (keeps_context_tell r) fun _ => ih

theorem keeps_context_print (text : String) : Keeps World.context (print text) := fun _ => rfl

theorem keeps_context_pause (n : Nat) : Keeps World.context (pause n) := fun _ => rfl

theorem keeps_context_setLevel (level : Level) : Keeps World.context (setLevel level) :=
  fun _ => rfl

theorem keeps_context_readText (path : String) : Keeps World.context (readText path) := by
  intro w
  rw [readText]
  split <;> rfl

theorem keeps_context_writeText (path text : String) :
    Keeps World.context (writeText path text) := by
  intro w
  rw [writeText]
  split <;> rfl

theorem keeps_context_render (format : Format) (t : Tree) :
    Keeps World.context (render format t) :=
  .bind .context fun _ => .bind (keeps_context_tellAll _) fun _ => .ofExcept _

/-- Loading a document looks the reference up and changes nothing. -/
theorem keeps_context_load (reference : String) : Keeps World.context (load reference) := by
  refine .bind .context fun c => ?_
  cases Reference.ofText reference with
  | file path isOptional =>
      refine .bind (fun w => ?_) fun absent => ?_
      · cases isOptional <;> rfl
      · split
        · exact .bind (keeps_context_tell _) fun _ => .pure _
        · exact .bind (keeps_context_readText _) fun _ => .bind .context fun _ => .ofExcept _
  | stored name isOptional =>
      dsimp only
      split
      · exact .pure _
      · split
        · exact .pure _
        · exact .throw _
  | inline text => exact .pure _

end Run

/-! ## What scripts give back -/

namespace Context

/-- The settings that a script may at most lend. -/
def settings (c : Context) : String × String × String := (c.delimiter, c.listDelimiter, c.baseDir)

/-- What a script gives back: the settings and the variables of the innermost loop. -/
def lent (c : Context) : (String × String × String) × Dictionary String :=
  (c.settings, c.loopScope)

end Context

namespace Run

theorem keeps_context_writeDocument (path : String) (t : Tree) :
    Keeps World.context (writeDocument path t) :=
  .bind (keeps_context_render _ t) fun _ => keeps_context_writeText path _

/-- Saving to the store changes the context, but not what a script was lent. -/
theorem keeps_lent_save (reference : String) (t : Tree) :
    Keeps (·.context.lent) (save reference t) := by
  unfold save
  cases Reference.ofText reference with
  | file path =>
      refine .bind .context fun c => .comp ?_ Context.lent
      exact .bind (keeps_context_tell _) fun _ => keeps_context_writeDocument _ t
  | stored name => exact .changeContext fun _ => rfl
  | inline text => exact .throw _

theorem keeps_lent_loadProperties (space : String) (t : Tree) :
    Keeps (·.context.lent) (loadProperties space t) :=
  .bind (.ofExcept _) fun _ => .bind ((keeps_context_tell _).comp Context.lent) fun _ =>
    .changeContext fun _ => rfl

end Run

namespace Script

open Run (Keeps keeps_lent_save keeps_lent_loadProperties)

variable {runScript : List Line → Tree → Run Tree}

/-- A step of a line succeeds as the step does. -/
theorem atLine_ok {line : Line} {step : Run α} {w w' : World} {a : α}
    (h : atLine line step w = (.ok a, w')) : step w = (.ok a, w') := by
  unfold atLine at h
  split at h
  · rename_i hstep
    exact hstep.trans h
  · cases h

/-- Making a command of a line replaces macros by what the context says, and only reads it. -/
theorem keeps_context_commandOf (line : Line) : Keeps World.context (commandOf line) := by
  refine .bind .context fun c => ?_
  split
  · exact .bind (.ofExcept _) fun _ => .bind (Run.keeps_context_tell _) fun _ => .ofExcept _
  · exact .bind (.ofExcept _) fun _ => .bind (Run.keeps_context_tell _) fun _ => .ofExcept _

/-- A verb may load content and tell records; the context stays as it is. -/
theorem keeps_context_runYaml (c : YamlCommand) (input : Tree) :
    Keeps World.context (runYaml c input) := by
  have hverb : Keeps World.context (verbOf c) := by
    unfold verbOf
    cases c.verb with
    | read | list | delete => exact .pure _
    | insert | replace => exact .bind (Run.keeps_context_load _) fun _ => .pure _
    | table =>
        dsimp only
        split
        · exact .throw _
        · exact .pure _
  refine .bind .context fun _ => .bind (.ofExcept _) fun p => .bind hverb fun v => ?_
  exact .bind .context fun _ => .bind (Run.keeps_context_tellAll _) fun _ => .ofExcept _

/-- The turns of a loop set its variables and nothing else. -/
theorem keeps_settings_turns {body : Tree → Run Tree}
    (hbody : ∀ t, Keeps (·.context.settings) (body t)) (index : Nat)
    (items : List (String × Tree)) : Keeps (·.context.settings) (turns body index items) := by
  induction items generalizing index with
  | nil => exact .pure _
  | cons item items ih =>
      exact .bind (.ofExcept _) fun _ => .bind (.changeContext fun _ => rfl) fun _ =>
        .bind (hbody _) fun _ => .bind (ih _) fun _ => .pure _

/-- A loop gives back the variables of the loop around it. -/
theorem keeps_lent_loop {body : Tree → Run Tree}
    (hbody : ∀ t, Keeps (·.context.lent) (body t)) (input : Tree) :
    Keeps (·.context.lent) (loop body input) := by
  -- the turns change the loop variables, so only the settings can be carried through them
  refine .bind (.ofExcept _) fun items =>
    .bind (.lending (k := Context.settings) ?_ ?_) fun _ => .pure _
  · exact keeps_settings_turns (fun t => (hbody t).comp Prod.fst) 0 items
  · exact fun old new h => Prod.ext h rfl

/-- Lines give back what their commands give back. -/
theorem keeps_lent_runLines {execute : Command → Tree → Run Tree}
    (hexec : ∀ c t, Keeps (·.context.lent) (execute c t))
    (lines : List Line) (input : Tree) :
    Keeps (·.context.lent) (runLines execute lines input) := by
  fun_induction runLines execute lines input with
  | case1 input => exact .pure _
  | case2 input line rest ihbody ihrest ihnext =>
      refine .bind (.atLine line ((keeps_context_commandOf line).comp Context.lent)) fun c => ?_
      cases c with
      | foreach =>
          exact .bind (.atLine line (.ofExcept _)) fun close =>
            .bind (.atLine line (keeps_lent_loop (fun t => ihbody close t) input)) fun result =>
              ihrest close result
      | end_ => exact .atLine line (.throw _)
      | _ => exact .bind (.atLine line (hexec _ input)) fun result => ihnext result

theorem keeps_context_printText (text : String) (input : Tree) :
    Keeps World.context (printText text input) := by
  unfold printText
  split
  · exact .bind (Run.keeps_context_render _ _) fun _ => Run.keeps_context_print _
  · exact Run.keeps_context_print _

/-- A script in a file gives back the base directory. -/
theorem keeps_lent_runFile (hrun : ∀ ls t, Keeps (·.context.lent) (runScript ls t))
    (reference : String) (input : Tree) :
    Keeps (·.context.lent) (runFile runScript reference input) := by
  have hload (path : String) : Keeps World.context (load path) :=
    .bind (Run.keeps_context_readText path) fun _ => .ofExcept _
  refine .bind .context fun c => .bind ((hload _).comp Context.lent) fun script => ?_
  refine .bind ((Run.keeps_context_tell _).comp Context.lent) fun _ => ?_
  refine .lending (hrun script.lines input) fun old new h => ?_
  simp only [Context.lent, Context.settings, Prod.mk.injEq] at h
  simp only [Context.lent, Context.settings, restoreBase, h]

/-- A command gives back what it lends if the scripts that it runs do. -/
theorem keeps_lent_execute (hrun : ∀ ls t, Keeps (·.context.lent) (runScript ls t)) (base : Level)
    (c : Command) (input : Tree) : Keeps (·.context.lent) (execute base runScript c input) := by
  have lent {α : Type} {m : Run α} (h : Keeps World.context m) : Keeps (·.context.lent) m :=
    h.comp Context.lent
  cases c with
  | makeNewRoot reference =>
      cases reference with
      | none => exact .pure _
      | some reference => exact lent (Run.keeps_context_load reference)
  | useAsInput reference => exact lent (Run.keeps_context_load reference)
  | batch reference => exact keeps_lent_runFile hrun reference input
  | property space reference =>
      exact .bind (lent (Run.keeps_context_load reference)) fun t =>
        .bind (keeps_lent_loadProperties space t) fun _ => .pure _
  | save reference => exact .bind (keeps_lent_save reference input) fun _ => .pure _
  | setProperty key value => exact .bind (.changeContext fun _ => rfl) fun _ => .pure _
  | print text => exact .bind (lent (keeps_context_printText text input)) fun _ => .pure _
  | useYamlLibrary dialect =>
      exact .bind (lent (Run.keeps_context_tell _)) fun _ =>
        .bind (.changeContext fun _ => rfl) fun _ => .pure _
  | verbose on => exact .bind (lent (Run.keeps_context_setLevel _)) fun _ => .pure _
  | sleep pause =>
      exact .bind (lent (Run.keeps_context_tell _)) fun _ =>
        .bind (lent (Run.keeps_context_pause _)) fun _ => .pure _
  | expandTree => exact .bind .context fun _ => .ofExcept _
  | yaml c => exact lent (keeps_context_runYaml c input)
  | foreach | end_ => exact .throw _

/-- Scripts give back what they lend, however deep they run each other. -/
theorem keeps_lent_runNested (base : Level) (depth : Nat) (lines : List Line) (input : Tree) :
    Keeps (·.context.lent) (runNested base depth lines input) := by
  induction depth generalizing lines input with
  | zero => exact .throw _
  | succ depth ih => exact keeps_lent_runLines (keeps_lent_execute ih base) lines input

end Script

end TreeEdit
