import Mathlib.Data.Bool.AllAny
import TreeEdit.Proofs.Structured

/-!
# The outcome of a run

`Run.Gives P step outcome Q` says what a step gives, a result or a failure, where `P` holds of the
context, and that `Q` holds of the context behind it. Records and the level at which they are kept
have no part in it. Such facts are put together along the run: by `Gives.bind` from step to step, by
`gives_loop` over the turns of a loop, and by `runLines_command` and `runLines_loop` over the lines.
-/

namespace TreeEdit

/-! ## What steps give -/

namespace Run

/-- Where `P` holds of the context, a step has an outcome, and `Q` holds behind it. -/
def Gives (P : Context → Prop) (step : Run α) (outcome : Except Error α) (Q : Context → Prop) :
    Prop :=
  ∀ w, P w.context → (step w).1 = outcome ∧ Q (step w).2.context

namespace Gives

variable {P Q R : Context → Prop} {step : Run α} {next : α → Run β} {a : α} {e : Error}
  {outcome : Except Error β}

theorem of_keeps (hkeeps : Keeps World.context step) {outcome : Except Error α}
    (h : ∀ w, P w.context → (step w).1 = outcome) : Gives P step outcome P :=
  fun w hw => ⟨h w hw, by rw [hkeeps w]; exact hw⟩

theorem pure (a : α) : Gives P (Pure.pure a) (.ok a) P := fun _ hw => ⟨rfl, hw⟩

theorem ofExcept (outcome : Except Error α) : Gives P (Run.ofExcept outcome) outcome P :=
  fun _ hw => ⟨rfl, hw⟩

theorem tell (r : Record) : Gives P (Run.tell r) (.ok ()) P :=
  of_keeps (keeps_context_tell r) fun _ _ => rfl

theorem changeContext {change : Context → Context} (h : ∀ c, P c → Q (change c)) :
    Gives P (Run.changeContext change) (.ok ()) Q :=
  fun w hw => ⟨rfl, h w.context hw⟩

theorem bind (h : Gives P step (.ok a) Q) (hnext : Gives Q (next a) outcome R) :
    Gives P (step >>= next) outcome R := by
  intro w hw
  obtain ⟨hfirst, hsecond⟩ := h w hw
  rw [bind_apply]
  rcases hstep : step w with ⟨r, w'⟩
  rw [hstep] at hfirst hsecond
  obtain rfl : r = .ok a := hfirst
  exact hnext w' hsecond

theorem bind_error (h : Gives P step (.error e) Q) : Gives P (step >>= next) (.error e) Q := by
  intro w hw
  obtain ⟨hfirst, hsecond⟩ := h w hw
  rw [bind_apply]
  rcases hstep : step w with ⟨r, w'⟩
  rw [hstep] at hfirst hsecond
  obtain rfl : r = .error e := hfirst
  exact ⟨rfl, hsecond⟩

theorem tellAll (rs : List Record) : Gives P (Run.tellAll rs) (.ok ()) P := by
  induction rs with
  | nil => exact .pure ()
  | cons r rs ih => exact .bind (.tell r) ih

theorem weaken {outcome : Except Error α} (h : Gives P step outcome Q) (hQ : ∀ c, Q c → R c) :
    Gives P step outcome R :=
  fun w hw => ⟨(h w hw).1, hQ _ (h w hw).2⟩

/-- A step that looks at the context first. -/
theorem context_bind {next : Context → Run β} (h : ∀ c, P c → Gives P (next c) outcome R) :
    Gives P (Run.context >>= next) outcome R :=
  fun w hw => h w.context hw w hw

theorem lending {change : Context → Context} {restore : (old new : Context) → Context}
    {outcome : Except Error α} (hchange : ∀ c, P c → Q (change c)) (h : Gives Q step outcome R) :
    Gives P (Run.lending change restore step) outcome fun _ => True :=
  fun w hw => ⟨(h _ (hchange w.context hw)).1, trivial⟩

/-- A step of a line gives what the step gives, a failure with the line. -/
theorem atLine (line : Line) {outcome : Except Error α} (h : Gives P step outcome Q) :
    Gives P (Script.atLine line step) (outcome.mapError (.atLine line.number line.text)) Q := by
  intro w hw
  obtain ⟨rfl, hsecond⟩ := h w hw
  rw [Script.atLine]
  rcases hstep : step w with ⟨_ | a, w'⟩ <;> rw [hstep] at hsecond <;> exact ⟨rfl, hsecond⟩

end Gives

end Run

namespace Script

open Run (Gives)

/-! ## Loops -/

section

variable {P : Context → Prop} {body : Tree → Run Tree}

/-- One turn of a loop. -/
def turn (body : Tree → Run Tree) (index : Nat) (e : String × Tree) : Run Tree := do
  let value ← Run.ofExcept e.2.plainText
  Run.changeContext (·.enterIteration index e.1 value)
  body e.2

theorem turns_cons (index : Nat) (e : String × Tree) (rest : List (String × Tree)) :
    turns body index (e :: rest) = (do
      let result ← turn body index e
      return result :: (← turns body (index + 1) rest)) := by
  simp only [turns, turn, bind_assoc]

/-- The turns of a loop give one result for each item. -/
theorem gives_turns {f : Tree → Tree} {items : List (String × Tree)}
    (h : ∀ e ∈ items, ∀ index, Gives P (turn body index e) (.ok (f e.2)) P) (index : Nat) :
    Gives P (turns body index items) (.ok (items.map fun e => f e.2)) P := by
  induction items generalizing index with
  | nil => exact .pure _
  | cons e items ih =>
      obtain ⟨he, hitems⟩ := List.forall_mem_cons.mp h
      rw [turns_cons]
      exact .bind (he index) (.bind (ih hitems (index + 1)) (.pure _))

/-- The items of a sequence, with their positions. -/
theorem loopItems_sequence (vs : List Tree) : ∃ items, loopItems (.sequence vs) = .ok items ∧
    items.map Prod.snd = vs := by
  refine ⟨_, rfl, ?_⟩
  rw [List.map_map]
  exact List.zipIdx_map_fst 0 vs

/-- A loop over a sequence gives the sequence of what its turns give. -/
theorem gives_loop (hscope : ∀ c, P c → P { c with loopScope := [] }) {f : Tree → Tree}
    {vs : List Tree}
    (h : ∀ v ∈ vs, ∀ key index, Gives P (turn body index (key, v)) (.ok (f v)) P) :
    Gives P (loop body (.sequence vs)) (.ok (.sequence (vs.map f))) fun _ => True := by
  obtain ⟨items, hitems, rfl⟩ := loopItems_sequence vs
  have hturns : Gives P (turns body 0 items) (.ok (items.map fun e => f e.2)) P :=
    gives_turns (fun e he => h e.2 (List.mem_map_of_mem he) e.1) 0
  rw [loop, hitems, List.map_map]
  exact .bind (.ofExcept _) (.bind (.lending hscope hturns) (.pure _))

/-- A loop fails if its first turn does. -/
theorem gives_loop_error (hscope : ∀ c, P c → P { c with loopScope := [] }) {error : Error}
    {v : Tree} {vs : List Tree}
    (h : ∀ key index, Gives P (turn body index (key, v)) (.error error) P) :
    Gives P (loop body (.sequence (v :: vs))) (.error error) fun _ => True := by
  obtain ⟨items, hitems, hvs⟩ := loopItems_sequence (v :: vs)
  obtain ⟨⟨key, v'⟩, rest, rfl⟩ : ∃ e rest, items = e :: rest :=
    List.exists_cons_of_ne_nil (by rintro rfl; cases hvs)
  obtain rfl : v' = v := (List.cons.inj hvs).1
  have hturns : Gives P (turns body 0 ((key, v') :: rest)) (.error error) P := by
    rw [turns_cons]
    exact .bind_error (h key 0)
  rw [loop, hitems]
  exact .bind (.ofExcept _) (.bind_error (.lending hscope hturns))

end

/-! ## Lines -/

/-- The command of a line whose words are expanded one by one. -/
theorem gives_commandOf {P : Context → Prop} {line : Line} {words : List String} {c : Command}
    (hwhole : expandsWhole line = false)
    (hwords : ∀ context, P context → wordsOf context.scope line = .ok words)
    (hcommand : Command.ofWords words = .ok c) : Gives P (commandOf line) (.ok c) P := by
  refine .context_bind fun context hcontext => ?_
  simp only [hwhole, Bool.false_eq_true, if_false, hwords context hcontext]
  refine .bind (.ofExcept _) (.bind (.tell _) ?_)
  rw [hcommand]
  exact .ofExcept _

/-- The command of a line with no macros. -/
theorem gives_commandOf_of_plain {P : Context → Prop} {line : Line} {words : List String}
    {c : Command} (hwhole : expandsWhole line = false)
    (hsplit : Words.split? line.text = some words)
    (hplain : ∀ word ∈ words, (word.toList.all fun c => c ≠ '$') = true)
    (hcommand : Command.ofWords words = .ok c) : Gives P (commandOf line) (.ok c) P :=
  gives_commandOf hwhole (fun _ _ => wordsOf_of_plain hsplit hplain) hcommand

/-- What a line with a plain command gives is what the command does. -/
theorem gives_runCommand {P Q : Context → Prop} {execute : Command → Tree → Run Tree} {line : Line}
    {c : Command} {input : Tree} {outcome : Except Error Tree}
    (hcommand : Gives P (commandOf line) (.ok c) P) (hbracket : c ≠ .foreach ∧ c ≠ .end_)
    (h : Gives P (execute c input) outcome Q) :
    Gives P (runCommand execute line input) outcome Q := by
  refine .bind hcommand ?_
  cases c with
  | foreach => exact absurd rfl hbracket.1
  | end_ => exact absurd rfl hbracket.2
  | _ => exact h

theorem runLines_nil (execute : Command → Tree → Run Tree) : runLines execute [] = pure := by
  funext t
  rw [runLines]

/-- The last line of a script is no different. -/
theorem runLines_singleton {execute : Command → Tree → Run Tree} {line : Line}
    (plain : line.isForeach = false ∧ line.isEnd = false) (input : Tree) :
    runLines execute [line] input = atLine line (runCommand execute line input) := by
  rw [runLines_command plain, runLines_nil, bind_pure]

/-- The outcome of a script is that of its lines. -/
theorem run_of_gives {P : Context → Prop} {depth : Nat} {script : Script} {input : Tree}
    {outcome : Except Error Tree}
    (h : ∀ base, Gives P (runNested base depth script.lines input) outcome fun _ => True)
    {w : World} (hw : P w.context) : (run depth script input w).1 = outcome := by
  have hrun : Gives P (do
      Run.tell (scriptRecord script)
      runNested w.level depth script.lines input) outcome fun _ => True :=
    .bind (.tell _) (h w.level)
  exact (hrun w hw).1

end Script

end TreeEdit
