import TreeEdit.Proofs.Blocks
import TreeEdit.Proofs.Keywords

/-!
# A flat run is a structured one

A script runs as a flat list of lines. A loop is found by counting brackets, its body is cut out of
the list and run as lines again, and its variables are a part of the context that is changed before
every turn and put back by hand behind the last one. `runLines_drop` tells such a run by positions
in the list.

`Block.eval` says what a script means without any of this. It goes by the structure of the blocks,
and the variables that a line sees are a parameter: those of the loop that the line stands in, and
outside all loops those that were there from the start. `runNested_eq_evalNested` states that both
are one, for every script that is accepted and for the scripts that it runs, to the last record,
whether the run succeeds or fails.

Two facts carry it. A script gives back the loop variables that it found, so that a scope reaches
over a sequence of steps (`inScope_bind`); and counting brackets finds the `end` right behind the
body (`Block.matchingEnd_loop`), so that one line or one loop of a run can be taken off the front.
-/

namespace TreeEdit.Script

/-! ## The evaluator -/

/-- A step that sees given loop variables. It gives back those that it found. -/
def inScope (scope : Dictionary String) (step : Run α) : Run α :=
  Run.lending ({ · with loopScope := scope }) restoreLoop step

/--
Does what a line says that is no bracket. A macro may still make it one; then it has no partner and
is refused.
-/
def runCommand (execute : Command → Tree → Run Tree) (line : Line) (input : Tree) : Run Tree := do
  match ← commandOf line with
  | .foreach => throw (.grammar line.number .unclosedForeach)
  | .end_ => throw (.grammar line.number .unopenedEnd)
  | command => execute command input

/-- One turn for every item, in order, with the variables of its turn. -/
def eachItem (turn : Dictionary String → Tree → Run Tree) (index : Nat)
    (items : List (String × Tree)) : Run (List Tree) :=
  (items.zipIdx index).mapM fun ((key, item), index) => do
    let value ← Run.ofExcept item.plainText
    turn (Context.iteration index key value) item

namespace Block

mutual

/-- What a block gives, `scope` being the variables of the loop around it. -/
def eval (execute : Command → Tree → Run Tree) (scope : Dictionary String) :
    Block → Tree → Run Tree
  | command line _, input => atLine line (inScope scope (runCommand execute line input))
  | loop head _ body _ _, input => atLine head do
    let _ ← inScope scope (commandOf head)
    let items ← Run.ofExcept (loopItems input)
    let results ← eachItem (fun turn item => evalAll execute turn body item) 0 items
    return .sequence results

/-- What blocks give one after the other. -/
def evalAll (execute : Command → Tree → Run Tree) (scope : Dictionary String) :
    List Block → Tree → Run Tree
  | [], input => return input
  | b :: bs, input => do evalAll execute scope bs (← b.eval execute scope input)

end

end Block

/-! ## Steps in a scope -/

/-- The world with other loop variables. -/
def withLoop (scope : Dictionary String) (w : World) : World :=
  { w with context := { w.context with loopScope := scope } }

theorem withLoop_of_eq {scope : Dictionary String} {w : World} (h : w.context.loopScope = scope) :
    withLoop scope w = w := h ▸ rfl

section

variable (scope : Dictionary String)

theorem inScope_apply (step : Run α) (w : World) :
    inScope scope step w = ((step (withLoop scope w)).1,
      withLoop w.context.loopScope (step (withLoop scope w)).2) := rfl

theorem inScope_pure (a : α) : inScope scope (pure a : Run α) = pure a := rfl

theorem inScope_ofExcept (outcome : Except Error α) :
    inScope scope (Run.ofExcept outcome) = Run.ofExcept outcome := rfl

/-- A turn sets all loop variables, whatever they were. -/
theorem inScope_enterIteration (index : Nat) (key value : String) (step : Run α) :
    inScope scope (do Run.changeContext (·.enterIteration index key value); step) =
      inScope (Context.iteration index key value) step := rfl

theorem inScope_atLine (line : Line) (step : Run α) :
    inScope scope (atLine line step) = atLine line (inScope scope step) := by
  funext w
  simp only [inScope_apply, atLine]
  rcases step (withLoop scope w) with ⟨_ | _, _⟩ <;> rfl

/-- A scope reaches over what keeps the loop variables. -/
theorem inScope_bind {step : Run α} (h : Run.Keeps (·.context.loopScope) step)
    (next : α → Run β) :
    inScope scope (step >>= next) = inScope scope step >>= fun a => inScope scope (next a) := by
  funext w
  have hkeeps := h (withLoop scope w)
  simp only [inScope_apply, Run.bind_apply]
  rcases hres : step (withLoop scope w) with ⟨_ | a, w'⟩
  · rfl
  · rw [hres] at hkeeps
    have hsame : withLoop scope (withLoop w.context.loopScope w') = w' := withLoop_of_eq hkeeps
    simp only [hsame]
    rfl

/-- In the variables that are there already, what keeps them does what it does anyway. -/
theorem inScope_of_keeps {step : Run α} (h : Run.Keeps (·.context.loopScope) step) (w : World) :
    inScope w.context.loopScope step w = step w := by
  have hsame : withLoop w.context.loopScope w = w := withLoop_of_eq rfl
  rw [inScope_apply, hsame, withLoop_of_eq (h w)]
  rfl

/-- What is made of the result of a step is no matter of its scope. -/
theorem inScope_bind_pure (step : Run α) (f : α → β) :
    inScope scope (step >>= fun a => pure (f a)) = inScope scope step >>= fun a => pure (f a) := by
  funext w
  simp only [inScope_apply, Run.bind_apply]
  rcases step (withLoop scope w) with ⟨_ | _, _⟩ <;> rfl

end

/-! ## Lines one after the other -/

section

variable {execute : Command → Tree → Run Tree}

theorem atLine_bind (line : Line) (step : Run α) (next : α → Run β) :
    atLine line (step >>= next) = atLine line step >>= fun a => atLine line (next a) := by
  funext w
  simp only [atLine, Run.bind_apply]
  rcases step w with ⟨_ | _, _⟩ <;> rfl

/-- A step that fails is the last one. -/
theorem atLine_error_bind (line : Line) (e : Error) (next : α → Run β) :
    (atLine line (Run.ofExcept (.error e)) >>= next) =
      throw (.atLine line.number line.text e) := rfl

theorem atLine_ofExcept_ok (line : Line) (a : α) :
    atLine line (Run.ofExcept (.ok a)) = pure a := rfl

/--
Lines are run by their position: the line there is done, and the run goes on behind it or, if it is
a `foreach`, behind the `end` that counting brackets finds among all lines.
-/
theorem runLines_drop {lines : List Line} {line : Line} {i : Nat} (h : lines[i]? = some line)
    (input : Tree) :
    runLines execute (lines.drop i) input = (do
      match ← atLine line (commandOf line) with
      | .foreach =>
        let close ← atLine line (Run.ofExcept (matchingEnd lines i))
        let body := (lines.take close).drop (i + 1)
        let result ← atLine line (loop (runLines execute body) input)
        runLines execute (lines.drop (close + 1)) result
      | .end_ => atLine line (throw (.grammar line.number .unopenedEnd))
      | command =>
        let result ← atLine line (execute command input)
        runLines execute (lines.drop (i + 1)) result) := by
  obtain ⟨hi, rfl⟩ := List.getElem?_eq_some_iff.mp h
  have hdrop := List.drop_eq_getElem_cons hi
  rw [hdrop, runLines, matchingEnd_eq_map hdrop]
  congr 1
  funext c
  cases c with
  | foreach =>
      cases matchingEnd (lines[i] :: lines.drop (i + 1)) 0 with
      -- what would follow differs in form, so the failure is taken to the front first
      | error e => rw [Except.map, atLine_error_bind, atLine_error_bind]
      | ok close =>
          have htake : (lines.take (close + i)).drop (i + 1) =
              (lines.drop (i + 1)).take (close - 1) := by
            rw [List.drop_take]
            congr 1
            omega
          have hrest : lines.drop (close + i + 1) = (lines.drop (i + 1)).drop close := by
            rw [List.drop_drop]
            congr 1
            omega
          dsimp only [Except.map]
          rw [atLine_ofExcept_ok, atLine_ofExcept_ok, pure_bind, pure_bind, htake, hrest]
  | _ => rfl

/-- A line that is no bracket is done, and then the lines behind it. -/
theorem runLines_command {line : Line} (plain : line.isForeach = false ∧ line.isEnd = false)
    (rest : List Line) (input : Tree) :
    runLines execute (line :: rest) input =
      atLine line (runCommand execute line input) >>= runLines execute rest := by
  rw [runLines, runCommand, atLine_bind, bind_assoc]
  congr 1
  funext c
  cases c with
  -- only a macro leads here: the count starts at a line that opens nothing
  | foreach => rw [Block.matchingEnd_command plain, atLine_error_bind]; rfl
  | _ => rfl

/-- A loop is done, and then the lines behind it. -/
theorem runLines_loop {head close : Line} (opens : head.isForeach = true)
    (closes : close.isEnd = true) (body : List Block) (rest : List Line) (input : Tree) :
    runLines execute (head :: (Block.linesOf body ++ close :: rest)) input =
      atLine head (do let _ ← commandOf head; loop (runLines execute (Block.linesOf body)) input)
        >>= runLines execute rest := by
  rw [runLines, atLine_bind, bind_assoc]
  funext w
  rw [Run.bind_apply, Run.bind_apply]
  rcases hres : atLine head (commandOf head) w with ⟨e | c, w'⟩
  · rfl
  · obtain rfl := commandOf_of_isForeach opens (atLine_ok hres)
    have htake : (Block.linesOf body ++ close :: rest).take (Block.linesOf body).length =
        Block.linesOf body := List.take_left
    have hdrop : (Block.linesOf body ++ close :: rest).drop ((Block.linesOf body).length + 1) =
        rest := by simp
    dsimp only
    rw [Block.matchingEnd_loop opens closes, atLine_ofExcept_ok, pure_bind, Nat.add_sub_cancel,
      htake, hdrop]

end

/-! ## The turns of a loop -/

section

variable {body : Tree → Run Tree} (hbody : ∀ t, Run.Keeps (·.context.loopScope) (body t))
  (scope : Dictionary String)

include hbody

/-- The turns of a loop, each in its own variables. -/
theorem inScope_turns (index : Nat) (items : List (String × Tree)) :
    inScope scope (turns body index items) =
      eachItem (fun turn item => inScope turn (body item)) index items := by
  induction items generalizing index scope with
  | nil => rfl
  | cons entry items ih =>
      obtain ⟨key, item⟩ := entry
      rw [turns, inScope_bind _ (.ofExcept _), inScope_ofExcept, eachItem, List.zipIdx_cons,
        List.mapM_cons, bind_assoc]
      congr 1
      funext value
      -- the next turn starts in the variables of this one, hence any `scope` in the induction
      rw [inScope_enterIteration, inScope_bind _ (hbody item)]
      congr 1
      funext result
      rw [inScope_bind_pure, ih, eachItem]

/-- A loop is its turns, whatever variables are around it. -/
theorem inScope_loop (input : Tree) :
    inScope scope (loop body input) = do
      let items ← Run.ofExcept (loopItems input)
      let results ← eachItem (fun turn item => inScope turn (body item)) 0 items
      return .sequence results := by
  rw [loop, inScope_bind _ (.ofExcept _), inScope_ofExcept]
  congr 1
  funext items
  rw [inScope_bind_pure, ← inScope_turns hbody []]
  rfl

end

/-! ## Blocks -/

section

variable {execute : Command → Tree → Run Tree}

theorem keeps_loopScope_runLines (hexec : ∀ c t, Run.Keeps (·.context.lent) (execute c t))
    (lines : List Line) (input : Tree) :
    Run.Keeps (·.context.loopScope) (runLines execute lines input) :=
  (keeps_lent_runLines hexec lines input).comp Prod.snd

theorem keeps_loopScope_runCommand (hexec : ∀ c t, Run.Keeps (·.context.lent) (execute c t))
    (line : Line) (input : Tree) :
    Run.Keeps (·.context.loopScope) (runCommand execute line input) := by
  refine .bind ((keeps_context_commandOf line).comp Context.loopScope) fun c => ?_
  cases c with
  | foreach | end_ => exact .throw _
  | _ => exact (hexec _ input).comp Prod.snd

namespace Block

mutual

/-- A block is evaluated as its lines are run before all others. -/
theorem eval_bind (hexec : ∀ c t, Run.Keeps (·.context.lent) (execute c t))
    (scope : Dictionary String) (rest : List Line) : (b : Block) → (input : Tree) →
      (b.eval execute scope input >>= fun t => inScope scope (runLines execute rest t)) =
        inScope scope (runLines execute (b.lines ++ rest) input)
  | command line plain, input => by
      have hkeeps := Run.Keeps.atLine line (keeps_loopScope_runCommand hexec line input)
      rw [lines, List.singleton_append, runLines_command plain, inScope_bind scope hkeeps,
        inScope_atLine, eval]
  | loop head opens body close closes, input => by
      -- everything in a loop gives back the variables of the line, so its scope reaches to the end
      have hbody := keeps_loopScope_runLines hexec (linesOf body)
      have hhead := (keeps_context_commandOf head).comp Context.loopScope
      have hloop := (keeps_lent_loop (keeps_lent_runLines hexec (linesOf body)) input).comp Prod.snd
      have hkeeps := Run.Keeps.atLine head (.bind hhead fun _ => hloop)
      have hturns : (fun turn item => evalAll execute turn body item) =
          fun turn item => inScope turn (runLines execute (linesOf body) item) := by
        funext turn item
        exact evalAll_eq hexec turn body item
      rw [lines, List.cons_append, List.append_assoc, List.singleton_append,
        runLines_loop opens closes, inScope_bind scope hkeeps, inScope_atLine,
        inScope_bind scope hhead, inScope_loop hbody, eval, hturns]

/-- **Blocks are evaluated as their lines are run**, in the variables that they are given. -/
theorem evalAll_eq (hexec : ∀ c t, Run.Keeps (·.context.lent) (execute c t))
    (scope : Dictionary String) : (bs : List Block) → (input : Tree) →
      evalAll execute scope bs input = inScope scope (runLines execute (linesOf bs) input)
  | [], input => by rw [evalAll, linesOf, runLines, inScope_pure]
  | b :: bs, input => by
      rw [evalAll, linesOf, ← eval_bind hexec scope _ b]
      congr 1
      funext t
      exact evalAll_eq hexec scope bs t

end

end Block

end

/-! ## Scripts that run each other -/

/--
Evaluates blocks whose commands may run other scripts. The lines of such a script are read as
blocks, and see the variables of the line that runs it.
-/
def evalNested (base : Level) : (depth : Nat) → List Block → Tree → Run Tree
  | 0, _, _ => throw .tooDeep
  | depth + 1, bs, input => do
    let evalLines lines input := do evalNested base depth (← Run.ofExcept (Block.ofLines lines)) input
    let scope := (← Run.context).loopScope
    Block.evalAll (execute base evalLines) scope bs input

/-- A script that is read from a file is one that is accepted. -/
theorem exists_parse_of_load {path : String} {w w' : World} {script : Script}
    (h : load path w = (.ok script, w')) : ∃ text, parse text = .ok script := by
  obtain ⟨text, w₁, -, hparse⟩ := Run.bind_ok h
  exact ⟨text, congrArg Prod.fst hparse⟩

/-- A command runs only scripts that are accepted. -/
theorem execute_congr {runScript runScript' : List Line → Tree → Run Tree}
    (h : ∀ {text script}, parse text = .ok script → runScript script.lines = runScript' script.lines)
    (base : Level) : execute base runScript = execute base runScript' := by
  funext c input
  cases c with
  | batch reference =>
      simp only [execute, runFile]
      congr 1
      funext c w
      rw [Run.bind_apply, Run.bind_apply]
      rcases hres : load _ w with ⟨_ | script, w'⟩
      · rfl
      · obtain ⟨text, hparse⟩ := exists_parse_of_load hres
        simp only [h hparse]
  | makeNewRoot reference => cases reference <;> rfl
  | _ => rfl

/-- Scripts are evaluated as they are run, however deep they run each other. -/
theorem evalNested_eq (base : Level) (depth : Nat) (bs : List Block) :
    evalNested base depth bs = runNested base depth (Block.linesOf bs) := by
  induction depth generalizing bs with
  | zero => rfl
  | succ depth ih =>
      -- the scripts that a command runs are accepted ones, so reading them as blocks cannot fail
      have hexec : execute base (fun lines input => do
          evalNested base depth (← Run.ofExcept (Block.ofLines lines)) input) =
          execute base (runNested base depth) := by
        refine execute_congr (fun hparse => ?_) base
        obtain ⟨bs, hbs⟩ := Block.checkBalance_eq_ok_iff.mp (parse_eq_ok_iff.mp hparse).2.2
        funext input
        rw [← hbs, ← ih, Block.ofLines_eq_ok_iff.mpr rfl]
        rfl
      have hkeeps := keeps_lent_execute (keeps_lent_runNested base depth) base
      funext input w
      rw [evalNested, hexec, Run.bind_apply, Run.context]
      dsimp only
      rw [Block.evalAll_eq hkeeps, inScope_of_keeps (keeps_loopScope_runLines hkeeps _ _), runNested]

/--
**A flat run is a structured one.** The lines of an accepted script are those of blocks, and running
the lines one after the other, jumping from a loop to its end, does what evaluating the blocks does:
it gives the same document or failure and leaves the same world. A line that is no bracket is never
taken for one unless a macro makes its keyword, so no `end` is ever met outside a loop.
-/
theorem runNested_eq_evalNested {text : String} {script : Script}
    (hparse : parse text = .ok script) :
    ∃ bs, Block.ofLines script.lines = .ok bs ∧ Block.linesOf bs = script.lines ∧
      (∀ base depth input, runNested base depth script.lines input =
        evalNested base depth bs input) ∧
      (∀ line ∈ script.lines, Line.hasMacro line.keyword = false →
        line.isForeach = false → line.isEnd = false →
        ∀ w c w', commandOf line w = (.ok c, w') → c ≠ .foreach ∧ c ≠ .end_) := by
  obtain ⟨-, hkeywords, hbalance⟩ := parse_eq_ok_iff.mp hparse
  obtain ⟨bs, hbs⟩ := Block.checkBalance_eq_ok_iff.mp hbalance
  refine ⟨bs, Block.ofLines_eq_ok_iff.mpr hbs, hbs, fun base depth input => ?_,
    fun line hline hplain hf he w c w' h => ?_⟩
  · rw [evalNested_eq, hbs]
  · exact commandOf_of_plain (checkKeywords_eq_ok_iff.mp hkeywords line hline) hplain hf he h

/-- A loop in a loop, with the variables of the outer one seen again behind the inner one. -/
theorem runNested_eq_evalNested_loop_in_loop :
    let text := "foreach\nforeach\nprint $\x7bBATCH::key\x7d\nend\n\nprint $\x7bBATCH::value\x7d\nend"
    let inner : Block := .loop ⟨2, "foreach"⟩ (by decide)
      [.command ⟨3, "print $\x7bBATCH::key\x7d"⟩ (by decide)] ⟨4, "end"⟩ (by decide)
    let outer : Block := .loop ⟨1, "foreach"⟩ (by decide)
      [inner, .command ⟨6, "print $\x7bBATCH::value\x7d"⟩ (by decide)] ⟨7, "end"⟩ (by decide)
    let input : Tree := .sequence [.sequence [.null, .bool true], .mapping [(.string "a", .null)]]
    ∃ script, parse text = .ok script ∧
      (∀ base depth, runNested base depth script.lines input =
        evalNested base depth [outer] input) ∧
      (runNested .off 1 script.lines input {}).2.printed =
        "0\n1\n[null,true]\na\n\x7b\"a\":null\x7d\n" := by
  intro text inner outer input
  have hlines : Block.linesOf [outer] = linesOf text := by decide +kernel
  have hkeywords : ∀ l ∈ Block.linesOf [outer], l.isAdmitted = true := by decide +kernel
  have hparse : parse text = .ok ⟨Block.linesOf [outer]⟩ :=
    parse_eq_ok_iff.mpr ⟨hlines, checkKeywords_eq_ok_iff.mpr hkeywords,
      Block.checkBalance_eq_ok_iff.mpr ⟨_, rfl⟩⟩
  obtain ⟨bs, hbs, -, hrun, -⟩ := runNested_eq_evalNested hparse
  have houter : Block.ofLines (Block.linesOf [outer]) = .ok [outer] :=
    Block.ofLines_eq_ok_iff.mpr rfl
  obtain rfl : bs = [outer] := Except.ok.inj (hbs.symm.trans houter)
  refine ⟨_, hparse, fun base depth => hrun base depth input, ?_⟩
  rw [hrun]
  decide +kernel

end TreeEdit.Script
