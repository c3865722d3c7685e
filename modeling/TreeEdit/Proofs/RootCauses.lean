import TreeEdit.Proofs.Brackets
import TreeEdit.Proofs.GivenBack

/-!
# Failures that no line wraps

Only `Script.atLine` wraps a failure in a line. Every other step fails with a root cause
(`Error.IsRoot`): reading and writing documents, macros, the grammar of commands, loops over a
document and the verbs. Outcomes and steps that fail with root causes only are closed under the
operations they are built with (`RootsOnly.bind` and its like), so a fact about all commands is put
together from facts about their parts, which each look at the few failures that they name.

The commands of a line, apart from one that runs another script, are such steps
(`Run.RootsOnly.execute`).
-/

namespace TreeEdit

namespace Error

/-- Whether a failure is a root cause: no line wraps it. -/
def IsRoot : Error → Prop
  | .atLine _ _ _ => False
  | .pattern _ | .mismatch _ | .conflict _ _ | .grammar _ _ | .resource _ _ | .unresolved _
  | .conversion _ _ | .nestedSequences _ | .yaml | .json | .tooDeep => True

/-- Looking for the cause of a root cause leads nowhere else. -/
theorem IsRoot.rootCause_eq {e : Error} (h : e.IsRoot) : e.rootCause = e := by
  cases e with
  | atLine => exact absurd h id
  | _ => rfl

end Error

/-- An outcome is no failure, or one with a root cause. -/
def RootsOnly (outcome : Except Error α) : Prop := ∀ e, outcome = .error e → e.IsRoot

/-! ## Outcomes -/

namespace RootsOnly

theorem ok (a : α) : RootsOnly (.ok a) := fun _ h => by cases h

theorem error {e : Error} (h : e.IsRoot) : RootsOnly (.error e : Except Error α) := by
  intro e' he
  cases he
  exact h

/-- What comes after a success may fail too, so every continuation has to be looked at. -/
theorem bind {outcome : Except Error α} {next : α → Except Error β} (h : RootsOnly outcome)
    (hnext : ∀ a, RootsOnly (next a)) : RootsOnly (outcome >>= next) := by
  cases outcome with
  | error e => exact error (h e rfl)
  | ok a => exact hnext a

theorem map {outcome : Except Error α} (h : RootsOnly outcome) (f : α → β) :
    RootsOnly (outcome.map f) := by
  cases outcome with
  | error e => exact error (h e rfl)
  | ok a => exact ok (f a)

/-- The failure of a list is that of its first item that fails. -/
theorem mapM {f : α → Except Error β} (h : ∀ a, RootsOnly (f a)) (as : List α) :
    RootsOnly (as.mapM f) := by
  induction as with
  | nil => exact ok _
  | cons a as ih =>
      rw [List.mapM_cons]
      exact bind (h a) fun _ => bind ih fun _ => ok _

end RootsOnly

open RootsOnly (ok error)

/-! ### Documents -/

/-- A collection may be nested too deeply to be written on one line. -/
theorem rootsOnly_plainText (t : Tree) : RootsOnly t.plainText := by
  rw [Tree.plainText]
  split
  · exact ok _
  · rw [Json.compact]
    cases Json.write none t with
    | none => exact error trivial
    | some text => exact ok _

/-- A text that a format does not read fails with that format's own error. -/
theorem Format.rootsOnly_parse (f : Format) (d : Dialect) (text : String) :
    RootsOnly (f.parse d text) := by
  cases f with
  | yaml =>
      cases d with
      | tagged =>
          rw [Format.parse, Dialect.parse]
          cases Yaml.Tagged.parse? text.toList with
          | none => exact error trivial
          | some t => exact ok t
      | plain =>
          rw [Format.parse, Dialect.parse, Yaml.Plain.parse]
          split
          · exact error trivial
          · exact ok _
          · exact ok _
          · exact error trivial
  | json =>
      rw [Format.parse, Json.parse]
      split
      · split
        · exact ok _
        · exact error trivial
      · exact error trivial
  | properties =>
      rw [Format.parse, Properties.parse]
      split
      · exact ok _
      · exact error trivial
  | toml =>
      rw [Format.parse, Toml.parse]
      split
      · exact ok _
      · exact error trivial

/-- Documents that a format cannot hold are refused by it, whichever the dialect. -/
theorem Format.rootsOnly_render (f : Format) (d : Dialect) (t : Tree) :
    RootsOnly (f.render d t) := by
  refine .map ?_ _
  cases f with
  | yaml =>
      cases d with
      | tagged =>
          dsimp only [Dialect.render]
          cases Yaml.Tagged.render? t with
          | none => exact error trivial
          | some text => exact ok text
      | plain => exact ok _
  | json =>
      dsimp only [Json.pretty]
      cases Json.write (some 0) t with
      | none => exact error trivial
      | some text => exact ok _
  | properties =>
      dsimp only [Properties.render]
      split
      · exact ok _
      · exact error trivial
  | toml =>
      dsimp only [Toml.render]
      split
      · exact ok _
      · exact error trivial

namespace Context

mutual

/-- Flattening fails only where a leaf cannot be written as text. -/
theorem rootsOnly_flatten (name : String) (found : Dictionary String) :
    (t : Tree) → RootsOnly (flatten name found t)
  | .mapping entries => by
      rw [flatten]
      exact rootsOnly_flattenEntries name found entries
  | .null | .bool _ | .number _ | .string _ | .sequence _ | .tagged _ _ => by
      rw [flatten]
      · exact .bind (rootsOnly_plainText _) fun _ => ok _
      · nofun

theorem rootsOnly_flattenEntries (name : String) (found : Dictionary String) :
    (es : List (Tree × Tree)) → RootsOnly (flattenEntries name found es)
  | [] => ok found
  | (k, v) :: es => by
      rw [flattenEntries]
      split
      · exact rootsOnly_flattenEntries name found es
      · exact .bind (rootsOnly_flatten _ found v) fun found =>
          rootsOnly_flattenEntries name found es

end

/-- Only a mapping holds properties. -/
theorem rootsOnly_propertiesOf (space : String) (t : Tree) : RootsOnly (propertiesOf space t) := by
  unfold propertiesOf
  split
  · exact rootsOnly_flattenEntries "" [] _
  · exact error trivial

end Context

/-! ### Macros -/

namespace Macro

/-- The one failure of expansion is a macro that stands for nothing. -/
theorem rootsOnly_expandChars (scope : Scope) (skip : Nat) (s : List Char) :
    RootsOnly (expandChars scope skip s) := by
  fun_induction expandChars scope skip s with
  | case1 => exact ok _
  | case2 _ _ _ ih => exact ih
  | case3 c rest token htoken ih =>
      refine .bind ?_ fun _ => .bind ih fun _ => ok _
      unfold resolve
      split
      · exact ok _
      · split
        · exact ok _
        · exact error trivial
  | case4 c rest htoken ih => exact .bind ih fun _ => ok _

theorem rootsOnly_expand (scope : Scope) (text : String) : RootsOnly (expand scope text) :=
  .map (rootsOnly_expandChars scope 0 text.toList) _

mutual

/-- A tree fails to expand as one of its texts does. -/
theorem rootsOnly_expandTree (scope : Scope) : (t : Tree) → RootsOnly (expandTree scope t)
  | .string s => by
      rw [expandTree]
      exact .bind (rootsOnly_expand scope s) fun _ => ok _
  | .sequence items => by
      rw [expandTree]
      exact .bind (rootsOnly_expandItems scope items) fun _ => ok _
  | .mapping entries => by
      rw [expandTree]
      exact .bind (rootsOnly_expandEntries scope entries) fun _ => ok _
  | .tagged tag value => by
      rw [expandTree]
      refine .bind (rootsOnly_expand scope tag.text) fun _ =>
        .bind (rootsOnly_expandTree scope value) fun _ => ?_
      split <;> exact ok _
  | .null | .bool _ | .number _ => ok _

theorem rootsOnly_expandItems (scope : Scope) :
    (items : List Tree) → RootsOnly (expandItems scope items)
  | [] => ok _
  | x :: xs => by
      rw [expandItems]
      exact .bind (rootsOnly_expandTree scope x) fun _ =>
        .bind (rootsOnly_expandItems scope xs) fun _ => ok _

theorem rootsOnly_expandEntries (scope : Scope) :
    (entries : List (Tree × Tree)) → RootsOnly (expandEntries scope entries)
  | [] => ok _
  | (k, v) :: es => by
      rw [expandEntries]
      exact .bind (rootsOnly_expandTree scope k) fun _ =>
        .bind (rootsOnly_expandTree scope v) fun _ =>
          .bind (rootsOnly_expandEntries scope es) fun _ => ok _

end

end Macro

/-! ### Verbs -/

namespace Verb

/-- A walk that is blocked reports where, and that is all. -/
theorem rootsOnly_checkWalk (p : Pattern) (w : Walk) : RootsOnly (checkWalk p w) := by
  rw [checkWalk]
  split
  · exact ok _
  · exact error trivial

/-- A conflict with the place it was found at is one failure, not a chain of them. -/
theorem rootsOnly_ofLocated (outcome : Except Conflict.Located Tree) :
    RootsOnly (ofLocated outcome) := by
  cases outcome with
  | error located => exact error trivial
  | ok t => exact ok t

/--
A verb fails in its walk, or at a place that its content does not fit, or for lack of columns; the
verbs share their walk, so it is looked at once.
-/
theorem rootsOnly_apply (v : Verb) (p : Pattern) (listDelimiter : String) (document : Tree) :
    RootsOnly (v.apply p listDelimiter document) := by
  have hwalk := rootsOnly_checkWalk p (fullWalk p document)
  cases v with
  | read => exact .bind hwalk fun _ => ok _
  | list => exact .bind hwalk fun _ => ok _
  | delete =>
      refine .bind hwalk fun _ => ?_
      split <;> exact ok _
  | insert content =>
      refine .bind hwalk fun _ => ?_
      split
      · split
        · exact ok _
        · exact error trivial
      · exact rootsOnly_ofLocated _
  | replace content =>
      refine .bind hwalk fun _ => ?_
      split
      · exact ok _
      · exact rootsOnly_ofLocated _
  | table columns =>
      rw [apply]
      split
      · exact error trivial
      · exact .bind hwalk fun _ => ok _

end Verb

/-! ### Scripts -/

namespace Script

/-- A fault of the grammar names its line itself and needs no line around it. -/
theorem rootsOnly_onLine (number : Nat) (outcome : Except Grammar α) :
    RootsOnly (onLine number outcome) := by
  cases outcome with
  | error cause => exact error trivial
  | ok a => exact ok a

/-- The words of a line fail where the shell cannot cut it, or at a macro. -/
theorem rootsOnly_wordsOf (scope : Scope) (line : Line) : RootsOnly (wordsOf scope line) := by
  rw [wordsOf]
  split
  · exact error trivial
  · exact .mapM (Macro.rootsOnly_expand scope) _

theorem rootsOnly_matchingEnd (lines : List Line) (start : Nat) :
    RootsOnly (matchingEnd lines start) := by
  rw [matchingEnd]
  split
  · exact ok _
  · exact error trivial

/-- A scalar is nothing to run over, and a key may have no text. -/
theorem rootsOnly_loopItems (t : Tree) : RootsOnly (loopItems t) := by
  rw [loopItems]
  split
  · exact ok _
  · exact .mapM (fun _ => .bind (rootsOnly_plainText _) fun _ => ok _) _
  · exact error trivial

/-- A script that is not well-formed is reported by line number, outside of any line. -/
theorem rootsOnly_parse (text : String) : RootsOnly (parse text) := by
  intro e h
  cases fault_of_parse h <;> trivial

theorem rootsOnly_patternOf (text delimiter : String) : RootsOnly (patternOf text delimiter) := by
  rw [patternOf]
  split
  · exact ok _
  · exact error trivial

end Script

/-! ## Steps -/

namespace Run

/-- However a step fails, it fails with a root cause. -/
def RootsOnly (step : Run α) : Prop := ∀ w, TreeEdit.RootsOnly (step w).1

namespace RootsOnly

/-- A step that never fails. -/
theorem of_ok {step : Run α} {a : World → α} (h : ∀ w, (step w).1 = .ok (a w)) :
    RootsOnly step := by
  intro w
  rw [h]
  exact ok _

theorem pure (a : α) : RootsOnly (Pure.pure a : Run α) := .of_ok fun _ => rfl

theorem throw {e : Error} (h : e.IsRoot) : RootsOnly (MonadExcept.throw e : Run α) :=
  fun _ => error h

theorem ofExcept {outcome : Except Error α} (h : TreeEdit.RootsOnly outcome) :
    RootsOnly (Run.ofExcept outcome) :=
  fun _ => h

/-- Steps in a row: the second one starts in whatever world the first one leaves. -/
theorem bind {step : Run α} {next : α → Run β} (h : RootsOnly step)
    (hnext : ∀ a, RootsOnly (next a)) : RootsOnly (step >>= next) := by
  intro w
  have hw := h w
  rw [bind_apply]
  rcases hres : step w with ⟨e | a, w'⟩
  · rw [hres] at hw
    exact error (hw e rfl)
  · exact hnext a w'

theorem context : RootsOnly Run.context := .of_ok fun _ => rfl

/-- A log record cannot be refused. -/
theorem tell (r : Record) : RootsOnly (Run.tell r) := .of_ok fun _ => rfl

theorem tellAll (rs : List Record) : RootsOnly (Run.tellAll rs) := by
  induction rs with
  | nil => exact .pure ()
  | cons r rs ih => exact .bind (.tell r) fun _ => ih

theorem changeContext (change : Context → Context) : RootsOnly (Run.changeContext change) :=
  .of_ok fun _ => rfl

/-! ### Files and references -/

/-- Whatever keeps a file from being read, the failure names its path once. -/
theorem readText (path : String) : RootsOnly (Run.readText path) := by
  intro w
  rw [Run.readText]
  split
  · exact ok _
  · exact error trivial

theorem writeText (path text : String) : RootsOnly (Run.writeText path text) := by
  intro w
  rw [Run.writeText]
  split
  · exact ok _
  · exact error trivial

/-- Writing a document as text asks the context for the dialect and fails in the format alone. -/
theorem render (format : Format) (t : Tree) : RootsOnly (Run.render format t) :=
  .bind .context fun _ => .bind (.tellAll _) fun _ => .ofExcept (format.rootsOnly_render _ t)

/-- The three kinds of reference fail each in its own way; one given in place never does. -/
theorem load (reference : String) : RootsOnly (Run.load reference) := by
  refine .bind .context fun c => ?_
  cases Reference.ofText reference with
  | file path isOptional =>
      refine .bind (.of_ok fun _ => rfl) fun found => ?_
      split
      · exact .bind (.tell _) fun _ => .pure _
      · exact .bind (.readText _) fun _ =>
          .bind .context fun _ => .ofExcept (Format.rootsOnly_parse _ _ _)
  | stored name isOptional =>
      dsimp only
      split
      · exact .pure _
      · split
        · exact .pure _
        · exact .throw trivial
  | inline text => exact .pure _

/-- A document cannot be saved in place of a text. -/
theorem save (reference : String) (t : Tree) : RootsOnly (Run.save reference t) := by
  unfold Run.save
  cases Reference.ofText reference with
  | file path =>
      refine .bind .context fun c => .bind (.tell _) fun _ => ?_
      exact .bind (.render _ t) fun _ => .writeText _ _
  | stored name => exact .changeContext _
  | inline text => exact .throw trivial

theorem loadProperties (space : String) (t : Tree) : RootsOnly (Run.loadProperties space t) :=
  .bind (.ofExcept (Context.rootsOnly_propertiesOf space t)) fun _ =>
    .bind (.tell _) fun _ => .changeContext _

/-! ### Lines and commands -/

/--
A line becomes a command in one of two ways: its macros are replaced before it is cut into words, or
after.
-/
theorem commandOf (line : Line) : RootsOnly (Script.commandOf line) := by
  refine .bind .context fun c => ?_
  split
  · exact .bind (.ofExcept (Macro.rootsOnly_expand _ _)) fun _ =>
      .bind (.tell _) fun _ => .ofExcept (Script.rootsOnly_onLine _ _)
  · exact .bind (.ofExcept (Script.rootsOnly_wordsOf _ line)) fun _ =>
      .bind (.tell _) fun _ => .ofExcept (Script.rootsOnly_onLine _ _)

/-- A script that cannot be found or read fails before any of its lines is run. -/
theorem scriptOf (reference : String) : RootsOnly (Script.scriptOf reference) :=
  .bind .context fun _ =>
    .bind (.bind (.readText _) fun _ => .ofExcept (Script.rootsOnly_parse _)) fun _ =>
      .bind (.tell _) fun _ => .pure _

/-- The pattern is read before the content is loaded, and both before the verb is applied. -/
theorem runYaml (c : YamlCommand) (input : Tree) : RootsOnly (Script.runYaml c input) := by
  have hverb : RootsOnly (Script.verbOf c) := by
    unfold Script.verbOf
    cases c.verb with
    | read | list | delete => exact .pure _
    | insert | replace => exact .bind (.load _) fun _ => .pure _
    | table =>
        dsimp only
        split
        · exact .throw trivial
        · exact .pure _
  refine .bind .context fun _ => .bind (.ofExcept (Script.rootsOnly_patternOf _ _)) fun p =>
    .bind hverb fun v => .bind .context fun _ => .bind (.tellAll _) fun _ => ?_
  exact .ofExcept (v.rootsOnly_apply p _ input)

theorem printText (text : String) (input : Tree) : RootsOnly (Script.printText text input) := by
  unfold Script.printText
  split
  · exact .bind (.render _ _) fun _ => .of_ok fun _ => rfl
  · exact .of_ok fun _ => rfl

/-- **A command that runs no other script fails with root causes only.** -/
theorem execute {c : Command} (hbatch : ∀ reference, c ≠ .batch reference) (base : Level)
    (runScript : List Line → Tree → Run Tree) (input : Tree) :
    RootsOnly (Script.execute base runScript c input) := by
  cases c with
  | batch reference => exact absurd rfl (hbatch reference)
  | makeNewRoot reference =>
      cases reference with
      | none => exact .pure _
      | some reference => exact .load reference
  | useAsInput reference => exact .load reference
  | property space reference =>
      exact .bind (.load reference) fun t => .bind (.loadProperties space t) fun _ => .pure _
  | save reference => exact .bind (.save reference input) fun _ => .pure _
  | setProperty key value => exact .bind (.changeContext _) fun _ => .pure _
  | print text => exact .bind (.printText text input) fun _ => .pure _
  | useYamlLibrary dialect =>
      exact .bind (.tell _) fun _ => .bind (.changeContext _) fun _ => .pure _
  | verbose on => exact .bind (.of_ok fun _ => rfl) fun _ => .pure _
  | sleep pause => exact .bind (.tell _) fun _ => .bind (.of_ok fun _ => rfl) fun _ => .pure _
  | expandTree =>
      exact .bind .context fun _ => .ofExcept (Macro.rootsOnly_expandTree _ input)
  | yaml c => exact .runYaml c input
  | foreach | end_ => exact .throw trivial

end RootsOnly

end Run

end TreeEdit
