import TreeEdit.CommandLine.Session
import TreeEdit.Proofs.Kept

/-!
# Steps that only look

Most steps look at the world and tell what they do: they load documents, apply verbs and make the
texts of results, but put nothing in a file. They change nothing but the records, and what they find
does not depend on records (`Lookup`). So they can be taken in any order, and what stands in files,
in the context and in what has been printed stays as it was. Steps of runs and steps of jobs are of
this kind for the same reason, so `Lookup` is about both.

What a load finds depends only on the files, the base directory, the dialect and the stored
documents (`Run.load_congr`), and what a verb gives for a document only on the delimiter of labels
(`Script.applyVerb_fst`). All that a job does before it writes its result is to look
(`Session.lookup_result`).
-/

namespace TreeEdit

/-- The world without the records that have been told. -/
def World.unlogged (w : World) : World := { w with log := [] }

/-- Worlds that differ in records alone hold the same files. -/
theorem World.files_eq {w w' : World} (h : w.unlogged = w'.unlogged) : w.files = w'.files :=
  (congrArg World.files h : w.unlogged.files = w'.unlogged.files)

theorem World.printed_eq {w w' : World} (h : w.unlogged = w'.unlogged) : w.printed = w'.printed :=
  (congrArg World.printed h : w.unlogged.printed = w'.unlogged.printed)

theorem World.context_eq {w w' : World} (h : w.unlogged = w'.unlogged) : w.context = w'.context :=
  (congrArg World.context h : w.unlogged.context = w'.unlogged.context)

/-- A step changes nothing but records, and what it finds does not depend on them. -/
structure Lookup {ε : Type} (step : ExceptT ε (StateM World) α) : Prop where
  kept : ∀ w, (step w).2.unlogged = w.unlogged
  blind : ∀ w w', w.unlogged = w'.unlogged → (step w).1 = (step w').1

namespace Lookup

variable {ε : Type} {step : ExceptT ε (StateM World) α} {next : α → ExceptT ε (StateM World) β}

/-- A step after another one, on a world, whatever its failures are. -/
theorem bind_apply (step : ExceptT ε (StateM World) α) (next : α → ExceptT ε (StateM World) β)
    (w : World) : (step >>= next) w = match step w with
      | (.ok a, w') => next a w'
      | (.error e, w') => (.error e, w') := by
  simp only [bind, ExceptT.bind, ExceptT.mk, StateT.bind, ExceptT.bindCont]
  rcases step w with ⟨_ | _, _⟩ <;> rfl

/-- A step that does nothing only looks. -/
theorem pure (a : α) : Lookup (Pure.pure a : ExceptT ε (StateM World) α) where
  kept _ := rfl
  blind _ _ _ := rfl

theorem throw (e : ε) : Lookup (MonadExcept.throw e : ExceptT ε (StateM World) α) where
  kept _ := rfl
  blind _ _ _ := rfl

/-- What the second step finds it finds in the world before the first one. -/
theorem bind_fst (h : Lookup step) (hnext : ∀ a, Lookup (next a)) (w : World) :
    ((step >>= next) w).1 = match (step w).1 with
      | .ok a => (next a w).1
      | .error e => .error e := by
  have hkept := h.kept w
  rw [bind_apply]
  rcases hstep : step w with ⟨e | a, w'⟩
  · rfl
  · rw [hstep] at hkept
    exact (hnext a).blind w' w hkept

/-- Looking twice is looking: the second step finds what it would have found at first. -/
theorem bind (h : Lookup step) (hnext : ∀ a, Lookup (next a)) : Lookup (step >>= next) where
  kept w := by
    have hkept := h.kept w
    rw [bind_apply]
    rcases hstep : step w with ⟨e | a, w'⟩ <;> rw [hstep] at hkept
    · exact hkept
    · exact ((hnext a).kept w').trans hkept
  blind w w' hw := by
    rw [bind_fst h hnext, bind_fst h hnext, h.blind w w' hw]
    cases (step w').1 with
    | error e => rfl
    | ok a => exact (hnext a).blind w w' hw

/-- Two steps succeed if both do. -/
theorem bind_ok_iff (h : Lookup step) (hnext : ∀ a, Lookup (next a)) {w : World} {b : β} :
    ((step >>= next) w).1 = .ok b ↔ ∃ a, (step w).1 = .ok a ∧ (next a w).1 = .ok b := by
  rw [bind_fst h hnext]
  cases (step w).1 <;> simp

end Lookup

/-! ## Steps of runs -/

namespace Lookup

theorem ofExcept (outcome : Except Error α) : Lookup (Run.ofExcept outcome) where
  kept _ := rfl
  blind _ _ _ := rfl

/-- The context holds no records. -/
theorem context : Lookup Run.context where
  kept _ := rfl
  blind _ _ h := congrArg Except.ok (World.context_eq h)

/-- A record may be kept or not, but nothing is asked of the ones before it. -/
theorem tell (r : Record) : Lookup (Run.tell r) where
  kept w := by
    rw [Run.tell]
    split <;> rfl
  blind _ _ _ := rfl

theorem tellAll (rs : List Record) : Lookup (Run.tellAll rs) := by
  induction rs with
  | nil => exact .pure ()
  | cons r rs ih => exact .bind (.tell r) fun _ => ih

theorem readText (path : String) : Lookup (Run.readText path) where
  kept w := by
    rw [Run.readText]
    split <;> rfl
  blind w w' h := by
    rw [Run.readText, Run.readText, World.files_eq h]
    cases w'.files.readText path <;> rfl

theorem readDocument (path : String) : Lookup (Run.readDocument path) :=
  .bind (.readText path) fun _ => .bind .context fun _ => .ofExcept _

/-- Making the text of a document writes nothing. -/
theorem render (format : Format) (t : Tree) : Lookup (Run.render format t) :=
  .bind .context fun _ => .bind (.tellAll _) fun _ => .ofExcept _

theorem exists_ (path : String) : Lookup (Run.exists_ path) where
  kept _ := rfl
  blind _ _ h := congrArg (fun files : Files => Except.ok (files.exists_ path)) (World.files_eq h)

/-- Documents are loaded from files, from the store or from the reference itself. -/
theorem load (reference : String) : Lookup (Run.load reference) := by
  refine .bind .context fun c => ?_
  cases Reference.ofText reference with
  | file path isOptional =>
      refine .bind (.exists_ _) fun found => ?_
      split
      · exact .bind (.tell _) fun _ => .pure _
      · exact .readDocument _
  | stored name isOptional =>
      dsimp only
      split
      · exact .pure _
      · split
        · exact .pure _
        · exact .throw _
  | inline text => exact .pure _

/-- The content of a command is loaded, its columns are only checked. -/
theorem verbOf (c : YamlCommand) : Lookup (Script.verbOf c) := by
  unfold Script.verbOf
  cases c.verb with
  | read | list | delete => exact .pure _
  | insert | replace => exact .bind (.load _) fun _ => .pure _
  | table =>
      dsimp only
      split
      · exact .throw _
      · exact .pure _

/-- Applying a verb asks for the delimiter of labels and tells what it has found. -/
theorem applyVerb (v : Verb) (p : Pattern) (t : Tree) : Lookup (Script.applyVerb v p t) :=
  .bind .context fun _ => .bind (.tellAll _) fun _ => .ofExcept _

end Lookup

/-! ## What is found -/

namespace Run

variable {w w' : World}

theorem context_bind_apply (next : Context → Run α) (w : World) :
    (context >>= next) w = next w.context w := rfl

theorem tell_bind_apply (r : Record) (next : Unit → Run α) (w : World) :
    (tell r >>= next) w = next () (tell r w).2 := rfl

/-- Telling records has no part in the outcome. -/
theorem tellAll_bind_fst (rs : List Record) (outcome : Except Error α) (w : World) :
    ((tellAll rs >>= fun _ => ofExcept outcome) w).1 = outcome := by
  have htell : (tellAll rs w).1 = .ok () := by
    induction rs generalizing w with
    | nil => rfl
    | cons r rs ih => exact ih _
  rw [Lookup.bind_fst (.tellAll rs) fun _ => .ofExcept _, htell]
  rfl

/-- What a document's text is depends on the dialect alone. -/
theorem render_fst (format : Format) (t : Tree) (w : World) :
    (render format t w).1 = format.render w.context.dialect t :=
  tellAll_bind_fst _ _ w

/-- The extension of a file says how it is read, and the fault of a file names its path. -/
theorem readDocument_fst (path : String) (w : World) : (readDocument path w).1 =
    match w.files.readText path with
    | .ok text => (Path.format path).parse w.context.dialect text
    | .error fault => .error (.resource path (.file fault)) := by
  rw [readDocument, bind_apply, readText]
  cases w.files.readText path <;> rfl

/-- An optional file that is missing stands for nothing; any other one has to be there. -/
theorem load_fst_of_file {reference path : String} {isOptional : Bool}
    (h : Reference.ofText reference = .file path isOptional) (w : World) :
    (load reference w).1 =
      if (isOptional && !w.files.exists_ (w.context.resolvePath path)) = true then .ok .null
      else (readDocument (w.context.resolvePath path) w).1 := by
  rw [load, bind_apply]
  simp only [Run.context, h]
  rw [bind_apply]
  dsimp only [exists_]
  split <;> rfl

theorem load_fst_of_stored {reference name : String} {isOptional : Bool}
    (h : Reference.ofText reference = .stored name isOptional) (w : World) :
    (load reference w).1 = match w.context.stored? name with
      | some t => .ok t
      | none => if isOptional = true then .ok .null
          else .error (.resource ("!" ++ name) .notStored) := by
  rw [load, bind_apply]
  simp only [Run.context, h]
  cases w.context.stored? name with
  | some t => rfl
  | none => cases isOptional <;> rfl

/-- A document given in place is always one, if need be a string. -/
theorem load_fst_of_inline {reference text : String} (h : Reference.ofText reference = .inline text)
    (w : World) : (load reference w).1 = .ok (parseInline w.context.dialect text) := by
  rw [load, bind_apply]
  simp only [Run.context, h]
  rfl

/-- What a load finds depends on the files, and on what the context says of references. -/
theorem load_congr (hfiles : w.files = w'.files) (hbase : w.context.baseDir = w'.context.baseDir)
    (hdialect : w.context.dialect = w'.context.dialect)
    (hstore : w.context.store = w'.context.store) (reference : String) :
    (load reference w).1 = (load reference w').1 := by
  cases h : Reference.ofText reference with
  | file path isOptional =>
      have hresolve : w.context.resolvePath path = w'.context.resolvePath path := by
        rw [Context.resolvePath, Context.resolvePath, hbase]
      rw [load_fst_of_file h, load_fst_of_file h, readDocument_fst, readDocument_fst, hresolve,
        hfiles, hdialect]
  | stored name isOptional =>
      rw [load_fst_of_stored h, load_fst_of_stored h, Context.stored?, Context.stored?, hstore]
  | inline text => rw [load_fst_of_inline h, load_fst_of_inline h, hdialect]

end Run

namespace Script

variable {w w' : World}

/-- What a verb gives depends on the world by the delimiter of labels alone. -/
theorem applyVerb_fst (v : Verb) (p : Pattern) (t : Tree) (w : World) :
    (applyVerb v p t w).1 = v.apply p w.context.listDelimiter t := by
  rw [applyVerb, Run.bind_apply]
  exact Run.tellAll_bind_fst _ _ w

/-- The verb of a command depends on the world as the load of its argument does. -/
theorem verbOf_congr (c : YamlCommand)
    (hload : ∀ reference, (Run.load reference w).1 = (Run.load reference w').1) :
    (verbOf c w).1 = (verbOf c w').1 := by
  unfold verbOf
  cases c.verb with
  | read | list | delete => rfl
  | insert | replace =>
      dsimp only
      rw [Lookup.bind_fst (.load _) fun _ => .pure _, Lookup.bind_fst (.load _) fun _ => .pure _,
        hload]
      rfl
  | table =>
      dsimp only
      split <;> rfl

end Script

/-! ## Steps of jobs -/

open CommandLine (Session Edit)

namespace Lookup

/-- A step of a job that is one of a run: it fails the same way under another name. -/
theorem ofRun {step : Run α} (h : Lookup step) : Lookup (Session.ofRun step) where
  kept := h.kept
  blind w w' hw := congrArg (Except.mapError _) (h.blind w w' hw)

theorem during {step : Run α} (h : Lookup step) (doing : String) :
    Lookup (Session.during doing step) where
  kept := h.kept
  blind w w' hw := congrArg (Except.mapError _) (h.blind w w' hw)

end Lookup

namespace CommandLine.Session

/-- Taken as a step of a job, a step of a run succeeds as before. -/
theorem ofRun_fst_ok_iff {step : Run α} {w : World} {a : α} :
    (ofRun step w).1 = .ok a ↔ (step w).1 = .ok a := by
  have hfst : (ofRun step w).1 = (step w).1.mapError .error := rfl
  rw [hfst]
  cases (step w).1 with
  | error e => constructor <;> intro h <;> cases h
  | ok b => constructor <;> intro h <;> cases h <;> rfl

/-- What an edit looks at before it comes to its document. -/
def prepare (e : Edit) : Session (Verb × Pattern) := do
  let verb ← verbOf e
  let p ← ofRun do Run.ofExcept (Script.patternOf e.pattern (← Run.context).delimiter)
  return (verb, p)

/-- What an edit does before it writes. -/
def result (standardInput : StandardInput) (e : Edit) : Session Tree := do
  let (verb, p) ← prepare e
  let input ← readInput standardInput e.input
  ofRun (Script.applyVerb verb p input)

/-- An edit is what it finds out and then the one step that writes. -/
theorem edit_eq (standardInput : StandardInput) (e : Edit) :
    edit standardInput e = result standardInput e >>= writeOutput e.json e.output := by
  simp only [edit, result, prepare, bind_assoc, pure_bind]

/-- The content of an edit is loaded as that of a command is. -/
theorem lookup_verbOf (e : Edit) : Lookup (verbOf e) := by
  unfold verbOf
  cases e.verb with
  | read | list | delete => exact .pure _
  | insert | replace => exact .bind (.ofRun (.load _)) fun _ => .pure _
  | table =>
      dsimp only
      split
      · exact .throw _
      · exact .pure _

theorem lookup_prepare (e : Edit) : Lookup (prepare e) :=
  .bind (lookup_verbOf e) fun _ =>
    .bind (.ofRun (.bind .context fun _ => .ofExcept _)) fun _ => .pure _

/-- Standard input has been read when a job starts, so it is looked at as a file is. -/
theorem lookup_readInput (standardInput : StandardInput) (path : String) :
    Lookup (readInput standardInput path) := by
  unfold readInput
  split
  · split
    · exact .ofRun (.bind .context fun _ => .ofExcept _)
    · exact .throw _
  · exact .during (.readDocument path) _

/-- **An edit only looks before it writes.** -/
theorem lookup_result (standardInput : StandardInput) (e : Edit) :
    Lookup (result standardInput e) :=
  .bind (lookup_prepare e) fun (v, p) =>
    .bind (lookup_readInput standardInput e.input) fun t => .ofRun (.applyVerb v p t)

end CommandLine.Session

end TreeEdit
