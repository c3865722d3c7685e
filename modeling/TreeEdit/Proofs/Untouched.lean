import TreeEdit.Proofs.Lookups

/-!
# Files that are left as they were

A job with a verb may name one file for its input and its output. Up to its last step it only looks
(`Session.lookup_result`), and the last step makes the whole text before it prints or writes any of
it (`Session.writeOutput_cases`). So a job that fails leaves all files as they were and prints
nothing, wherever it fails, and one that succeeds changes its output alone
(`Invocation.run_edit_cases`). A script that saves a document makes the whole text before it writes,
too (`Script.execute_save_of_render_error`).

What a write does to files is `Files.Holds`: the place that the path leads to holds the text, all
other places are as before, and reading the path gives the text.
-/

namespace TreeEdit

/-! ## Writing a file -/

namespace Files

/-- The text stands in the file at the path, and everything else is as before. -/
structure Holds (path text : String) (before after : Files) : Prop where
  changed : ∃ place, before.resolve path = .ok place ∧
    after.at? place = some (.file text.toUTF8) ∧
    ∀ other, other ≠ place → after.at? other = before.at? other
  read : after.readText path = .ok text

/-- What is kept of the nodes is found as before. -/
theorem lookup_filter_ne {place other : List String} (h : other ≠ place)
    (nodes : List (List String × FileNode)) :
    (nodes.filter (·.1 ≠ place)).lookup other = nodes.lookup other := by
  induction nodes with
  | nil => rfl
  | cons e nodes ih =>
      obtain ⟨here, node⟩ := e
      by_cases hhere : here = place
      · subst hhere
        rw [List.filter_cons_of_neg (by simp), ih, List.lookup_cons, beq_false_of_ne h]
      · rw [List.filter_cons_of_pos (by simpa using hhere), List.lookup_cons, List.lookup_cons, ih]

/-- Another node shows where no directory is that cannot be missing. -/
theorem at?_put {fs : Files} {place : List String} (hplace : fs.at? place ≠ some .directory)
    (node : FileNode) (other : List String) :
    (fs.put place node).at? other = if other = place then some node else fs.at? other := by
  have hbeside : place.isPrefixOf fs.workingDirectory = false :=
    Bool.eq_false_iff.mpr fun h => hplace (by rw [at?, if_pos h])
  by_cases hother : other = place
  · subst hother
    simp [at?, put, hbeside]
  · rw [if_neg hother, at?, at?, put, List.lookup_cons, beq_false_of_ne hother]
    simp only [lookup_filter_ne hother]

/-- From a directory the way goes on by each name. -/
theorem follow_cons {fs : Files} {start : List String} (h : fs.at? start = some .directory)
    (name : String) (names : List String) : fs.follow start (name :: names) =
      if name = "." then fs.follow start names
      else if name = ".." then fs.follow start.dropLast names
      else if 255 < name.utf8ByteSize then .error .tooLong
      else fs.follow (start ++ [name]) names := by
  rw [follow, h]

/-- Only from a directory does a way go on. -/
theorem at?_of_follow_cons {fs : Files} {start place names : List String} {name : String}
    (h : fs.follow start (name :: names) = .ok place) : fs.at? start = some .directory := by
  rw [follow] at h
  cases hstart : fs.at? start with
  | none =>
      rw [hstart] at h
      cases h
  | some node =>
      cases node with
      | file bytes =>
          rw [hstart] at h
          cases h
      | directory => rfl

section

-- the files differ at most at one place, where no directory stood
variable {fs fs' : Files} {place : List String} (hplace : fs.at? place ≠ some .directory)
  (hwork : fs'.workingDirectory = fs.workingDirectory)
  (hsame : ∀ other, other ≠ place → fs'.at? other = fs.at? other)

include hplace hsame

/-- A way that ends at the place does not lead through it, so it leads there as before. -/
theorem follow_eq {start names : List String} (h : fs.follow start names = .ok place) :
    fs'.follow start names = .ok place := by
  induction names generalizing start with
  | nil => exact h
  | cons name names ih =>
      have hstart := at?_of_follow_cons h
      -- the way goes on here and no directory stands at the place, so this is not the place
      have hne : start ≠ place := by
        rintro rfl
        exact hplace hstart
      rw [follow_cons hstart] at h
      rw [follow_cons ((hsame start hne).trans hstart)]
      by_cases hhere : name = "."
      · rw [if_pos hhere] at h ⊢
        exact ih h
      · rw [if_neg hhere] at h ⊢
        by_cases hup : name = ".."
        · rw [if_pos hup] at h ⊢
          exact ih h
        · rw [if_neg hup] at h ⊢
          by_cases hlong : 255 < name.utf8ByteSize
          · rw [if_pos hlong] at h
            cases h
          · rw [if_neg hlong] at h ⊢
            exact ih h

include hwork

/-- Paths start where they did, so a path to the place still leads to it. -/
theorem resolve_eq {path : String} (h : fs.resolve path = .ok place) :
    fs'.resolve path = .ok place := by
  have horigin : fs'.origin path = fs.origin path := by rw [origin, origin, hwork]
  rw [resolve, horigin]
  unfold resolve at h
  split at h
  · cases h
  · rename_i hzero
    split at h
    · cases h
    · rename_i hempty
      split at h
      · cases h
      · rename_i hlong
        rw [if_neg hzero, if_neg hempty, if_neg hlong]
        exact follow_eq hplace hsame h

end

theorem fromUTF8?_toUTF8 (text : String) : String.fromUTF8? text.toUTF8 = some text := by
  rw [String.fromUTF8?, String.toUTF8_eq_toByteArray, dif_pos text.isValidUTF8]
  rfl

/-- A write that succeeds. -/
theorem writeText_ok {fs fs' : Files} {path text : String} (h : fs.writeText path text = .ok fs') :
    ∃ place, fs.resolve path = .ok place ∧ fs.at? place ≠ some .directory ∧
      endsInSlash path = false ∧ fs' = fs.put place (.file text.toUTF8) := by
  unfold writeText at h
  simp only [bind, Except.bind, pure, Except.pure] at h
  split at h
  · cases h
  · rename_i place hresolve
    refine ⟨place, hresolve, ?_⟩
    split at h
    · cases h
    · rename_i hplace
      split at h
      · cases h
      · rename_i hends
        exact ⟨hplace, by simpa using hends, (Except.ok.inj h).symm⟩

/-- **A write that succeeds puts the whole text at its place**, and nothing anywhere else. -/
theorem holds_of_writeText {fs fs' : Files} {path text : String}
    (h : fs.writeText path text = .ok fs') : Holds path text fs fs' := by
  obtain ⟨place, hresolve, hplace, hends, rfl⟩ := writeText_ok h
  have hat : (fs.put place (.file text.toUTF8)).at? place = some (.file text.toUTF8) := by
    rw [at?_put hplace, if_pos rfl]
  have hsame (other : List String) (h : other ≠ place) :
      (fs.put place (.file text.toUTF8)).at? other = fs.at? other := by
    rw [at?_put hplace, if_neg h]
  refine ⟨⟨place, hresolve, hat, hsame⟩, ?_⟩
  have hwork : (fs.put place (.file text.toUTF8)).workingDirectory = fs.workingDirectory := rfl
  have hafter := resolve_eq hplace hwork hsame hresolve
  rw [readText]
  simp only [Bool.false_eq_true, if_false, bind, Except.bind, pure, Except.pure, hafter, hat,
    hends, fromUTF8?_toUTF8]

end Files

/-! ## Jobs with a verb -/

namespace CommandLine

/-- A failure leaves all files as they were, and prints nothing. -/
def Untouched (before after : World) : Prop :=
  after.files = before.files ∧ after.printed = before.printed

/-- A text has been put where a path says, and nothing anywhere else. -/
def Written (path text : String) (before after : World) : Prop :=
  if path = "-" then after.files = before.files ∧ after.printed = before.printed ++ text
  else Files.Holds path text before.files after.files ∧ after.printed = before.printed

theorem untouched_of_unlogged {w w' : World} (h : w'.unlogged = w.unlogged) : Untouched w w' :=
  ⟨World.files_eq h, World.printed_eq h⟩

theorem Untouched.trans {w w₁ w₂ : World} (h : Untouched w w₁) (h' : Untouched w₁ w₂) :
    Untouched w w₂ :=
  ⟨h'.1.trans h.1, h'.2.trans h.2⟩

theorem Written.of_untouched {path text : String} {w w₁ w₂ : World} (h : Untouched w w₁)
    (hwritten : Written path text w₁ w₂) : Written path text w w₂ := by
  rw [Written, ← h.1, ← h.2]
  exact hwritten

/-- The output is written as a whole, or not at all. -/
theorem Session.writeOutput_cases (json : Bool) (path : String) (t : Tree) (w : World) :
    (∃ f w', writeOutput json path t w = (.error f, w') ∧ Untouched w w') ∨
      ∃ text w', writeOutput json path t w = (.ok (), w') ∧
        (outputFormat json path).render w.context.dialect t = .ok text ∧
          Written path text w w' := by
  have hlook : Lookup (ofRun (Run.render (outputFormat json path) t)) := .ofRun (.render _ t)
  have hkept := hlook.kept w
  rw [writeOutput, Lookup.bind_apply]
  rcases hrender : ofRun (Run.render (outputFormat json path) t) w with ⟨f | text, w₁⟩
  · rw [hrender] at hkept
    exact .inl ⟨f, w₁, rfl, untouched_of_unlogged hkept⟩
  · rw [hrender] at hkept
    have htext : (outputFormat json path).render w.context.dialect t = .ok text := by
      rw [← Run.render_fst]
      exact ofRun_fst_ok_iff.mp (congrArg Prod.fst hrender)
    have hfiles := World.files_eq hkept
    have hprinted := World.printed_eq hkept
    dsimp only
    by_cases hpath : path = "-"
    · rw [if_pos hpath]
      refine .inr ⟨text, _, rfl, htext, ?_⟩
      rw [Written, if_pos hpath]
      exact ⟨hfiles, congrArg (· ++ text) hprinted⟩
    · rw [if_neg hpath, writeFile]
      cases hwrite : w₁.files.writeText path text with
      | error fault => exact .inl ⟨_, w₁, rfl, untouched_of_unlogged hkept⟩
      | ok files =>
          refine .inr ⟨text, _, rfl, htext, ?_⟩
          rw [Written, if_neg hpath]
          rw [hfiles] at hwrite
          exact ⟨Files.holds_of_writeText hwrite, hprinted⟩

/-- A job with a verb fails and leaves all as it was, or succeeds and changes its output alone. -/
theorem Invocation.run_edit_cases (s : Settings) (e : Edit) (environment : Dictionary String)
    (files : Files) (standardInput : StandardInput) :
    let w := s.world environment files
    let i : Invocation := ⟨s, .edit e⟩
    (∃ f w', i.run environment files standardInput = (some f, w') ∧ Untouched w w') ∨
      ∃ t text w', i.run environment files standardInput = (none, w') ∧
        (Session.result standardInput e w).1 = .ok t ∧
        (Session.outputFormat e.json e.output).render s.dialect t = .ok text ∧
        Written e.output text w w' := by
  intro w i
  have hkept := (Session.lookup_result standardInput e).kept w
  have hjob : (Session.ofJob standardInput (.edit e)).run w =
      (Session.result standardInput e >>= Session.writeOutput e.json e.output) w := by
    rw [← Session.edit_eq]
    rfl
  rw [Invocation.run, hjob, Lookup.bind_apply]
  rcases hresult : Session.result standardInput e w with ⟨f | t, w₁⟩
  · rw [hresult] at hkept
    exact .inl ⟨f, w₁, rfl, untouched_of_unlogged hkept⟩
  · rw [hresult] at hkept
    have huntouched : Untouched w w₁ := untouched_of_unlogged hkept
    dsimp only
    obtain ⟨f, w₂, hfails, hrest⟩ | ⟨text, w₂, hwrites, htext, hwritten⟩ :=
      Session.writeOutput_cases e.json e.output t w₁
    · rw [hfails]
      exact .inl ⟨f, w₂, rfl, huntouched.trans hrest⟩
    · rw [hwrites]
      rw [World.context_eq hkept] at htext
      exact .inr ⟨t, text, w₂, rfl, rfl, htext, hwritten.of_untouched huntouched⟩

end CommandLine

/-! ## Saving in a script -/

namespace Script

/-- A document without a text is not saved, and the file for it is as it was. -/
theorem execute_save_of_render_error {reference path : String} {isOptional : Bool}
    (href : Reference.ofText reference = .file path isOptional) {t : Tree} {w : World}
    {cause : Error}
    (hrender : (Path.format (w.context.resolvePath path)).render w.context.dialect t = .error cause)
    (base : Level) (runScript : List Line → Tree → Run Tree) :
    (execute base runScript (.save reference) t w).1 = .error cause ∧
      CommandLine.Untouched w (execute base runScript (.save reference) t w).2 := by
  let place := w.context.resolvePath path
  let w₁ := (Run.tell (.debug ("Saving document to '" ++ place ++ "'")) w).2
  have htold : w₁.unlogged = w.unlogged := (Lookup.tell _).kept w
  have hfails : (Run.render (Path.format place) t w₁).1 = .error cause := by
    rw [Run.render_fst, World.context_eq htold]
    exact hrender
  have hkept : (Run.render (Path.format place) t w₁).2.unlogged = w₁.unlogged :=
    (Lookup.render _ t).kept w₁
  have hsave : Run.save reference t w = Run.writeDocument place t w₁ := by
    rw [Run.save, href]
    dsimp only
    rw [Run.context_bind_apply, Run.tell_bind_apply]
  rw [execute, Run.bind_apply, hsave, Run.writeDocument, Run.bind_apply]
  rcases hres : Run.render (Path.format place) t w₁ with ⟨outcome, w₂⟩
  rw [hres] at hfails hkept
  obtain rfl : outcome = .error cause := hfails
  exact ⟨rfl, CommandLine.untouched_of_unlogged (hkept.trans htold)⟩

end Script

namespace CommandLine

/--
**A failure leaves all files alone.** If a job with a verb fails, wherever it does, no file has been
created or changed and nothing has been printed. If it succeeds, its output holds the whole text of
its result in the format that was asked for, and nothing else has been changed. A script that saves
a document with no text in the format of the file leaves that file, and all others, as they were.
-/
theorem failures_leave_files (s : Settings) (e : Edit) (environment : Dictionary String)
    (files : Files) (standardInput : StandardInput) (base : Level)
    (runScript : List Line → Tree → Run Tree) :
    let w := s.world environment files
    let end_ := Invocation.run ⟨s, .edit e⟩ environment files standardInput
    (∀ f, end_.1 = some f → end_.2.files = files ∧ end_.2.printed = "") ∧
      (end_.1 = none → ∃ t text, (Session.result standardInput e w).1 = .ok t ∧
        (Session.outputFormat e.json e.output).render s.dialect t = .ok text ∧
        Written e.output text w end_.2) ∧
      ∀ (reference path : String) (isOptional : Bool) (t : Tree) (w : World) (cause : Error),
        Reference.ofText reference = .file path isOptional →
        (Path.format (w.context.resolvePath path)).render w.context.dialect t = .error cause →
        let saved := Script.execute base runScript (.save reference) t w
        saved.1 = .error cause ∧ saved.2.files = w.files := by
  intro w end_
  refine ⟨fun f hf => ?_, fun hnone => ?_, fun _ _ _ _ _ _ href hrender => ?_⟩
  · obtain ⟨f', w', hrun, huntouched⟩ | ⟨_, _, w', hrun, -⟩ :=
      Invocation.run_edit_cases s e environment files standardInput
    · rw [show end_ = (some f', w') from hrun]
      exact huntouched
    · rw [show end_ = (none, w') from hrun] at hf
      cases hf
  · obtain ⟨f', w', hrun, -⟩ | ⟨t, text, w', hrun, ht, htext, hwritten⟩ :=
      Invocation.run_edit_cases s e environment files standardInput
    · rw [show end_ = (some f', w') from hrun] at hnone
      cases hnone
    · rw [show end_ = (none, w') from hrun]
      exact ⟨t, text, ht, htext, hwritten⟩
  · have hsave := Script.execute_save_of_render_error href hrender base runScript
    exact ⟨hsave.1, hsave.2.1⟩

/--
An insertion in place that fails at a number, after the mapping behind it has been served; a
deletion in place; one that writes a file by its absolute path; and a sequence that is to be saved
as properties.
-/
theorem failures_leave_files_in_place :
    let s : Settings := ⟨".", ",", .tagged, .off⟩
    let files := Files.empty.create "a.json"
      "\x7b\"a\":\x7b\"x\":1,\"y\":\x7b\x7d\x7d\x7d".toUTF8
    let insertion := Invocation.run
      ⟨s, .edit ⟨.insert, "a.*", some "\x7b\"k\":1\x7d", "a.json", "a.json", false⟩⟩ [] files ""
    let deletion (input output : String) :=
      Invocation.run ⟨s, .edit ⟨.delete, "a.x", none, input, output, false⟩⟩ [] files ""
    let runScript : List Line → Tree → Run Tree := fun _ _ => throw .tooDeep
    let w : World := { files }
    let save := Script.execute .off runScript (.save "@b.properties") (.sequence [])
    (insertion.1.isSome = true ∧ insertion.2.files = files ∧ insertion.2.printed = "") ∧
      ((deletion "a.json" "a.json").1 = none ∧
        ∃ t text, Format.json.render .tagged t = .ok text ∧
          Written "a.json" text (s.world [] files) (deletion "a.json" "a.json").2) ∧
      ((deletion "../work/a.json" "/b.json").1 = none ∧
        ∃ t text, Format.json.render .tagged t = .ok text ∧
          Written "/b.json" text (s.world [] files) (deletion "../work/a.json" "/b.json").2) ∧
      (save w).1 = .error (.conversion .properties (.notMapping .sequence)) ∧
      (save w).2.files = w.files := by
  intro s files insertion deletion runScript w save
  have hinsertion : insertion.1.isSome = true := by decide +kernel
  have hinPlace : (deletion "a.json" "a.json").1 = none := by decide +kernel
  have houtside : (deletion "../work/a.json" "/b.json").1 = none := by decide +kernel
  obtain ⟨f, hf⟩ := Option.isSome_iff_exists.mp hinsertion
  obtain ⟨hfails, -, hsave⟩ := failures_leave_files s
    ⟨.insert, "a.*", some "\x7b\"k\":1\x7d", "a.json", "a.json", false⟩ [] files "" .off runScript
  have hwrites (input output : String) (hjson : Session.outputFormat false output = .json)
      (hnone : (deletion input output).1 = none) :
      ∃ t text, Format.json.render .tagged t = .ok text ∧
        Written output text (s.world [] files) (deletion input output).2 := by
    obtain ⟨t, text, -, htext, hwritten⟩ := (failures_leave_files s
      ⟨.delete, "a.x", none, input, output, false⟩ [] files "" .off runScript).2.1 hnone
    rw [hjson] at htext
    exact ⟨t, text, htext, hwritten⟩
  have hproperties : Path.format (w.context.resolvePath "b.properties") = .properties := by
    decide +kernel
  have hreference : Reference.ofText "@b.properties" = .file "b.properties" false := by decide
  have hrender : (Path.format (w.context.resolvePath "b.properties")).render w.context.dialect
      (.sequence []) = .error (.conversion .properties (.notMapping .sequence)) := by
    rw [hproperties]
    rfl
  obtain ⟨hcause, hkept⟩ := hsave "@b.properties" _ false (.sequence []) w _ hreference hrender
  have hwritesA := hwrites "a.json" "a.json" (by decide +kernel) hinPlace
  have hwritesB := hwrites "../work/a.json" "/b.json" (by decide +kernel) houtside
  -- the runs are the same terms, and must not be evaluated again to see it
  with_reducible
    exact ⟨⟨hinsertion, hfails f hf⟩, ⟨hinPlace, hwritesA⟩, ⟨houtside, hwritesB⟩, hcause, hkept⟩

end CommandLine

end TreeEdit
