import TreeEdit.Proofs.CutTexts
import TreeEdit.Script.Run

/-!
# The words behind a verb

The `yaml` command scans the words behind its verb from the left and takes one or two of them at a
time: an option with its value in either spelling, or an operand (`Command.Part`). A value is taken
whatever it looks like, and only an operand must not look like an option (`Command.IsOperand`).

Taking a part sets one option or adds one operand (`Command.Sorted.take`). Parts of different kinds
do not see each other, so only the order within a kind can matter: of each option the last value
stays (`Command.value?_foldl_take`), and of operands there is at most one where it is asked which
comes first. So all ways to put the same options and operands in a row are one command, or fail in
one way (`Command.onLine_ofWords_of_interleaves`).
-/

namespace TreeEdit

/-- How many operands a verb has. -/
def VerbName.arity (verb : VerbName) : Nat := if verb.takesArgument then 1 else 0

/-- What is wrong with any other number of operands. -/
def VerbName.miscounted (verb : VerbName) : Grammar :=
  if verb.takesArgument then .oneArgument verb.text else .noArgumentAllowed verb.text

theorem VerbName.arity_le_one (verb : VerbName) : verb.arity ≤ 1 := by
  cases verb <;> decide

theorem VerbName.ofText?_text (verb : VerbName) : ofText? verb.text = some verb := by
  cases verb <;> rfl

namespace Command

/-! ## Parts of a command -/

/-- The options of the `yaml` command. -/
inductive YamlOption where
  | pattern
  | delimiter
  deriving DecidableEq

/-- The word for an option. -/
def YamlOption.text : YamlOption → String
  | .pattern => "--yamlpath"
  | .delimiter => "--delimiter"

/-- Whether an option and its value are written as one word or as two. -/
inductive Spelling where
  | oneWord
  | twoWords
  deriving DecidableEq

/-- A value for an option, and how it is written. -/
structure Setting where
  spelling : Spelling
  value : String
  deriving DecidableEq

/-- The words that set an option. -/
def Setting.words (o : YamlOption) : Setting → List String
  | ⟨.oneWord, value⟩ => [o.text ++ "=" ++ value]
  | ⟨.twoWords, value⟩ => [o.text, value]

/-- What a scan of the words behind a verb takes at a time. -/
inductive Part where
  | option (o : YamlOption) (setting : Setting)
  | operand (word : String)

namespace Part

/-- The words of a part. -/
def words : Part → List String
  | option o setting => setting.words o
  | operand word => [word]

/-- The setting, if the part is for this option. -/
def setting? (o : YamlOption) : Part → Option Setting
  | option o' setting => if o = o' then some setting else none
  | operand _ => none

/-- The operand, if the part is one. -/
def operand? : Part → Option String
  | option _ _ => none
  | operand word => some word

end Part

/-- A word that is told from the options of the `yaml` command. -/
structure IsOperand (word : String) : Prop where
  ne_pattern : word ≠ "--yamlpath"
  ne_delimiter : word ≠ "--delimiter"
  no_pattern : ¬ "--yamlpath=".toList <+: word.toList
  no_delimiter : ¬ "--delimiter=".toList <+: word.toList

/--
The parts are these settings and these operands. Settings of one option keep their order; all else
may stand anywhere.
-/
structure Interleaves (parts : List Part) (patterns delimiters : List Setting)
    (operands : List String) : Prop where
  patterns : parts.filterMap (Part.setting? .pattern) = patterns
  delimiters : parts.filterMap (Part.setting? .delimiter) = delimiters
  operands : (parts.filterMap Part.operand?).Perm operands

/-! ## One part -/

/-- The value that an option has so far. -/
def Sorted.value? (s : Sorted) : YamlOption → Option String
  | .pattern => s.pattern
  | .delimiter => s.delimiter

/-- An option with a new value. -/
def Sorted.set (s : Sorted) (o : YamlOption) (value : String) : Sorted :=
  match o with
  | .pattern => { s with pattern := some value }
  | .delimiter => { s with delimiter := some value }

/-- What a part adds to the words sorted so far. -/
def Sorted.take (s : Sorted) : Part → Sorted
  | .option o setting => s.set o setting.value
  | .operand word => { s with positional := s.positional ++ [word] }

variable {s : Sorted} {parts : List Part} {word : String} {rest : List String}

theorem value?_set (s : Sorted) (o o' : YamlOption) (value : String) :
    (s.set o' value).value? o = if o = o' then some value else s.value? o := by
  cases o <;> cases o' <;> rfl

theorem positional_set (s : Sorted) (o : YamlOption) (value : String) :
    (s.set o value).positional = s.positional := by
  cases o <;> rfl

theorem inlineOption?_eq_none_iff {option word : String} :
    inlineOption? option word = none ↔ ¬ (option ++ "=").toList <+: word.toList := by
  rw [inlineOption?, Option.map_eq_none_iff, ← Option.not_isSome_iff_eq_none,
    Text.isSome_dropPrefix?_iff]

theorem inlineOption?_append (option value : String) :
    inlineOption? option (option ++ "=" ++ value) = some value := by
  have htext : (option ++ "=" ++ value).toList = (option ++ "=").toList ++ value.toList :=
    String.toList_append
  rw [inlineOption?, htext, Text.dropPrefix?_append, Option.map_some, String.ofList_toList]

/-- What is written as a delimiter is no pattern. -/
theorem inlineOption?_delimiter (value : String) :
    inlineOption? "--yamlpath" ("--delimiter" ++ "=" ++ value) = none := by
  have htext : ("--delimiter" ++ "=" ++ value).toList =
      ("--delimiter" ++ "=").toList ++ value.toList := String.toList_append
  rw [inlineOption?_eq_none_iff, htext]
  intro h
  have hbegins : ("--yamlpath" ++ "=").toList <+: ("--delimiter" ++ "=").toList :=
    List.prefix_of_prefix_length_le h (List.prefix_append ..) (by decide)
  exact absurd hbegins (by decide)

/-- An operand is sorted among the positional words. -/
theorem sortWords_operand (h : IsOperand word) (s : Sorted) (rest : List String) :
    sortWords s (word :: rest) =
      sortWords { s with positional := s.positional ++ [word] } rest := by
  have hpattern : inlineOption? "--yamlpath" word = none :=
    inlineOption?_eq_none_iff.mpr h.no_pattern
  have hdelimiter : inlineOption? "--delimiter" word = none :=
    inlineOption?_eq_none_iff.mpr h.no_delimiter
  rw [sortWords.eq_def]
  simp only [hpattern, hdelimiter, h.ne_pattern, h.ne_delimiter, if_false]

/-- An option takes its value, whatever that looks like. -/
theorem sortWords_setting (s : Sorted) (o : YamlOption) (setting : Setting) (rest : List String) :
    sortWords s (setting.words o ++ rest) = sortWords (s.set o setting.value) rest := by
  obtain ⟨spelling, value⟩ := setting
  cases spelling with
  | oneWord =>
      rw [Setting.words, List.singleton_append, sortWords.eq_def]
      cases o with
      | pattern => simp only [YamlOption.text, inlineOption?_append, Sorted.set]
      | delimiter =>
          -- the scan looks for a pattern first
          simp only [YamlOption.text, inlineOption?_delimiter, inlineOption?_append, Sorted.set]
  | twoWords =>
      have hnone : inlineOption? "--yamlpath" o.text = none ∧
          inlineOption? "--delimiter" o.text = none := by cases o <;> decide
      rw [Setting.words, List.cons_append, List.singleton_append, sortWords.eq_def]
      simp only [hnone]
      cases o <;> simp [YamlOption.text, Sorted.set]

/-! ## All parts -/

/-- **The words of parts are taken for these parts.** -/
theorem sortWords_parts (h : ∀ w ∈ parts.filterMap Part.operand?, IsOperand w) (s : Sorted) :
    sortWords s (parts.flatMap Part.words) = .ok (parts.foldl Sorted.take s) := by
  induction parts generalizing s with
  | nil => rfl
  | cons part parts ih =>
      rw [List.flatMap_cons, List.foldl_cons]
      cases part with
      | option o setting => rw [Part.words, sortWords_setting, ih h, Sorted.take]
      | operand word =>
          obtain ⟨hword, h⟩ := List.forall_mem_cons.mp h
          rw [Part.words, List.singleton_append, sortWords_operand hword, ih h, Sorted.take]

/-- The last setting of an option stays. -/
theorem value?_foldl_take (parts : List Part) (s : Sorted) (o : YamlOption) :
    (parts.foldl Sorted.take s).value? o =
      ((parts.filterMap (Part.setting? o)).getLast?.map Setting.value).or (s.value? o) := by
  induction parts generalizing s with
  | nil => rfl
  | cons part parts ih =>
      rw [List.foldl_cons, ih]
      cases part with
      | option o' setting =>
          rw [Sorted.take, value?_set, List.filterMap_cons, Part.setting?]
          split
          · rw [List.getLast?_cons]
            cases (parts.filterMap (Part.setting? o)).getLast? <;> rfl
          · rfl
      | operand word => cases o <;> rfl

theorem positional_foldl_take (parts : List Part) (s : Sorted) :
    (parts.foldl Sorted.take s).positional = s.positional ++ parts.filterMap Part.operand? := by
  induction parts generalizing s with
  | nil => rw [List.foldl_nil, List.filterMap_nil, List.append_nil]
  | cons part parts ih =>
      rw [List.foldl_cons, ih]
      cases part with
      | option o setting => rw [Sorted.take, positional_set, List.filterMap_cons, Part.operand?]
      | operand word => rw [Sorted.take, List.filterMap_cons, Part.operand?, List.append_assoc,
          List.singleton_append]

/-! ## The command -/

/-- Sorted words with a pattern are a command of a verb if it has as many operands. -/
theorem yamlOfWords_of_sortWords {pattern : String} (hs : sortWords {} rest = .ok s)
    (hpattern : s.pattern = some pattern) (verb : VerbName) :
    yamlOfWords (verb.text :: rest) =
      if s.positional.length = verb.arity then
        .ok ⟨verb, pattern, s.delimiter, s.positional.head?⟩
      else .error verb.miscounted := by
  obtain ⟨_, delimiter, positional⟩ := s
  obtain rfl := hpattern
  rw [yamlOfWords, hs]
  simp only [bind, Except.bind, VerbName.ofText?_text, VerbName.arity, VerbName.miscounted]
  rcases Bool.eq_false_or_eq_true verb.takesArgument with htakes | htakes <;> simp only [htakes]
  · match positional with
    | [] | [_] => rfl
    | _ :: _ :: _ => simp
  · cases positional <;> simp

theorem eq_of_perm {as bs : List String} (h : as.Perm bs) (hlength : bs.length ≤ 1) :
    as = bs := by
  match bs with
  | [] => exact h.eq_nil
  | [_] => exact List.perm_singleton.mp h
  | _ :: _ :: _ => simp at hlength

/-- The command of a verb and its parts. -/
theorem ofWords_parts (verb : VerbName) {setting : Setting}
    (hpattern : (parts.filterMap (Part.setting? .pattern)).getLast? = some setting)
    (h : ∀ w ∈ parts.filterMap Part.operand?, IsOperand w) :
    ofWords ("yaml" :: verb.text :: parts.flatMap Part.words) =
      if (parts.filterMap Part.operand?).length = verb.arity then
        .ok (.yaml ⟨verb, setting.value,
          (parts.filterMap (Part.setting? .delimiter)).getLast?.map Setting.value,
          (parts.filterMap Part.operand?).head?⟩)
      else .error verb.miscounted := by
  have hpatterns := value?_foldl_take parts {} .pattern
  have hdelimiters := value?_foldl_take parts {} .delimiter
  have hpositional := positional_foldl_take parts {}
  rw [hpattern] at hpatterns
  rw [Sorted.value?, Sorted.value?, Option.or_none] at hdelimiters
  rw [List.nil_append] at hpositional
  rw [ofWords, ofKeyword, yamlOfWords_of_sortWords (sortWords_parts h {}) hpatterns, hpositional,
    hdelimiters]
  split <;> rfl

/--
**The order and the spelling of options do not matter.** The last pattern, the last delimiter and
the operand are the command of a verb, wherever each of them stands, however the options are written
and whatever their values look like. With another number of operands than the verb has there is a
failure on the line.
-/
theorem onLine_ofWords_of_interleaves (verb : VerbName) (number : Nat)
    {patterns delimiters : List Setting} {operands : List String}
    (h : Interleaves parts patterns delimiters operands) (hpatterns : patterns ≠ [])
    (hoperands : ∀ w ∈ operands, IsOperand w) :
    Script.onLine number (ofWords ("yaml" :: verb.text :: parts.flatMap Part.words)) =
      if operands.length = verb.arity then
        .ok (.yaml ⟨verb, (patterns.getLast hpatterns).value,
          delimiters.getLast?.map Setting.value, operands.head?⟩)
      else .error (.grammar number verb.miscounted) := by
  obtain ⟨rfl, rfl, hperm⟩ := h
  rw [ofWords_parts verb (List.getLast?_eq_some_getLast hpatterns)
    fun w hw => hoperands w (hperm.mem_iff.mp hw), hperm.length_eq]
  split
  · rename_i hlength
    -- the operands may stand in another order, but here there is one of them at most
    rw [eq_of_perm hperm (hlength ▸ verb.arity_le_one)]
    rfl
  · rfl

/-- Values that look like options are values, and a second operand is one too many. -/
theorem onLine_ofWords_of_interleaves_values :
    let words := ["yaml", "insert", "--yamlpath=", "-", "--delimiter", "--yamlpath=a",
      "--yamlpath", "--delimiter"]
    IsOperand "-" ∧ IsOperand "read" ∧
      Script.onLine 7 (ofWords words) =
        .ok (.yaml ⟨.insert, "--delimiter", some "--yamlpath=a", some "-"⟩) ∧
      Script.onLine 7 (ofWords (words ++ ["read"])) =
        .error (.grammar 7 (.oneArgument "insert")) := by
  intro words
  let parts : List Part := [.option .pattern ⟨.oneWord, ""⟩, .operand "-",
    .option .delimiter ⟨.twoWords, "--yamlpath=a"⟩, .option .pattern ⟨.twoWords, "--delimiter"⟩]
  have hdash : IsOperand "-" := ⟨by decide, by decide, by decide, by decide⟩
  have hread : IsOperand "read" := ⟨by decide, by decide, by decide, by decide⟩
  have hone : Interleaves parts [⟨.oneWord, ""⟩, ⟨.twoWords, "--delimiter"⟩]
      [⟨.twoWords, "--yamlpath=a"⟩] ["-"] := ⟨rfl, rfl, .refl _⟩
  have htwo : Interleaves (parts ++ [.operand "read"])
      [⟨.oneWord, ""⟩, ⟨.twoWords, "--delimiter"⟩] [⟨.twoWords, "--yamlpath=a"⟩] ["read", "-"] :=
    ⟨rfl, rfl, .swap ..⟩
  refine ⟨hdash, hread, ?_, ?_⟩
  · exact onLine_ofWords_of_interleaves .insert 7 hone (by decide) (by simpa using hdash)
  · exact onLine_ofWords_of_interleaves .insert 7 htwo (by decide) (by simpa using ⟨hread, hdash⟩)

end Command

end TreeEdit
