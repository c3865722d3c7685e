import Mathlib.Data.Bool.AllAny
import TreeEdit.Edit.Verb
import TreeEdit.Proofs.CutTexts
import TreeEdit.Proofs.Keywords
import TreeEdit.Proofs.WholeKeys

/-!
# Patterns of one key

A key made of ASCII letters is a pattern with one segment. As a regular expression each of its
letters stands for itself (`Regex.parse_anchored`), so nothing can be wrong with it but its size:
the automaton has a state for every letter, one for each anchor and four around them, and it is
refused if they take more than `Regex.maxSize` (`Pattern.compile_letters`). The longest key that
makes a pattern has 327674 letters.

Inserting at such a pattern into an empty mapping makes the entry of that name, and nothing else
(`Verb.insert_into_empty`).
-/

namespace TreeEdit

/-- Letters are ASCII characters. -/
theorem Text.toNat_lt_of_isLetter {c : Char} (h : isLetter c = true) : c.toNat < 0x80 := by
  have hval : c.toNat = c.val.toNat := rfl
  have hcode : ('z' : Char).val.toNat = 122 ∧ ('Z' : Char).val.toNat = 90 := by decide
  simp only [isLetter, Bool.or_eq_true, Bool.and_eq_true, decide_eq_true_eq, Char.le_def,
    UInt32.le_iff_toNat_le, hcode] at h
  omega

/-- A letter is one byte. -/
theorem Text.utf8Size_of_isLetter {c : Char} (h : isLetter c = true) : c.utf8Size = 1 := by
  have hlt := toNat_lt_of_isLetter h
  rw [Char.utf8Size_eq_one_iff, UInt32.le_iff_toNat_le]
  exact Nat.le_of_lt_succ hlt

/-- What is a letter differs from what is none. -/
theorem Text.ne_of_isLetter {c d : Char} (h : isLetter c = true) (hd : isLetter d = false) :
    c ≠ d := by
  rintro rfl
  rw [h] at hd
  cases hd

/-! ## Letters in a regular expression -/

namespace Regex

/-- The expression of letters one after the other. -/
def ofLetters : List Char → Regex
  | [] => .empty
  | [c] => literal {} c
  | c :: cs => .seq (literal {} c) (ofLetters cs)

/-- The parts of an open group after letters, the last one first. -/
def partsOf (cs : List Char) : List Part := (cs.map fun c => Part.expr (literal {} c)).reverse

theorem ofLetters_ne_empty {cs : List Char} (h : cs ≠ []) : ofLetters cs ≠ .empty := by
  match cs, h with
  | [c], _ => simp [ofLetters, literal]
  | c :: d :: cs, _ => simp [ofLetters]

/-- Before a sequence that is not empty stands what is read before it. -/
theorem sequenceOf_concat {parts : List Part} (h : sequenceOf parts ≠ .empty) (r : Regex) :
    sequenceOf (parts ++ [.expr r]) = .seq r (sequenceOf parts) := by
  unfold sequenceOf at h ⊢
  rw [List.foldl_append, List.foldl_cons, List.foldl_nil]
  generalize parts.foldl _ Regex.empty = s at h ⊢
  cases s with
  | empty => exact absurd rfl h
  | _ => rfl

theorem sequenceOf_partsOf (cs : List Char) : sequenceOf (partsOf cs) = ofLetters cs := by
  induction cs with
  | nil => rfl
  | cons c cs ih =>
      -- parts are kept last first, so the first letter is the last part
      have hcons : partsOf (c :: cs) = partsOf cs ++ [.expr (literal {} c)] := by simp [partsOf]
      cases cs with
      | nil => rfl
      | cons d cs =>
          have hne := ofLetters_ne_empty (List.cons_ne_nil d cs)
          rw [hcons, sequenceOf_concat (by rwa [ih]), ih]
          rfl

/-- A letter is read as itself. -/
theorem loop_letter {c : Char} (hc : Text.isLetter c = true) (fuel : Nat) (outer : List Group)
    (names : List String) (parts : List Part) (rest : List Char) :
    loop (fuel + 1) outer names ⟨[], parts, {}⟩ (c :: rest) =
      loop fuel outer names ⟨[], .expr (literal {} c) :: parts, {}⟩ rest := by
  have hsigns : ∀ d ∈ ['(', ')', '|', '[', '?', '*', '+', '\x7b', '\\', '.', '^', '$'],
      Text.isLetter d = false := List.all_iff_forall_prop.mp (by decide)
  have hne := fun d hd => Text.ne_of_isLetter hc (hsigns d hd)
  simp only [List.mem_cons, List.not_mem_nil, or_false, forall_eq_or_imp, forall_eq] at hne
  have hskip : ({} : Flags).skip (c :: rest) = c :: rest := rfl
  rw [loop]
  simp only [hskip]
  split <;> simp_all

theorem loop_letters {cs : List Char} (hcs : ∀ c ∈ cs, Text.isLetter c = true) (fuel : Nat)
    (outer : List Group) (names : List String) (parts : List Part) (rest : List Char) :
    loop (cs.length + fuel) outer names ⟨[], parts, {}⟩ (cs ++ rest) =
      loop fuel outer names ⟨[], partsOf cs ++ parts, {}⟩ rest := by
  induction cs generalizing parts with
  | nil => rw [List.length_nil, Nat.zero_add]; rfl
  | cons c cs ih =>
      obtain ⟨hc, hcs⟩ := List.forall_mem_cons.mp hcs
      rw [List.length_cons, List.cons_append, Nat.add_right_comm, loop_letter hc, ih hcs]
      simp [partsOf]

theorem size_ofLetters {cs : List Char} (hcs : ∀ c ∈ cs, Text.isLetter c = true) (hne : cs ≠ []) :
    (ofLetters cs).size = 32 * cs.length := by
  have hliteral : ∀ c, Text.isLetter c = true → (literal {} c).size = 32 := by
    intro c hc
    show (if c.toNat = c.toNat then (Char.ofNat c.toNat).utf8Size * stateSize else _) = 32
    rw [if_pos rfl, Char.ofNat_toNat, Text.utf8Size_of_isLetter hc]
    rfl
  induction cs with
  | nil => exact absurd rfl hne
  | cons c cs ih =>
      obtain ⟨hc, hcs⟩ := List.forall_mem_cons.mp hcs
      cases cs with
      | nil => simp [ofLetters, hliteral c hc]
      | cons d cs =>
          rw [ofLetters, size, hliteral c hc, ih hcs (List.cons_ne_nil d cs)]
          · simp only [List.length_cons]
            omega
          · simp

/-- **Letters that are held against a whole key are refused only if they are too many.** -/
theorem parse_anchored {key : String} (hkey : ∀ c ∈ key.toList, Text.isLetter c = true)
    (hne : key ≠ "") :
    parse (Segment.anchored key) = if maxSize < 32 * (key.length + 6) then .error .tooLarge
      else .ok (.seq (.assert .startText) (.seq (ofLetters key.toList) (.assert .endText))) := by
  -- the letters stand in a group of their own, which the parenthesis behind them closes
  have hclose : ∀ parts, loop 5 [anchor] [] ⟨[], parts, {}⟩ closing
      = .ok (enclosed (sequenceOf parts)) := fun _ => rfl
  have hsize := size_ofLetters hkey (by simpa using hne)
  rw [String.length_toList] at hsize
  have htotal : (enclosed (ofLetters key.toList)).automatonSize = 32 * (key.length + 6) := by
    simp only [automatonSize, enclosed, size, hsize, stateSize]
    omega
  rw [parse_anchored_eq, loop_letters hkey, List.append_nil, hclose, sequenceOf_partsOf, ← htotal]
  rfl

end Regex

/-! ## The pattern of a key -/

section

variable {key : String} (hkey : ∀ c ∈ key.toList, Text.isLetter c = true) (hne : key ≠ "")

/-- The expression that a whole key is held against. -/
def Segment.ofLetters (key : String) : Segment :=
  .literal key
    (.seq (.assert .startText) (.seq (Regex.ofLetters key.toList) (.assert .endText)))

include hkey hne

/-- A key of letters is no other kind of segment. -/
theorem Segment.parse_letters : Segment.parse key =
    if Regex.maxSize < 32 * (key.length + 6) then .error (.regex key .tooLarge)
    else .ok (.ofLetters key) := by
  have hhead : ∀ d, Text.isLetter d = false → key.toList.head? ≠ some d := fun d hd hhead =>
    Text.ne_of_isLetter (hkey d (List.mem_of_head? hhead)) hd rfl
  have hbracketed : bracketed? key.toList = none := by
    unfold bracketed?
    split
    · rename_i heq
      exact absurd (by rw [heq]; rfl) (hhead '[' rfl)
    · rfl
  have hstar : ∀ s : String, s.toList.head? = some '*' → key ≠ s := by
    rintro s hs rfl
    exact hhead '*' rfl hs
  rw [parse, if_neg hne, if_neg (hstar "**" rfl), if_neg (hstar "*" rfl), hbracketed,
    Option.bind_none, Regex.parse_anchored hkey hne]
  by_cases hsize : Regex.maxSize < 32 * (key.length + 6)
  · rw [if_pos hsize, if_pos hsize]
  · rw [if_neg hsize, if_neg hsize]
    rfl

/-- **A key of letters is a pattern of one segment, unless it is too long.** -/
theorem Pattern.compile_letters : Pattern.compile key "." =
    if Regex.maxSize < 32 * (key.length + 6) then .error ⟨key, .regex key .tooLarge⟩
    else .ok ⟨key, ".", [.ofLetters key]⟩ := by
  have hpoint : ∀ c ∈ key.toList, c ≠ '.' := fun c hc => Text.ne_of_isLetter (hkey c hc) rfl
  have hsplit : Text.splitOn "." key = [key] := by
    have hpieces := Text.splitFrom_of_forall_ne hpoint []
    simp only [Text.splitOn, show ".".toList = ['.'] from rfl, hpieces, List.reverse_nil,
      List.nil_append, List.map_cons, List.map_nil, String.ofList_toList]
  have hroot : key ≠ root := by
    rintro rfl
    exact absurd (hkey '/' (by decide)) (by decide)
  have hblank : ∀ c ∈ key.toList, Text.isBlank c = false := fun c hc =>
    Words.isBlank_of_isLetter (hkey c hc)
  have htrim : Text.trim key = key := Text.trim_eq_self
    (fun c hc => hblank c (List.mem_of_head? hc)) (fun c hc => hblank c (List.mem_of_getLast? hc))
  unfold compile
  rw [htrim, if_neg (by decide), if_neg hroot, if_neg hne, hsplit, List.mapM_cons, List.mapM_nil,
    Segment.parse_letters hkey hne]
  by_cases hsize : Regex.maxSize < 32 * (key.length + 6)
  · rw [if_pos hsize, if_pos hsize]
    rfl
  · rw [if_neg hsize, if_neg hsize]
    rfl

end

/-- **Inserting at a key into an empty mapping** makes the entry of that key. -/
theorem Verb.insert_into_empty (raw delimiter key : String) (r : Regex) (content : Tree)
    (listDelimiter : String) :
    (Verb.insert content).apply ⟨raw, delimiter, [.literal key r]⟩ listDelimiter (.mapping []) =
      .ok (.singleton key content) := by
  rfl

end TreeEdit
