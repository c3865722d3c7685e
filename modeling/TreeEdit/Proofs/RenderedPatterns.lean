import TreeEdit.Pattern.Basic
import TreeEdit.Proofs.CutTexts
import TreeEdit.Proofs.Digits
import TreeEdit.Proofs.FallibleSteps

/-!
# Patterns written out again

A compiled pattern is written out by joining the texts of its segments. All of them but positions
keep their text; a position is written with its digits alone, without blanks, sign and leading
zeros. `Segment.Rewrites` says no more than that: what stands between two brackets may shrink to a
part of it.

That is enough to cut the written text at the same places, whatever the delimiter is, if there is no
bracket in it (`Segment.Rewrites.cuts`). A delimiter that began in a rewritten piece would have to
lie between its brackets, and so would be in the piece as it was before. Everywhere else the text is
the one that was cut already.
-/

namespace TreeEdit

namespace Segment

/-- The same characters, or brackets around some of the characters that were between them. -/
inductive Rewrites : List Char → List Char → Prop where
  | same (x : List Char) : Rewrites x x
  | brackets {inner part : List Char} : part <:+: inner →
      Rewrites ('[' :: inner ++ [']']) ('[' :: part ++ [']'])

namespace Rewrites

variable {x y d : List Char}

theorem head?_eq (h : Rewrites x y) : y.head? = x.head? := by
  cases h with
  | same => rfl
  | brackets => rfl

theorem getLast?_eq (h : Rewrites x y) : y.getLast? = x.getLast? := by
  cases h with
  | same => rfl
  | brackets => rw [List.getLast?_concat, List.getLast?_concat]

theorem ne_nil (h : Rewrites x y) (hx : x ≠ []) : y ≠ [] := by
  cases h with
  | same => exact hx
  | brackets => exact List.cons_ne_nil _ _

/-- A delimiter without brackets that lies in a piece between brackets lies between them. -/
theorem infix_of_brackets {inner rest : List Char} (hd : d ≠ []) (hopen : '[' ∉ d)
    (hclose : ']' ∉ d) (h : d <:+: '[' :: inner ++ ']' :: rest) : d <:+: inner ∨ d <:+: rest := by
  rcases Text.infix_append_cons hclose h with h | h
  · rcases Text.infix_append_cons (x := []) hopen h with h | h
    · exact absurd (List.eq_nil_of_infix_nil h) hd
    · exact .inl h
  · exact .inr h

/-- A rewritten piece is as free of the delimiter as the piece was. -/
theorem cuts (h : Rewrites x y) (hd : d ≠ []) (hopen : '[' ∉ d) (hclose : ']' ∉ d) :
    (Text.Free d x → Text.Free d y) ∧ (¬ d <:+: x → ¬ d <:+: y) := by
  cases h with
  | same => exact ⟨fun h => h, fun h => h⟩
  | @brackets inner part hpart =>
      have hin : d <:+: inner → d <:+: '[' :: inner ++ [']'] := fun h =>
        h.trans ⟨['['], [']'], rfl⟩
      constructor
      · intro hfree n hn hpre
        have hno : ¬ d <:+: part := fun h =>
          hfree.not_infix hd (hin (h.trans hpart))
        -- the delimiter would have to begin behind the opening bracket
        cases n with
        | zero =>
            obtain ⟨c, d', rfl⟩ := List.exists_cons_of_ne_nil hd
            obtain ⟨rfl, -⟩ := List.cons_prefix_cons.mp hpre
            exact hopen (List.mem_cons_self ..)
        | succ n =>
            have hlen : n ≤ part.length := by
              simp only [List.cons_append, List.length_cons, List.length_append,
                List.length_nil] at hn
              omega
            have hdrop : ('[' :: part ++ [']'] ++ d).drop (n + 1) = part.drop n ++ ']' :: d := by
              simp [List.drop_append_of_le_length hlen]
            rw [hdrop] at hpre
            have hpart := Text.prefix_of_append_cons hclose hpre
            exact hno (hpart.isInfix.trans (List.drop_suffix n part).isInfix)
      · intro hno h
        rcases infix_of_brackets hd hopen hclose h with h | h
        · exact hno (hin (h.trans hpart))
        · exact hd (List.eq_nil_of_infix_nil h)

end Rewrites

/-! ## One segment -/

theorem bracketed?_eq_some_iff {x inner : List Char} :
    bracketed? x = some inner ↔ x = '[' :: inner ++ [']'] := by
  constructor
  · intro h
    unfold bracketed? at h
    split at h
    · rename_i rest
      split at h
      · rename_i hlast
        obtain rfl := Option.some.inj h
        rw [List.cons_append, List.dropLast_append_getLast? _ hlast]
      · cases h
    · cases h
  · rintro rfl
    simp [bracketed?]

/-- A position is read from digits among the characters that write it, and is not too large. -/
theorem digitsOf_infix_of_position? {inner : List Char} {n : Nat}
    (h : position? (Text.trimChars inner) = some n) :
    Text.digitsOf n <:+: inner ∧ n < Whole.bound.toNat := by
  obtain ⟨hdigits, hn⟩ := Option.filter_eq_some_iff.mp h
  refine ⟨?_, of_decide_eq_true hn⟩
  have hpart := (Text.digitsOf_suffix hdigits).isInfix
  split at hpart
  · rename_i rest heq
    have hrest : rest <:+: Text.trimChars inner := heq ▸ (List.suffix_cons '+' rest).isInfix
    exact (hpart.trans hrest).trans (Text.trimChars_infix inner)
  · exact hpart.trans (Text.trimChars_infix inner)

/-- The digits of a position are read as the position. -/
theorem position?_digitsOf {n : Nat} (h : n < Whole.bound.toNat) :
    position? (Text.trimChars (Text.digitsOf n)) = some n := by
  have hdigit : ∀ c ∈ Text.digitsOf n, Text.isBlank c = false ∧ c ≠ '+' := by
    intro c hc
    have hvalue := Text.isDigit_iff.mp (Text.isDigit_of_mem_digitsOf hc)
    constructor
    · simp only [Text.isBlank, Bool.or_eq_false_iff, Bool.and_eq_false_iff, decide_eq_false_iff_not,
        beq_eq_false_iff_ne]
      omega
    · intro hplus
      rw [hplus] at hvalue
      exact absurd hvalue (by decide)
  have htrim : Text.trimChars (Text.digitsOf n) = Text.digitsOf n := Text.trimChars_of_ends
    (fun c hc => (hdigit c (List.mem_of_head? hc)).1)
    (fun c hc => (hdigit c (List.mem_of_getLast? hc)).1)
  have hread : Text.natOfDigits? 10 (Text.digitsOf n) = some n :=
    Text.natOfDigits?_toDigits (by decide) (by decide) n
  rw [htrim]
  unfold position?
  split
  · rename_i rest heq
    exact absurd rfl (hdigit '+' (by rw [heq]; exact List.mem_cons_self ..)).2
  · dsimp only
    rw [hread, Option.filter_some, if_pos (decide_eq_true h)]

theorem toList_text_index (n : Nat) :
    (Segment.index n).text.toList = '[' :: Text.digitsOf n ++ [']'] := by
  simp [text, Step.text]

/-- **A segment is read again from the text that it is written with**, and that text is the one it
was read from, up to what stands in brackets. -/
theorem parse_text {written : String} {s : Segment} (h : parse written = .ok s) :
    parse s.text = .ok s ∧ Rewrites written.toList s.text.toList := by
  have hparse := h
  unfold parse at h
  split at h
  · cases h
  split at h
  · rename_i htext
    cases h
    exact ⟨rfl, htext ▸ .same _⟩
  split at h
  · rename_i htext
    cases h
    exact ⟨rfl, htext ▸ .same _⟩
  split at h
  · rename_i n hindex
    cases h
    obtain ⟨inner, hinner, hn⟩ := Option.bind_eq_some_iff.mp hindex
    rw [bracketed?_eq_some_iff.mp hinner]
    obtain ⟨hpart, hlt⟩ := digitsOf_infix_of_position? hn
    have htext := toList_text_index n
    refine ⟨?_, htext ▸ .brackets hpart⟩
    -- what begins with a bracket is neither empty nor made of stars
    have hne : ∀ t : String, t.toList.head? ≠ some '[' → (Segment.index n).text ≠ t := by
      rintro t ht rfl
      rw [htext] at ht
      exact ht rfl
    rw [parse, if_neg (hne _ (by decide)), if_neg (hne _ (by decide)), if_neg (hne _ (by decide)),
      bracketed?_eq_some_iff.mpr htext, Option.bind_some, position?_digitsOf hlt]
  · split at h
    · cases h
      exact ⟨hparse, .same _⟩
    · cases h

end Segment

/-! ## A whole pattern -/

namespace Pattern

variable {d : List Char} {xs ys : List (List Char)}

/-- Joined pieces keep their ends when each of them keeps its own. -/
theorem ends_intercalate (h : List.Forall₂ Segment.Rewrites xs ys) (hne : ∀ x ∈ xs, x ≠ []) :
    (d.intercalate ys).head? = (d.intercalate xs).head? ∧
      (d.intercalate ys).getLast? = (d.intercalate xs).getLast? := by
  induction h with
  | nil => exact ⟨rfl, rfl⟩
  | @cons x y xs ys hxy hrest ih =>
      obtain ⟨hx, hxs⟩ := List.forall_mem_cons.mp hne
      refine ⟨?_, ?_⟩
      · rw [Text.head?_intercalate d _ (hxy.ne_nil hx), Text.head?_intercalate d _ hx,
          hxy.head?_eq]
      · cases hrest with
        | nil => rw [List.intercalate_singleton, List.intercalate_singleton, hxy.getLast?_eq]
        | @cons x' y' xs ys hxy' hrest =>
            have hx' := hxs x' (List.mem_cons_self ..)
            rw [List.intercalate_cons_cons, List.intercalate_cons_cons,
              List.getLast?_append_of_ne_nil _ (Text.intercalate_ne_nil d _ (hxy'.ne_nil hx')),
              List.getLast?_append_of_ne_nil _ (Text.intercalate_ne_nil d _ hx'), (ih hxs).2]

/-- Pieces that are rewritten to the text of the whole document were that text. -/
theorem eq_root_of_rewrites (h : List.Forall₂ Segment.Rewrites xs ys) (hne : ∀ x ∈ xs, x ≠ [])
    (hd : d ≠ []) (hroot : d.intercalate ys = root.toList) : d.intercalate xs = root.toList := by
  cases h with
  | nil => exact hroot
  | @cons x y xs ys hxy hrest =>
      obtain ⟨hx, hxs⟩ := List.forall_mem_cons.mp hne
      cases hrest with
      | nil =>
          rw [List.intercalate_singleton] at hroot ⊢
          cases hxy with
          | same => exact hroot
          | brackets => cases hroot
      | @cons x' y' xs ys hxy' hrest =>
          -- two pieces and a delimiter are more than one character
          have hx' := hxs x' (List.mem_cons_self ..)
          have hlen := congrArg List.length hroot
          have hfirst := List.length_pos_iff.mpr (hxy.ne_nil hx)
          have hmid := List.length_pos_iff.mpr hd
          have hrest := List.length_pos_iff.mpr (Text.intercalate_ne_nil d ys (hxy'.ne_nil hx'))
          rw [List.intercalate_cons_cons, List.length_append, List.length_append] at hlen
          have hone : root.toList.length = 1 := rfl
          omega

/-- What a pattern other than that for the whole document is compiled from. -/
theorem compile_eq_ok_iff {raw delimiter : String} {p : Pattern} (hraw : p.raw ≠ root) :
    compile raw delimiter = .ok p ↔ delimiter ≠ "" ∧ p.raw = Text.trim raw ∧ p.raw ≠ "" ∧
      p.delimiter = delimiter ∧
      (Text.splitOn delimiter p.raw).mapM Segment.parse = .ok p.segments := by
  obtain ⟨text, d, segments⟩ := p
  unfold compile
  dsimp only
  constructor
  · intro h
    split at h
    · cases h
    rename_i hd
    split at h
    · rename_i htrim
      cases h
      exact absurd htrim hraw
    split at h
    · cases h
    rename_i hne
    split at h
    · rename_i segments' hparse
      cases h
      exact ⟨hd, rfl, hne, rfl, hparse⟩
    · cases h
  · intro h
    obtain ⟨hd, rfl, hne, rfl, hparse⟩ := h
    rw [if_neg hd, if_neg hraw, if_neg hne, hparse]

/-- The pieces that segments are read from are rewritten to what the segments write, and each segment
is read again from that. -/
theorem rewrites_of_mapM {pieces : List (List Char)} {segments : List Segment}
    (h : (pieces.map String.ofList).mapM Segment.parse = .ok segments) :
    (∀ x ∈ pieces, x ≠ []) ∧
      List.Forall₂ Segment.Rewrites pieces (segments.map (·.text.toList)) ∧
      ∀ s ∈ segments, Segment.parse s.text = .ok s := by
  have hread : List.Forall₂ (fun x s => x ≠ [] ∧ Segment.Rewrites x s.text.toList ∧
      Segment.parse s.text = .ok s) pieces segments := by
    refine (List.forall₂_map_left_iff.mp (forall₂_of_mapM h)).imp fun x s h => ?_
    obtain ⟨hagain, hrewrites⟩ := Segment.parse_text h
    refine ⟨?_, by simpa using hrewrites, hagain⟩
    rintro rfl
    cases h
  obtain ⟨hnonempty, hread⟩ := (List.forall₂_and_left _ _).mp hread
  have hflip : List.Forall₂ (fun s x => Segment.parse s.text = .ok s ∧
      Segment.Rewrites x s.text.toList) segments pieces :=
    List.Forall₂.flip (hread.imp fun _ _ h => ⟨h.2, h.1⟩)
  refine ⟨hnonempty, ?_, ((List.forall₂_and_left _ _).mp hflip).1⟩
  exact List.forall₂_map_right_iff.mpr (hread.imp fun _ _ h => h.1)

/-- **A pattern that is written out and compiled again has the same segments**, and is written out
the same way. -/
theorem compile_remainingText {raw delimiter : String} {p : Pattern}
    (h : compile raw delimiter = .ok p) (hopen : '[' ∉ delimiter.toList)
    (hclose : ']' ∉ delimiter.toList) (hraw : p.raw ≠ root) :
    ∃ q, compile (p.remainingText ⟨0, false⟩) delimiter = .ok q ∧ q.segments = p.segments ∧
      q.isRoot = p.isRoot ∧ q.remainingText ⟨0, false⟩ = p.remainingText ⟨0, false⟩ := by
  obtain ⟨hne, htrim, hempty, hdelimiter, hparse⟩ := (compile_eq_ok_iff hraw).mp h
  obtain ⟨text, d, segments⟩ := p
  subst hdelimiter
  dsimp only at htrim hempty hparse hraw hopen hclose hne
  have hd : d.toList ≠ [] := by simpa using hne
  -- the pieces of the text, and what becomes of them
  have hpieces := (Text.splitFrom_eq_iff hd).mp (rfl : Text.splitFrom d.toList 0 [] text.toList = _)
  rw [Text.splitOn] at hparse
  generalize Text.splitFrom d.toList 0 [] text.toList = pieces at hpieces hparse
  obtain ⟨hjoin, hcuts⟩ := hpieces
  obtain ⟨hnonempty, hrewrites, hagain⟩ := rewrites_of_mapM hparse
  -- the written text is cut at the same places
  have hnew : Text.Cuts d.toList (segments.map (·.text.toList)) :=
    hcuts.replace (hrewrites.imp fun _ _ h => h.cuts hd hopen hclose)
  have hwritten : (remainingText ⟨text, d, segments⟩ ⟨0, false⟩).toList =
      d.toList.intercalate (segments.map (·.text.toList)) := by
    simp [remainingText, remaining, Text.joinWith, String.toList_intercalate, Function.comp_def]
  generalize hw : remainingText ⟨text, d, segments⟩ ⟨0, false⟩ = written at hwritten ⊢
  have hsplit : (Text.splitOn d written).mapM Segment.parse = .ok segments := by
    rw [Text.splitOn, hwritten, Text.splitFrom_intercalate hd hnew, List.map_map, List.mapM_map]
    simpa using mapM_eq_ok (g := id) fun s hs => by simpa using hagain s hs
  -- and it is not taken for anything else
  obtain ⟨hhead, hlast⟩ := ends_intercalate (d := d.toList) hrewrites hnonempty
  rw [← hwritten, ← hjoin] at hhead hlast
  have hroot : written ≠ root := by
    intro heq
    rw [heq] at hwritten
    have htext := eq_root_of_rewrites hrewrites hnonempty hd hwritten.symm
    rw [← hjoin] at htext
    exact hraw (String.toList_injective htext)
  have hends : text.toList = Text.trimChars raw.toList := by
    rw [htrim, Text.trim, String.toList_ofList]
  have hblank : Text.trim written = written := Text.trim_eq_self
    (fun c hc => Text.isBlank_of_head?_trimChars (by rw [← hends, ← hhead]; exact hc))
    (fun c hc => Text.isBlank_of_getLast?_trimChars (by rw [← hends, ← hlast]; exact hc))
  have hne' : written ≠ "" := by
    rintro rfl
    exact hempty (by simpa using hhead.symm)
  refine ⟨⟨written, d, segments⟩, ?_, rfl, rfl, hw⟩
  exact (compile_eq_ok_iff hroot).mpr ⟨hne, hblank.symm, hne', rfl, hsplit⟩

/-- A position with blanks, a sign and a zero, before a delimiter that could begin later. -/
theorem compile_remainingText_position : ∃ r q,
    let p : Pattern := ⟨"[ +03 ]:::x", "::", [.index 3, .literal ":x" r]⟩
    compile " [ +03 ]:::x " "::" = .ok p ∧ '[' ∉ "::".toList ∧ ']' ∉ "::".toList ∧
      p.raw ≠ root ∧ p.remainingText ⟨0, false⟩ = "[3]:::x" ∧
      compile (p.remainingText ⟨0, false⟩) "::" = .ok q ∧ q.segments = p.segments ∧
      q.isRoot = p.isRoot ∧ q.remainingText ⟨0, false⟩ = p.remainingText ⟨0, false⟩ := by
  obtain ⟨r, hcompile⟩ : ∃ r, compile " [ +03 ]:::x " "::" =
      .ok ⟨"[ +03 ]:::x", "::", [.index 3, .literal ":x" r]⟩ := ⟨_, rfl⟩
  have hraw : "[ +03 ]:::x" ≠ root := by decide
  obtain ⟨q, hq⟩ := compile_remainingText hcompile (by decide) (by decide) hraw
  exact ⟨r, q, hcompile, by decide, by decide, hraw, rfl, hq⟩

end Pattern

end TreeEdit
