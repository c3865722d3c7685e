import TreeEdit.Proofs.PropertyPieces

/-!
# Properties files that are read back

Entries are written as they are, while the reader knows escapes, quotes, comments and sections, and
leaves blanks out. So a file is read back exactly if nothing in it asks for any of these: all keys
are `PlainKey`s and all values `PlainValue`s (`Properties.parse_render_iff`).

That plain entries are read back is an induction on them. For the other direction no reading has to
be followed. The file holds just the characters of the entries that were written, and the reader
never makes more of an entry than it took for it, so entries as long as these leave nothing for
comments, quotes, escapes and blanks (`Properties.readTop_of_readFrom`).
-/

namespace TreeEdit

namespace Properties

/-! ## Files -/

/-- The characters that entries take in a file. -/
def weight : Entries → Nat
  | [] => 0
  | e :: es => (chars e.1).length + (chars e.2).length + 2 + weight es

theorem weight_insert_le (k v : Tree) (es : Entries) :
    weight (es.insert k v) ≤ weight es + ((chars k).length + (chars v).length + 2) := by
  induction es with
  | nil => simp [Entries.insert, weight]
  | cons e es ih =>
      rw [Entries.insert]
      split
      · simp only [weight]
        omega
      · simp only [weight]
        omega

theorem plainEntry_insert {k v : Tree} {es : Entries} (hes : ∀ e ∈ es, PlainEntry e)
    (hk : PlainKey (chars k)) (hv : PlainValue (chars v)) :
    ∀ e ∈ es.insert k v, PlainEntry e := by
  induction es with
  | nil => simpa [Entries.insert, PlainEntry] using ⟨hk, hv⟩
  | cons e es ih =>
      obtain ⟨he, hes⟩ := List.forall_mem_cons.mp hes
      rw [Entries.insert]
      split
      · exact List.forall_mem_cons.mpr ⟨⟨he.1, hv⟩, hes⟩
      · exact List.forall_mem_cons.mpr ⟨he, ih hes⟩

theorem chars_ofList (s : List Char) : chars (.string (String.ofList s)) = s :=
  String.toList_ofList

theorem skipBlanks_snd (lineStart : Bool) (s : List Char) :
    (skipBlanks lineStart s).2 = Text.trimLeft s := by
  induction s generalizing lineStart with
  | nil => rfl
  | cons c s ih =>
      rw [skipBlanks]
      split
      · rename_i hc
        rw [ih, Text.trimLeft, Text.trimLeft, List.dropWhile_cons_of_pos hc]
      · rename_i hc
        rw [Text.trimLeft, List.dropWhile_cons_of_neg hc]

theorem skipLine_suffix (s : List Char) : skipLine s <:+ s := by
  induction s with
  | nil => exact List.suffix_refl _
  | cons c s ih =>
      rw [skipLine]
      split
      · exact List.suffix_cons _ _
      · exact ih.trans (List.suffix_cons _ _)

/-- What was read into the entries at the top of a file, no section having begun. -/
structure ReadTop (st : State) (s : List Char) (st' : State) : Prop where
  closed : st.current = none
  sections : st'.sections = st.sections
  weight_le : weight st'.top ≤ weight st.top + (Text.trimLeft s).length
  /-- entries that weigh as much as what they were read from are plain -/
  plain : weight st.top + (Text.trimLeft s).length ≤ weight st'.top →
    (∀ e ∈ st.top, PlainEntry e) → ∀ e ∈ st'.top, PlainEntry e

/-- An entry leaves no more room than it takes in the file, and as much only if it is plain. -/
theorem room_of_entry {c : Char} {s key after v rest : List Char}
    (hc : c ≠ '#' ∧ c ≠ ';' ∧ c ≠ '[') (hline : EndsLine (c :: s))
    (hkey : Taken .sign (c :: s) key after) (hne : Text.trimChars key ≠ [])
    (hvalue : ValueTaken true (after.drop 1) v rest) :
    (Text.trimChars key).length + v.length + 2 + (Text.trimLeft rest).length ≤ s.length + 1 ∧
      (s.length + 1 ≤ (Text.trimChars key).length + v.length + 2 + (Text.trimLeft rest).length →
        PlainKey (Text.trimChars key) ∧ PlainValue v) := by
  obtain ⟨sign, after, rfl⟩ : ∃ d tail, after = d :: tail :=
    List.exists_cons_of_ne_nil fun hnil => by cases hkey.atEnd hnil
  have hsign : sign = '=' ∨ sign = ':' := by simpa [Stop.at_] using hkey.stops sign rfl
  have htrim := Text.length_trimChars_le key
  have hlength := hkey.length_le
  have hlength' := hvalue.length_le
  simp only [List.drop_succ_cons, List.drop_zero, List.length_cons] at *
  -- nothing of the entry is lost but its sign, so nothing was trimmed, escaped or quoted
  have hplain : s.length + 1 ≤ (Text.trimChars key).length + v.length + 1 + rest.length →
      PlainKey (Text.trimChars key) ∧ PlainValue v := by
    intro hle
    have htrim' : Text.trimChars key = key := Text.trimChars_eq_self (by omega)
    rw [htrim'] at hne ⊢
    obtain ⟨heq, hchars⟩ := hkey.plain (by simp only [List.length_cons]; omega)
    refine ⟨⟨hne, htrim', fun d hd => ?_, fun d hd => ?_⟩, hvalue.plain rfl (by omega)⟩
    · obtain ⟨hat, hd'⟩ := hchars d hd
      have hat' : ¬ (d = '=' ∨ d = ':') := by simpa [Stop.at_] using hat
      exact ⟨fun h => hat' (.inl h), fun h => hat' (.inr h), hd'⟩
    · cases key with
      | nil => cases hd
      | cons d' key =>
          obtain rfl : d' = d := by simpa using hd
          rw [← (List.cons.inj heq).1]
          exact hc
  cases rest with
  | cons d rest =>
      -- the line break behind the value is a blank
      have hblank := Text.length_trimLeft_le rest
      rw [Text.trimLeft, List.dropWhile_cons_of_pos (hvalue.stops d rfl), ← Text.trimLeft]
      simp only [List.length_cons] at *
      exact ⟨by omega, fun hle => hplain (by omega)⟩
  | nil =>
      have hline' := hline.of_suffix hkey.suffix
      have hafter : after ≠ [] := hline'.ne_nil_of_cons (by
        rcases hsign with rfl | rfl
        · decide
        · decide)
      have := hvalue.joined rfl hafter (hline'.of_suffix (List.suffix_cons _ _))
      have hnil : (Text.trimLeft []).length = 0 := rfl
      exact ⟨by omega, fun hle => by omega⟩

/-- What sections and entries preserve holds at the end of a file if it does at its beginning. -/
theorem readFrom_preserves {P : State → Prop} (hopen : ∀ st name, P st → P (st.openSection name))
    (hadd : ∀ st k v, P st → P (st.add k v)) {fuel : Nat} {st st' : State} {lineStart : Bool}
    {s : List Char} (h : readFrom st lineStart fuel s = some st') (hst : P st) : P st' := by
  induction fuel generalizing st lineStart s with
  | zero => cases h
  | succ fuel ih =>
      rw [readFrom] at h
      split at h
      · exact Option.some.inj h ▸ hst
      · split at h
        · split at h
          · exact ih h hst
          · cases h
        · split at h
          · obtain ⟨⟨name, after⟩, -, h⟩ := Option.bind_eq_some_iff.mp h
            exact ih h (hopen _ _ hst)
          · obtain ⟨⟨key, after⟩, -, h⟩ := Option.bind_eq_some_iff.mp h
            dsimp only at h
            split at h
            · cases h
            · obtain ⟨⟨v, rest⟩, -, h⟩ := Option.bind_eq_some_iff.mp h
              exact ih h (hadd _ _ _ hst)

/-- A section that has begun is never left for the top. -/
theorem isSome_current_readFrom {fuel : Nat} {st st' : State} {lineStart : Bool} {s : List Char}
    (h : readFrom st lineStart fuel s = some st') (hst : st.current.isSome = true) :
    st'.current.isSome = true := by
  refine readFrom_preserves (P := fun st => st.current.isSome = true) (fun _ _ _ => rfl)
    (fun st k v hst => ?_) h hst
  obtain ⟨⟨name, es⟩, hcurrent⟩ := Option.isSome_iff_exists.mp hst
  rw [State.add, hcurrent]
  rfl

theorem add_of_closed {st : State} (h : st.current = none) (k v : Tree) :
    st.add k v = { st with top := Entries.insert k v st.top } := by
  rw [State.add, h]

/-- A comment takes room and leaves nothing. -/
theorem ReadTop.of_comment {st st' : State} {s rest : List Char} {c : Char}
    (hs : Text.trimLeft s = c :: rest) (h : ReadTop st (skipLine rest) st') :
    ReadTop st s st' := by
  have hweight := h.weight_le
  have hlength := Nat.le_trans (Text.length_trimLeft_le _) (skipLine_suffix rest).length_le
  refine ⟨h.closed, h.sections, ?_, fun hle => ?_⟩
  · rw [hs, List.length_cons]
    omega
  · -- an equal weight would need the room of the comment
    rw [hs, List.length_cons] at hle
    omega

/-- An entry in front of what was read fits in, if it leaves no more room than it takes. -/
theorem ReadTop.of_entry {st st' : State} {s s' key v rest : List Char} {c : Char}
    (hs : Text.trimLeft s = c :: s') (hclosed : st.current = none)
    (hroom : (Text.trimChars key).length + v.length + 2 + (Text.trimLeft rest).length ≤
      s'.length + 1)
    (hplain : s'.length + 1 ≤
        (Text.trimChars key).length + v.length + 2 + (Text.trimLeft rest).length →
      PlainKey (Text.trimChars key) ∧ PlainValue v)
    (h : ReadTop (st.add (trimmed key) (.string (String.ofList v))) rest st') :
    ReadTop st s st' := by
  have hinsert := weight_insert_le (trimmed key) (.string (String.ofList v)) st.top
  rw [trimmed, chars_ofList, chars_ofList] at hinsert
  rw [add_of_closed hclosed] at h
  have hweight := h.weight_le
  dsimp only [trimmed] at hweight h
  refine ⟨hclosed, h.sections, ?_, fun hle hes => ?_⟩
  · rw [hs, List.length_cons]
    omega
  · rw [hs, List.length_cons] at hle
    obtain ⟨hk, hv⟩ := hplain (by omega)
    refine h.plain (by dsimp only; omega) ?_
    dsimp only
    exact plainEntry_insert hes (by rwa [chars_ofList]) (by rwa [chars_ofList])

/-- What is read from lines that no section begins in, by induction on the lines. -/
theorem readTop_of_readFrom {fuel : Nat} {st st' : State} {lineStart : Bool} {s : List Char}
    (h : readFrom st lineStart fuel s = some st') (hclosed : st'.current = none)
    (hline : EndsLine s) : ReadTop st s st' := by
  induction fuel generalizing st lineStart s with
  | zero => cases h
  | succ fuel ih =>
      have hcurrent : st.current = none := by
        by_contra hne
        have := isSome_current_readFrom h (Option.isSome_iff_ne_none.mpr hne)
        rw [hclosed] at this
        cases this
      have hskip := skipBlanks_snd lineStart s
      have hline' : EndsLine (Text.trimLeft s) := hline.of_suffix (List.dropWhile_suffix _)
      rw [readFrom] at h
      split at h
      · rename_i heq
        obtain rfl := Option.some.inj h
        exact ⟨hcurrent, rfl, Nat.le_add_right _ _, fun _ hes => hes⟩
      · rename_i lineStart' c rest heq
        rw [heq] at hskip
        rw [← hskip] at hline'
        split at h
        · -- a comment
          split at h
          · have hrest : skipLine rest <:+ c :: rest :=
              (skipLine_suffix rest).trans (List.suffix_cons _ _)
            exact .of_comment hskip.symm (ih h (hline'.of_suffix hrest))
          · cases h
        · rename_i hcomment
          split at h
          · -- a section begins, and it would be under way at the end
            obtain ⟨⟨name, after⟩, -, h⟩ := Option.bind_eq_some_iff.mp h
            have := isSome_current_readFrom h rfl
            rw [hclosed] at this
            cases this
          · -- an entry
            rename_i hsection
            obtain ⟨⟨key, after⟩, hkey, h⟩ := Option.bind_eq_some_iff.mp h
            dsimp only at h
            split at h
            · cases h
            · rename_i hne
              obtain ⟨⟨v, left⟩, hvalue, h⟩ := Option.bind_eq_some_iff.mp h
              have hkey' := taken_of_piece?_nil (by decide) hkey
              have hvalue' := valueTaken_of_value? hvalue
              have hbegins : c ≠ '#' ∧ c ≠ ';' ∧ c ≠ '[' := by
                simp only [Bool.or_eq_true, decide_eq_true_eq, not_or] at hcomment
                exact ⟨hcomment.1, hcomment.2, hsection⟩
              obtain ⟨hroom, hplain⟩ :=
                room_of_entry hbegins hline' hkey' (by simpa using hne) hvalue'
              have hleft := (hvalue'.suffix.trans (List.drop_suffix _ _)).trans hkey'.suffix
              exact .of_entry hskip.symm hcurrent hroom hplain (ih h (hline'.of_suffix hleft))

/-! ## Sections are no strings -/

/-- The sections of a file are mappings. -/
def SectionsMapped (st : State) : Prop := ∀ e ∈ st.sections, ∃ es, e.2 = .mapping es

theorem forall_mem_insert {P : Tree → Prop} {k v : Tree} {es : Entries} (hes : ∀ e ∈ es, P e.2)
    (hv : P v) : ∀ e ∈ es.insert k v, P e.2 := by
  induction es with
  | nil => simpa [Entries.insert] using hv
  | cons e es ih =>
      obtain ⟨he, hes⟩ := List.forall_mem_cons.mp hes
      rw [Entries.insert]
      split
      · exact List.forall_mem_cons.mpr ⟨hv, hes⟩
      · exact List.forall_mem_cons.mpr ⟨he, ih hes⟩

theorem SectionsMapped.close {st : State} (h : SectionsMapped st) : SectionsMapped st.close := by
  unfold State.close
  split
  · exact h
  · exact forall_mem_insert (P := fun v => ∃ es, v = .mapping es) h ⟨_, rfl⟩

theorem sectionsMapped_readFrom {fuel : Nat} {st st' : State} {lineStart : Bool} {s : List Char}
    (h : readFrom st lineStart fuel s = some st') (hst : SectionsMapped st) :
    SectionsMapped st' := by
  refine readFrom_preserves (P := SectionsMapped) (fun st name hst => hst.close)
    (fun st k v hst => ?_) h hst
  unfold State.add
  split
  · exact hst
  · exact hst

theorem exists_mem_insert (k v : Tree) (es : Entries) : ∃ e ∈ es.insert k v, e.2 = v := by
  induction es with
  | nil => exact ⟨(k, v), List.mem_cons_self .., rfl⟩
  | cons e es ih =>
      rw [Entries.insert]
      split
      · exact ⟨_, List.mem_cons_self .., rfl⟩
      · obtain ⟨e', he', hv⟩ := ih
        exact ⟨e', List.mem_cons_of_mem _ he', hv⟩

/-- The last of several entries is still there when all of them have been inserted. -/
theorem exists_mem_insertAll (es : Entries) {new : Entries} (h : new ≠ []) :
    ∃ e ∈ es.insertAll new, ∃ e' ∈ new, e.2 = e'.2 := by
  obtain ⟨before, last, rfl⟩ : ∃ before last, new = before ++ [last] :=
    ⟨_, _, (List.dropLast_concat_getLast h).symm⟩
  obtain ⟨e, he, hv⟩ := exists_mem_insert last.1 last.2 (es.insertAll before)
  refine ⟨e, ?_, last, by simp, hv⟩
  rw [Entries.insertAll, List.foldl_append]
  exact he

/-- A document of strings was read from a file without sections. -/
theorem current_eq_none {st : State} (h : SectionsMapped st) {es : Entries}
    (hes : ∀ e ∈ es, e.2.isScalar = true) (hdoc : st.document = .mapping es) :
    st.current = none := by
  by_contra hopen
  obtain ⟨⟨name, entries⟩, hcurrent⟩ := Option.ne_none_iff_exists'.mp hopen
  have hne : st.close.sections ≠ [] := by
    obtain ⟨e, he, -⟩ := exists_mem_insert name (.mapping entries) st.sections
    rw [State.close, hcurrent]
    exact List.ne_nil_of_mem he
  obtain ⟨e, he, e', he', hv⟩ := exists_mem_insertAll st.top hne
  obtain ⟨section', hsection⟩ := h.close e' he'
  have hscalar := hes e (Tree.mapping.inj hdoc ▸ he)
  rw [hv, hsection] at hscalar
  cases hscalar

/-! ## Reading what was written -/

/-- A scalar as a string. -/
def asText (t : Tree) : Tree := .string (t.text?.getD "")

theorem chars_asText (t : Tree) : chars (asText t) = chars t := rfl

/-- The characters that entries are written as. -/
def lineChars (es : Entries) : List Char :=
  es.flatMap fun e => chars e.1 ++ '=' :: (chars e.2 ++ ['\n'])

theorem weight_asText (es : Entries) :
    weight (es.map fun e => (asText e.1, asText e.2)) = weight es := by
  induction es with
  | nil => rfl
  | cons e es ih => simp only [List.map_cons, weight, chars_asText, ih]

theorem length_lineChars (es : Entries) : (lineChars es).length = weight es := by
  induction es with
  | nil => rfl
  | cons e es ih =>
      rw [lineChars] at ih ⊢
      simp only [List.flatMap_cons, List.length_append, List.length_cons, List.length_nil, ih,
        weight]
      omega

/-- What is written ends with a line feed. -/
theorem getLast?_lineChars {es : Entries} (h : es ≠ []) : (lineChars es).getLast? = some '\n' := by
  rw [← List.dropLast_concat_getLast h, lineChars, List.flatMap_append, List.flatMap_singleton,
    List.getLast?_append, ← List.cons_append, ← List.append_assoc, List.getLast?_concat]
  rfl

theorem linesOf_eq_ok {es : Entries} {text : String} (h : linesOf es = .ok text) :
    text.toList = lineChars es ∧ ∀ e ∈ es, e.1.text?.isSome = true := by
  induction es generalizing text with
  | nil =>
      obtain rfl := Except.ok.inj h
      exact ⟨rfl, by simp⟩
  | cons e es ih =>
      rw [linesOf] at h
      split at h
      · rename_i key value hk hv
        cases hrest : linesOf es with
        | error e =>
            rw [hrest] at h
            cases h
        | ok rest =>
            rw [hrest] at h
            obtain rfl := Except.ok.inj h
            obtain ⟨hchars, hkeys⟩ := ih hrest
            refine ⟨?_, List.forall_mem_cons.mpr ⟨by rw [hk]; rfl, hkeys⟩⟩
            have hline : ("=" : String).toList = ['='] ∧ ("\n" : String).toList = ['\n'] := by
              decide
            simp [lineChars, chars, hk, hv, hchars, hline]
      · cases h

theorem string_chars (t : Tree) : .string (String.ofList (chars t)) = asText t := by
  rw [chars, String.ofList_toList, asText]

/-- A line feed in front of an entry changes only where a comment may begin. -/
theorem readFrom_lineFeed (st : State) (lineStart : Bool) (fuel : Nat) (s : List Char) :
    readFrom st lineStart (fuel + 1) ('\n' :: s) = readFrom st true (fuel + 1) s := rfl

/-- A plain entry is read as its texts, and the end of its line is left. -/
theorem readFrom_entry {st : State} {e : Tree × Tree} (he : PlainEntry e) (fuel : Nat)
    (rest : List Char) :
    readFrom st true (fuel + 1) (chars e.1 ++ '=' :: (chars e.2 ++ '\n' :: rest)) =
      readFrom (st.add (asText e.1) (asText e.2)) false fuel ('\n' :: rest) := by
  obtain ⟨hk, hv⟩ := he
  obtain ⟨c, k, hck⟩ := List.exists_cons_of_ne_nil hk.ne_nil
  have hkey : piece? .sign [] (chars e.1 ++ '=' :: (chars e.2 ++ '\n' :: rest)) =
      some (chars e.1, '=' :: (chars e.2 ++ '\n' :: rest)) :=
    piece?_append (fun c hc => by
      obtain ⟨he, hcolon, hb⟩ := hk.chars c hc
      exact ⟨by simp [Stop.at_, he, hcolon], hb⟩) (by decide) (by decide) [] _
  have htrim := hk.trim
  obtain ⟨hhash, hsemicolon, hbracket⟩ := hk.begins c (by rw [hck]; rfl)
  have hvalue := value?_append hv rest
  have hname : trimmed (chars e.1) = asText e.1 := by rw [trimmed, htrim, string_chars]
  have hstring := string_chars e.2
  rw [hck] at hkey htrim hname ⊢
  have hskip : skipBlanks true (c :: (k ++ '=' :: (chars e.2 ++ '\n' :: rest))) =
      (true, c :: (k ++ '=' :: (chars e.2 ++ '\n' :: rest))) := by
    rw [skipBlanks, if_neg (by simp [Text.isBlank_of_trimChars htrim])]
  rw [List.cons_append] at hkey ⊢
  rw [readFrom]
  simp [hskip, hhash, hsemicolon, hbracket, hkey, htrim, hvalue, hname, hstring]

/-- A file of plain entries is read one entry after the other. -/
theorem readFrom_lineChars {es : Entries} (hes : ∀ e ∈ es, PlainEntry e) {st : State}
    (hst : st.current = none) {fuel : Nat} (hfuel : (lineChars es).length < fuel) :
    readFrom st true fuel (lineChars es) =
      some { st with
        top := st.top.insertAll (es.map fun e => (asText e.1, asText e.2)) } := by
  induction es generalizing st fuel with
  | nil =>
      obtain ⟨fuel, rfl⟩ := Nat.exists_eq_succ_of_ne_zero (Nat.ne_of_gt hfuel)
      rfl
  | cons e es ih =>
      obtain ⟨he, hes⟩ := List.forall_mem_cons.mp hes
      have hline : lineChars (e :: es) =
          chars e.1 ++ '=' :: (chars e.2 ++ '\n' :: lineChars es) := by
        simp [lineChars]
      rw [hline] at hfuel ⊢
      simp only [List.length_append, List.length_cons] at hfuel
      obtain ⟨fuel, rfl⟩ : ∃ n, fuel = n + 2 := ⟨fuel - 2, by omega⟩
      have hadd := add_of_closed hst (asText e.1) (asText e.2)
      have hst' : (st.add (asText e.1) (asText e.2)).current = none := by rw [hadd, hst]
      rw [readFrom_entry he, readFrom_lineFeed, ih hes hst' (by omega), hadd]
      rfl

/-- The text of entries as a file holds it. -/
theorem toList_render {d : Dialect} {es : Entries} {text : String}
    (h : Format.properties.render d (.mapping es) = .ok text) (hne : es ≠ []) :
    text.toList = lineChars es ∧ ∀ e ∈ es, e.1.text?.isSome = true := by
  unfold Format.render render at h
  dsimp only at h
  cases hlines : linesOf es with
  | error e =>
      rw [hlines] at h
      cases h
  | ok lines =>
      rw [hlines] at h
      have hread := linesOf_eq_ok hlines
      obtain rfl := Except.ok.inj h
      rw [endWithLineFeed, if_pos (by rw [hread.1, getLast?_lineChars hne])]
      exact hread

theorem parse_of_plain {es : Entries} {text : String} (htext : text.toList = lineChars es)
    (hd : Entries.Distinct (es.map fun e => (asText e.1, asText e.2)))
    (hes : ∀ e ∈ es, PlainEntry e) :
    parse text = .ok (.mapping (es.map fun e => (asText e.1, asText e.2))) := by
  have hread : readFrom {} true ((lineChars es).length + 1) (lineChars es) = _ :=
    readFrom_lineChars hes rfl (Nat.lt_succ_self _)
  have hall : Entries.insertAll [] (es.map fun e => (asText e.1, asText e.2)) =
      es.map fun e => (asText e.1, asText e.2) := Entries.ofList_of_distinct hd
  simp only [parse, htext, hread, hall]
  rfl

theorem plain_of_parse {es : Entries} {text : String} (hne : es ≠ [])
    (htext : text.toList = lineChars es)
    (h : parse text = .ok (.mapping (es.map fun e => (asText e.1, asText e.2)))) :
    ∀ e ∈ es, PlainEntry e := by
  unfold parse at h
  dsimp only at h
  split at h
  · rename_i st hread
    rw [htext] at hread
    have hdoc := Except.ok.inj h
    have hclosed := current_eq_none (sectionsMapped_readFrom hread (by simp [SectionsMapped]))
      (fun e he => by
        obtain ⟨e', -, rfl⟩ := List.mem_map.mp he
        rfl) hdoc
    have hline : EndsLine (lineChars es) := by
      intro c hc
      rw [getLast?_lineChars hne] at hc
      exact (Option.some.inj hc).symm
    have htop := readTop_of_readFrom hread hclosed hline
    have hentries : st.top = es.map fun e => (asText e.1, asText e.2) := by
      have hsections := htop.sections
      rw [State.document, State.close, hclosed, hsections] at hdoc
      exact Tree.mapping.inj hdoc
    have hweight : weight st.top = (lineChars es).length := by
      rw [hentries, length_lineChars, weight_asText]
    have hplain := htop.plain (by
      have := Text.length_trimLeft_le (lineChars es)
      rw [hweight]
      simpa [weight] using this) (by simp)
    rw [hentries] at hplain
    intro e he
    exact hplain (asText e.1, asText e.2) (List.mem_map.mpr ⟨e, he, rfl⟩)
  · cases h

/--
**The properties files that are read back.** Whatever the file of entries with different texts for
keys, it is read as these entries with their texts exactly if all keys and values are plain.
-/
theorem parse_render_iff {d : Dialect} {es : Entries} {text : String}
    (hkeys : es.Pairwise fun a b => a.1.text? ≠ b.1.text?)
    (h : Format.properties.render d (.mapping es) = .ok text) :
    Format.properties.parse d text = .ok (.mapping (es.map fun e => (asText e.1, asText e.2))) ↔
      ∀ e ∈ es, PlainEntry e := by
  by_cases hne : es = []
  · subst hne
    obtain rfl := Except.ok.inj h
    exact ⟨fun _ => by simp, fun _ => rfl⟩
  · obtain ⟨htext, hsome⟩ := toList_render h hne
    have hd : Entries.Distinct (es.map fun e => (asText e.1, asText e.2)) := by
      refine List.pairwise_map.mpr (hkeys.imp_of_mem fun {a b} ha hb hab hsame => hab ?_)
      obtain ⟨s, hs⟩ := Option.isSome_iff_exists.mp (hsome a ha)
      obtain ⟨t, ht⟩ := Option.isSome_iff_exists.mp (hsome b hb)
      have := Tree.same_string_iff.mp hsame
      simpa [asText, hs, ht, eq_comm] using this
    exact ⟨plain_of_parse hne htext, parse_of_plain htext hd⟩

/-- Signs, comment marks and quotes inside a value are kept, and numbers become their texts. -/
theorem parse_render_signs_in_value :
    Format.properties.parse .tagged "url=a:b=c # 'd'\n1=\n" =
      .ok (.mapping [(.string "url", .string "a:b=c # 'd'"), (.string "1", .string "")]) := by
  have hrender : Format.properties.render .tagged (.mapping
      [(.string "url", .string "a:b=c # 'd'"),
        (.number (.whole ⟨1, by decide, by decide⟩), .null)]) = .ok "url=a:b=c # 'd'\n1=\n" := rfl
  have hread := (parse_render_iff (by decide) hrender).mpr (by decide)
  exact hread

/-- A backslash is written as it is, and read as the beginning of an escape. -/
theorem parse_render_backslash :
    Format.properties.render .tagged (.mapping [(.string "a", .string "x\\y")]) =
        .ok "a=x\\y\n" ∧
      Format.properties.parse .tagged "a=x\\y\n" =
        .ok (.mapping [(.string "a", .string "xy")]) :=
  ⟨rfl, rfl⟩

end Properties

end TreeEdit
