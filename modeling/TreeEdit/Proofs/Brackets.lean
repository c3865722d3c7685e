import TreeEdit.Proofs.Blocks
import TreeEdit.Proofs.CutTexts

/-!
# Which end closes which loop

The bracket that closes a `foreach` is declared here without a scan: a pair is a `foreach` and a
later `end` with balanced lines between them (`Pairs`). Both scans of a script are held against that.

* `checkBalance` refuses an `end` that is in no pair, the first one, and if there is none a
  `foreach` that is in no pair (`Fault`). Its stack holds whole blocks between the loops that are
  open, so every bracket it has left behind is in a pair.
* `matchingEnd` gives the other half of a pair (`Pairs.matchingEnd_eq`). It sees nothing behind
  that, so it gives the same in the lines of a body on their own (`Pairs.matchingEnd_between`), and
  no two pairs overlap (`Pairs.nested_or_apart`).
-/

namespace TreeEdit

namespace Script

/-- The brackets of the lines are balanced. -/
inductive Balanced : List Line → Prop where
  | nil : Balanced []
  | plain {line : Line} {rest : List Line} : line.isForeach = false → line.isEnd = false →
      Balanced rest → Balanced (line :: rest)
  | loop {head close : Line} {body rest : List Line} : head.isForeach = true → Balanced body →
      close.isEnd = true → Balanced rest → Balanced (head :: (body ++ close :: rest))

/-- A line of a kind stands at a position. -/
def HasAt (kind : Line → Bool) (ls : List Line) (i : Nat) : Prop :=
  ∃ l, ls[i]? = some l ∧ kind l = true

/-- The lines strictly between two positions. -/
def between (ls : List Line) (i e : Nat) : List Line := (ls.drop (i + 1)).take (e - (i + 1))

/-- The `foreach` at `i` and the `end` at `e` belong to each other. -/
structure Pairs (ls : List Line) (i e : Nat) : Prop where
  lt : i < e
  opens : HasAt Line.isForeach ls i
  closes : HasAt Line.isEnd ls e
  balanced : Balanced (between ls i e)

/-! ## Lines at positions -/

theorem hasAt_append_iff {kind : Line → Bool} {as bs : List Line} {i : Nat} :
    HasAt kind (as ++ bs) i ↔
      HasAt kind as i ∨ ∃ k, i = as.length + k ∧ HasAt kind bs k := by
  by_cases hi : i < as.length
  · simp only [HasAt, List.getElem?_append_left hi]
    constructor
    · exact Or.inl
    · rintro (h | ⟨k, rfl, -⟩)
      · exact h
      · omega
  · have hle : as.length ≤ i := by omega
    simp only [HasAt, List.getElem?_append_right hle, List.getElem?_eq_none hle]
    constructor
    · intro h
      exact .inr ⟨i - as.length, by omega, h⟩
    · rintro (⟨l, h, -⟩ | ⟨k, rfl, h⟩)
      · cases h
      · rwa [Nat.add_sub_cancel_left]

theorem hasAt_cons_iff {kind : Line → Bool} {l : Line} {ls : List Line} {i : Nat} :
    HasAt kind (l :: ls) i ↔
      (i = 0 ∧ kind l = true) ∨ ∃ k, i = k + 1 ∧ HasAt kind ls k := by
  cases i with
  | zero => simp [HasAt]
  | succ i => simp [HasAt]

/-- A line stands between those before it and those behind it. -/
theorem exists_split_of_hasAt {kind : Line → Bool} {ls : List Line} {i : Nat}
    (h : HasAt kind ls i) :
    ∃ pre l post, ls = pre ++ l :: post ∧ pre.length = i ∧ kind l = true := by
  obtain ⟨l, hl, hkind⟩ := h
  obtain ⟨hi, rfl⟩ := List.getElem?_eq_some_iff.mp hl
  refine ⟨ls.take i, ls[i], ls.drop (i + 1), ?_, ?_, hkind⟩
  · rw [← List.drop_eq_getElem_cons hi, List.take_append_drop]
  · rw [List.length_take, Nat.min_eq_left (Nat.le_of_lt hi)]

theorem hasAt_length {kind : Line → Bool} {l : Line} (h : kind l = true) (pre post : List Line) :
    HasAt kind (pre ++ l :: post) pre.length :=
  ⟨l, by simp, h⟩

theorem HasAt.lt {kind : Line → Bool} {ls : List Line} {i : Nat} (h : HasAt kind ls i) :
    i < ls.length := by
  obtain ⟨l, hl, -⟩ := h
  exact (List.getElem?_eq_some_iff.mp hl).1

/-- No line is a bracket of both kinds. -/
theorem HasAt.not_foreach {ls : List Line} {i : Nat} (h : HasAt Line.isEnd ls i) :
    ¬ HasAt Line.isForeach ls i := by
  rintro ⟨l, hl, hforeach⟩
  obtain ⟨l', hl', hend⟩ := h
  obtain rfl := Option.some.inj (hl.symm.trans hl')
  rw [Line.not_isForeach_of_isEnd hend] at hforeach
  cases hforeach

/-! ## Balanced lines are the lines of blocks -/

/-- Balanced lines in a row are balanced. -/
theorem Balanced.append {as bs : List Line} (ha : Balanced as) (hb : Balanced bs) :
    Balanced (as ++ bs) := by
  induction ha with
  | nil => exact hb
  | plain hf he _ ih => exact .plain hf he ih
  | loop hf hbody he _ _ ih =>
      rw [List.cons_append, List.append_assoc, List.cons_append]
      exact .loop hf hbody he ih

mutual

theorem Block.balanced_lines : (b : Block) → Balanced b.lines
  | .command _ plain => .plain plain.1 plain.2 .nil
  | .loop _ opens body _ closes => .loop opens (balanced_linesOf body) closes .nil

theorem Block.balanced_linesOf : (bs : List Block) → Balanced (Block.linesOf bs)
  | [] => .nil
  | b :: bs => (balanced_lines b).append (balanced_linesOf bs)

end

/-- Lines are balanced exactly if they are those of blocks. -/
theorem balanced_iff {ls : List Line} : Balanced ls ↔ ∃ bs, Block.linesOf bs = ls := by
  constructor
  · intro h
    induction h with
    | nil => exact ⟨[], rfl⟩
    | @plain line _ hf he _ ih =>
        obtain ⟨bs, rfl⟩ := ih
        exact ⟨.command line ⟨hf, he⟩ :: bs, rfl⟩
    | @loop head close _ _ hf _ he _ ihbody ih =>
        obtain ⟨body, rfl⟩ := ihbody
        obtain ⟨bs, rfl⟩ := ih
        refine ⟨.loop head hf body close he :: bs, ?_⟩
        simp [Block.linesOf, Block.lines]
  · rintro ⟨bs, rfl⟩
    exact Block.balanced_linesOf bs

/-! ## Pairs -/

theorem between_split (pre : List Line) (head : Line) (body rest : List Line) :
    between (pre ++ head :: (body ++ rest)) pre.length (pre.length + 1 + body.length) = body := by
  rw [between, Nat.add_sub_cancel_left, ← List.drop_drop, List.drop_left, List.drop_one,
    List.tail_cons, List.take_left]

namespace Pairs

variable {ls : List Line} {i e : Nat}

theorem of_split {head close : Line} {body : List Line} (pre post : List Line)
    (hf : head.isForeach = true) (hbody : Balanced body) (he : close.isEnd = true) :
    Pairs (pre ++ head :: (body ++ close :: post)) pre.length (pre.length + 1 + body.length) where
  lt := by omega
  opens := hasAt_length hf ..
  closes := by
    have hclose := hasAt_length he (pre ++ head :: body) post
    rw [List.append_assoc, List.cons_append, List.length_append, List.length_cons] at hclose
    rwa [Nat.add_assoc, Nat.add_comm 1]
  balanced := by rwa [between_split]

/-- A pair cuts the lines into those before it, its body, and those behind it. -/
theorem exists_split (h : Pairs ls i e) : ∃ pre head body close post,
    ls = pre ++ head :: (body ++ close :: post) ∧ pre.length = i ∧
      pre.length + 1 + body.length = e ∧
      head.isForeach = true ∧ Balanced body ∧ close.isEnd = true := by
  obtain ⟨pre, head, tail, rfl, rfl, hf⟩ := exists_split_of_hasAt h.opens
  have hlt := h.lt
  -- the end stands behind the head
  have htail : HasAt Line.isEnd tail (e - (pre.length + 1)) := by
    rcases hasAt_append_iff.mp h.closes with hpre | ⟨k, rfl, hk⟩
    · have := hpre.lt
      omega
    · rcases hasAt_cons_iff.mp hk with ⟨rfl, -⟩ | ⟨k, rfl, hk⟩
      · omega
      · rwa [show pre.length + (k + 1) - (pre.length + 1) = k by omega]
  obtain ⟨body, close, post, rfl, hlength, he⟩ := exists_split_of_hasAt htail
  obtain rfl : pre.length + 1 + body.length = e := by omega
  have hbody := h.balanced
  rw [between_split] at hbody
  exact ⟨pre, head, body, close, post, rfl, rfl, rfl, hf, hbody, he⟩

theorem append_right (h : Pairs ls i e) (post : List Line) : Pairs (ls ++ post) i e := by
  obtain ⟨pre, head, body, close, post', rfl, rfl, rfl, hf, hbody, he⟩ := h.exists_split
  have := of_split pre (post' ++ post) hf hbody he
  simpa using this

theorem append_left (h : Pairs ls i e) (pre : List Line) :
    Pairs (pre ++ ls) (pre.length + i) (pre.length + e) := by
  obtain ⟨pre', head, body, close, post, rfl, rfl, rfl, hf, hbody, he⟩ := h.exists_split
  have := of_split (pre ++ pre') post hf hbody he
  rw [List.append_assoc, List.length_append] at this
  rwa [Nat.add_assoc pre.length, Nat.add_assoc pre.length] at this

theorem cons (h : Pairs ls i e) (l : Line) : Pairs (l :: ls) (i + 1) (e + 1) := by
  have := h.append_left [l]
  rwa [List.length_singleton, Nat.add_comm 1, Nat.add_comm 1] at this

/-- **Counting brackets from a `foreach` ends at the other half of its pair.** -/
theorem matchingEnd_eq (h : Pairs ls i e) : matchingEnd ls i = .ok e := by
  obtain ⟨pre, head, body, close, post, rfl, rfl, rfl, hf, hbody, he⟩ := h.exists_split
  obtain ⟨body, rfl⟩ := balanced_iff.mp hbody
  rw [matchingEnd_eq_map List.drop_left, Block.matchingEnd_loop hf he body post, Except.map]
  exact congrArg Except.ok (by omega)

end Pairs

/-! ## Brackets in pairs -/

/-- Whether a line is a bracket. -/
def isBracket (l : Line) : Bool := l.isForeach || l.isEnd

/-- The line at the position is one half of a pair. -/
def Paired (ls : List Line) (j : Nat) : Prop := ∃ k, Pairs ls j k ∨ Pairs ls k j

namespace Paired

variable {ls : List Line} {j : Nat}

theorem append_right (h : Paired ls j) (post : List Line) : Paired (ls ++ post) j :=
  h.imp fun _ => Or.imp (·.append_right post) (·.append_right post)

theorem append_left (h : Paired ls j) (pre : List Line) : Paired (pre ++ ls) (pre.length + j) := by
  obtain ⟨k, h⟩ := h
  exact ⟨pre.length + k, h.imp (·.append_left pre) (·.append_left pre)⟩

theorem cons (h : Paired ls j) (l : Line) : Paired (l :: ls) (j + 1) := by
  obtain ⟨k, h⟩ := h
  exact ⟨k + 1, h.imp (·.cons l) (·.cons l)⟩

theorem exists_end (h : Paired ls j) (hj : HasAt Line.isForeach ls j) : ∃ e, Pairs ls j e := by
  obtain ⟨k, h | h⟩ := h
  · exact ⟨k, h⟩
  · exact absurd hj h.closes.not_foreach

theorem exists_foreach (h : Paired ls j) (hj : HasAt Line.isEnd ls j) : ∃ i, Pairs ls i j := by
  obtain ⟨k, h | h⟩ := h
  · exact absurd h.opens hj.not_foreach
  · exact ⟨k, h⟩

end Paired

/-- **Every bracket of balanced lines is in a pair.** -/
theorem Balanced.paired {ls : List Line} (h : Balanced ls) {j : Nat} (hj : HasAt isBracket ls j) :
    Paired ls j := by
  induction h generalizing j with
  | nil => exact absurd hj.lt (Nat.not_lt_zero _)
  | plain hf he _ ih =>
      rcases hasAt_cons_iff.mp hj with ⟨-, hbracket⟩ | ⟨k, rfl, hk⟩
      · simp [isBracket, hf, he] at hbracket
      · exact (ih hk).cons _
  | @loop head close body rest hf hbody he _ ihbody ih =>
      have hpair : Pairs (head :: (body ++ close :: rest)) 0 (body.length + 1) := by
        have := Pairs.of_split [] rest hf hbody he
        rwa [List.length_nil, Nat.zero_add, Nat.add_comm 1] at this
      rcases hasAt_cons_iff.mp hj with ⟨rfl, -⟩ | ⟨k, rfl, hk⟩
      · exact ⟨_, .inl hpair⟩
      · rcases hasAt_append_iff.mp hk with hk | ⟨m, rfl, hm⟩
        · exact ((ihbody hk).append_right _).cons _
        · rcases hasAt_cons_iff.mp hm with ⟨rfl, -⟩ | ⟨n, rfl, hn⟩
          · exact ⟨0, .inr hpair⟩
          · exact (((ih hn).cons close).append_left body).cons head

theorem HasAt.bracket_of_foreach {ls : List Line} {i : Nat} (h : HasAt Line.isForeach ls i) :
    HasAt isBracket ls i :=
  h.imp fun _ hl => ⟨hl.1, by simp [isBracket, hl.2]⟩

theorem HasAt.bracket_of_end {ls : List Line} {e : Nat} (h : HasAt Line.isEnd ls e) :
    HasAt isBracket ls e :=
  h.imp fun _ hl => ⟨hl.1, by simp [isBracket, hl.2]⟩

namespace Pairs

variable {ls : List Line} {i e i' e' : Nat}

/-- A loop has one end. -/
theorem end_unique (h : Pairs ls i e) (h' : Pairs ls i e') : e = e' :=
  Except.ok.inj (h.matchingEnd_eq.symm.trans h'.matchingEnd_eq)

/-- The lines from behind a `foreach` on are its body and what follows. -/
theorem of_between {k m : Nat} (h : Pairs ls i e) (hk : Pairs (between ls i e) k m) :
    Pairs ls (i + 1 + k) (i + 1 + m) := by
  obtain ⟨pre, head, body, close, post, rfl, rfl, rfl, -⟩ := h.exists_split
  rw [between_split] at hk
  have := (hk.append_right (close :: post)).append_left (pre ++ [head])
  simpa using this

/-- The line at a position of a body. -/
theorem getElem?_between (h : Pairs ls i e) {k : Nat} (hk : k < (between ls i e).length) :
    (between ls i e)[k]? = ls[i + 1 + k]? := by
  obtain ⟨pre, head, body, close, post, rfl, rfl, rfl, -⟩ := h.exists_split
  rw [between_split] at hk ⊢
  rw [List.getElem?_append_right (by omega), show pre.length + 1 + k - pre.length = k + 1 by omega,
    List.getElem?_cons_succ, List.getElem?_append_left hk]

theorem length_between (h : Pairs ls i e) : i + 1 + (between ls i e).length = e := by
  obtain ⟨pre, head, body, close, post, rfl, rfl, rfl, -⟩ := h.exists_split
  rw [between_split]

/-- **No two pairs overlap**: the later one stands inside the other or behind it. -/
theorem nested_or_apart (h : Pairs ls i e) (h' : Pairs ls i' e') (hlt : i < i') :
    e' < e ∨ e < i' := by
  by_cases hin : i' < e
  · -- a `foreach` in the body has its end in the body
    have hlength := h.length_between
    obtain ⟨k, rfl⟩ : ∃ k, i' = i + 1 + k := ⟨i' - (i + 1), by omega⟩
    have hk : k < (between ls i e).length := by omega
    have hopens : HasAt Line.isForeach (between ls i e) k := by
      obtain ⟨l, hl, hf⟩ := h'.opens
      exact ⟨l, (h.getElem?_between hk).trans hl, hf⟩
    obtain ⟨m, hm⟩ := (h.balanced.paired hopens.bracket_of_foreach).exists_end hopens
    have hm' := h'.end_unique (h.of_between hm)
    have := hm.closes.lt
    exact .inl (by omega)
  · -- the two lines are of different kinds
    have hne : e ≠ i' := by
      rintro rfl
      exact h.closes.not_foreach h'.opens
    exact .inr (by omega)

/-- An end closes one loop. -/
theorem foreach_unique (h : Pairs ls i e) (h' : Pairs ls i' e) : i = i' := by
  have hlt := h.lt
  have hlt' := h'.lt
  rcases Nat.lt_trichotomy i i' with hi | hi | hi
  · rcases h.nested_or_apart h' hi with hcase | hcase <;> omega
  · exact hi
  · rcases h'.nested_or_apart h hi with hcase | hcase <;> omega

end Pairs

/-! ## The scan of a body -/

/-- An `end` is found to close what is open where it stands. -/
theorem matchingEnd_of_isEnd {ls : List Line} {i : Nat} {l : Line} (hl : ls[i]? = some l)
    (he : l.isEnd = true) : matchingEnd ls i = .ok i := by
  obtain ⟨hi, rfl⟩ := List.getElem?_eq_some_iff.mp hl
  have hf := Line.not_isForeach_of_isEnd he
  rw [matchingEnd, List.drop_eq_getElem_cons hi]
  simp [scanEnd, hf, he]

/-- Behind a line that is no bracket, there is no end to find. -/
theorem matchingEnd_of_plain {ls : List Line} {i : Nat} {l : Line} (hl : ls[i]? = some l)
    (hf : l.isForeach = false) (he : l.isEnd = false) :
    matchingEnd ls i = .error (grammar l.number .unclosedForeach) := by
  obtain ⟨hi, rfl⟩ := List.getElem?_eq_some_iff.mp hl
  rw [matchingEnd_eq_map (List.drop_eq_getElem_cons hi), Block.matchingEnd_command ⟨hf, he⟩]
  rfl

/-- **A body on its own is scanned as it is in its place**, from every line of it. -/
theorem Pairs.matchingEnd_between {ls : List Line} {i e k : Nat} (h : Pairs ls i e)
    (hk : k < (between ls i e).length) :
    matchingEnd ls (i + 1 + k) = (matchingEnd (between ls i e) k).map (· + (i + 1)) := by
  have hl : (between ls i e)[k]? = some (between ls i e)[k] := List.getElem?_eq_getElem hk
  have hl' := (h.getElem?_between hk).symm.trans hl
  cases hf : (between ls i e)[k].isForeach with
  | true =>
      have hopens : HasAt Line.isForeach (between ls i e) k := ⟨_, hl, hf⟩
      obtain ⟨m, hm⟩ := (h.balanced.paired hopens.bracket_of_foreach).exists_end hopens
      rw [(h.of_between hm).matchingEnd_eq, hm.matchingEnd_eq, Except.map, Nat.add_comm m]
  | false =>
      cases he : (between ls i e)[k].isEnd with
      | true =>
          rw [matchingEnd_of_isEnd hl he, matchingEnd_of_isEnd hl' he, Except.map, Nat.add_comm k]
      | false =>
          rw [matchingEnd_of_plain hl hf he, matchingEnd_of_plain hl' hf he]
          rfl

/-! ## Lines that are refused -/

namespace Block

/-- Where reading blocks stops: at an `end` behind whole blocks, or with a loop left open. -/
theorem read_eq_error {opened : List Opened} {done : List Block} {ls : List Line} {error : Error}
    (h : read opened done ls = .error error) :
    (∃ bs l rest, Opened.linesOf opened ++ (linesOf done ++ ls) = linesOf bs ++ l :: rest ∧
        l.isEnd = true ∧ error = grammar l.number .unopenedEnd) ∨
      ∃ outer, ∃ o : Opened, ∃ bs, Opened.linesOf opened ++ (linesOf done ++ ls) =
          Opened.linesOf outer ++ (linesOf o.before ++ o.head :: linesOf bs) ∧
        error = grammar o.head.number .unclosedForeach := by
  -- the stack, the blocks of the innermost loop and the lines left are the same lines throughout
  fun_induction read opened done ls generalizing error with
  | case1 => cases h
  | case2 done o outer =>
      cases h
      exact .inr ⟨outer, o, done, by simp [Opened.linesOf], rfl⟩
  | case3 opened done l rest hf ih =>
      have := ih h
      simpa [Opened.linesOf, linesOf] using this
  | case4 done l rest hf he =>
      cases h
      exact .inl ⟨done, l, rest, by simp [Opened.linesOf], he, rfl⟩
  | case5 done l rest hf he o opened ih =>
      have := ih h
      simpa [Opened.linesOf, linesOf, linesOf_append, lines] using this
  | case6 opened done l rest hf he ih =>
      have := ih h
      simpa [linesOf, linesOf_append, lines] using this

end Block

/-- Every `end` closes a loop. -/
def EndsClosed (ls : List Line) : Prop := ∀ e, HasAt Line.isEnd ls e → ∃ i, Pairs ls i e

theorem Balanced.endsClosed {ls : List Line} (h : Balanced ls) : EndsClosed ls :=
  fun _ he => (h.paired he.bracket_of_end).exists_foreach he

theorem EndsClosed.append {as bs : List Line} (ha : EndsClosed as) (hb : EndsClosed bs) :
    EndsClosed (as ++ bs) := by
  intro e he
  rcases hasAt_append_iff.mp he with he | ⟨k, rfl, hk⟩
  · obtain ⟨i, hi⟩ := ha e he
    exact ⟨i, hi.append_right bs⟩
  · obtain ⟨i, hi⟩ := hb k hk
    exact ⟨as.length + i, hi.append_left as⟩

theorem EndsClosed.cons_foreach {l : Line} {ls : List Line} (hl : l.isForeach = true)
    (h : EndsClosed ls) : EndsClosed (l :: ls) := by
  intro e he
  rcases hasAt_cons_iff.mp he with ⟨-, hend⟩ | ⟨k, rfl, hk⟩
  · rw [Line.not_isForeach_of_isEnd hend] at hl
    cases hl
  · obtain ⟨i, hi⟩ := h k hk
    exact ⟨i + 1, hi.cons l⟩

theorem Opened.endsClosed (opened : List Opened) : EndsClosed (Opened.linesOf opened) := by
  induction opened with
  | nil => exact Balanced.nil.endsClosed
  | cons o outer ih =>
      have hbefore := (Block.balanced_linesOf o.before).endsClosed
      exact ih.append (hbefore.append (.cons_foreach o.opens Balanced.nil.endsClosed))

/-- An `end` behind balanced lines closes nothing. -/
theorem Balanced.not_pairs_length {as : List Line} (h : Balanced as) (bs : List Line) (i : Nat) :
    ¬ Pairs (as ++ bs) i as.length := by
  intro hi
  -- its `foreach` would stand in the balanced lines, where it has an end already
  have hopens : HasAt Line.isForeach as i := by
    rcases hasAt_append_iff.mp hi.opens with hopens | ⟨k, rfl, -⟩
    · exact hopens
    · have := hi.lt
      omega
  obtain ⟨e, he⟩ := (h.paired hopens.bracket_of_foreach).exists_end hopens
  have hlt := he.closes.lt
  have := (he.append_right bs).end_unique hi
  omega

/-- A `foreach` before lines whose ends are closed is closed by none of them. -/
theorem EndsClosed.not_pairs_length {head : Line} {bs : List Line} (h : EndsClosed bs)
    (as : List Line) (e : Nat) : ¬ Pairs (as ++ head :: bs) as.length e := by
  intro he
  have hlt := he.lt
  have hcloses : ∃ k, e = as.length + (k + 1) ∧ HasAt Line.isEnd bs k := by
    rcases hasAt_append_iff.mp he.closes with hcloses | ⟨k, rfl, hk⟩
    · have := hcloses.lt
      omega
    · rcases hasAt_cons_iff.mp hk with ⟨rfl, -⟩ | ⟨k, rfl, hk⟩
      · omega
      · exact ⟨k, rfl, hk⟩
  obtain ⟨k, rfl, hk⟩ := hcloses
  obtain ⟨i, hi⟩ := h k hk
  have := ((hi.cons head).append_left as).foreach_unique he
  omega

/-! ## What is accepted -/

/-- The first word is a keyword, or may become one when macros are expanded. -/
def Admits (l : Line) : Prop :=
  l.keyword ∈ Command.keywords ∨ ['$', '\x7b'] <:+: l.keyword.toList

theorem isAdmitted_iff {l : Line} : l.isAdmitted = true ↔ Admits l := by
  rw [Line.isAdmitted, Bool.or_eq_true, List.contains_iff_mem, Line.hasMacro, Text.contains_iff]
  rfl

/-- A fault for which lines are refused. -/
inductive Fault (ls : List Line) : Error → Prop where
  | unknown {l : Line} : l ∈ ls → ¬ Admits l →
      Fault ls (grammar l.number (.unknownCommand l.keyword))
  /-- the first `end` that closes no loop -/
  | unopened {e : Nat} {l : Line} : ls[e]? = some l → l.isEnd = true → (∀ i, ¬ Pairs ls i e) →
      (∀ e' < e, HasAt Line.isEnd ls e' → ∃ i, Pairs ls i e') →
      Fault ls (grammar l.number .unopenedEnd)
  /-- a loop that no `end` closes, where every `end` closes a loop -/
  | unclosed {i : Nat} {l : Line} : ls[i]? = some l → l.isForeach = true →
      (∀ e, ¬ Pairs ls i e) → EndsClosed ls →
      Fault ls (grammar l.number .unclosedForeach)

theorem fault_of_checkKeywords {ls : List Line} {error : Error}
    (h : checkKeywords ls = .error error) : Fault ls error := by
  have hexists : ∃ l ∈ ls, l.isAdmitted = false ∧
      error = grammar l.number (.unknownCommand l.keyword) := by
    induction ls with
    | nil => cases h
    | cons l ls ih =>
        rw [checkKeywords] at h
        split at h
        · obtain ⟨l', hl', hrest⟩ := ih h
          exact ⟨l', List.mem_cons_of_mem _ hl', hrest⟩
        · rename_i hl
          cases h
          exact ⟨l, List.mem_cons_self .., eq_false_of_ne_true hl, rfl⟩
  obtain ⟨l, hl, hadmitted, rfl⟩ := hexists
  refine .unknown hl fun hadmits => ?_
  rw [isAdmitted_iff.mpr hadmits] at hadmitted
  cases hadmitted

theorem fault_of_checkBalance {ls : List Line} {error : Error}
    (h : checkBalance [] ls = .error error) : Fault ls error := by
  have hread : Block.read [] [] ls = .error error := by
    have hmap := Block.map_read [] [] ls
    rw [List.map_nil, h] at hmap
    cases hread : Block.read [] [] ls with
    | ok bs => rw [hread] at hmap; cases hmap
    | error _ => rw [hread] at hmap; cases hmap; rfl
  rcases Block.read_eq_error hread with ⟨bs, l, rest, hls, hl, rfl⟩ | ⟨outer, o, bs, hls, rfl⟩
  · obtain rfl : ls = Block.linesOf bs ++ l :: rest := by
      simpa [Opened.linesOf, Block.linesOf] using hls
    have hbalanced := Block.balanced_linesOf bs
    refine .unopened (by simp) hl (hbalanced.not_pairs_length _) fun e he hend => ?_
    have hend' : HasAt Line.isEnd (Block.linesOf bs) e := by
      rcases hasAt_append_iff.mp hend with hend | ⟨k, rfl, -⟩
      · exact hend
      · omega
    obtain ⟨i, hi⟩ := hbalanced.endsClosed e hend'
    exact ⟨i, hi.append_right _⟩
  · -- the loops around the one left open hold whole blocks too, so their ends are closed
    have hclosed := (Block.balanced_linesOf bs).endsClosed
    have hbefore := (Opened.endsClosed outer).append (Block.balanced_linesOf o.before).endsClosed
    obtain rfl : ls = (Opened.linesOf outer ++ Block.linesOf o.before) ++
        o.head :: Block.linesOf bs := by
      simpa [Opened.linesOf, Block.linesOf] using hls
    exact .unclosed (by simp) o.opens (hclosed.not_pairs_length _)
      (hbefore.append (.cons_foreach o.opens hclosed))

/-- The number of a line tells which line it is. -/
theorem pairwise_number_linesOf (text : String) :
    (linesOf text).Pairwise fun l l' => l.number < l'.number := by
  have hnumbered : ∀ (texts : List String) (n : Nat),
      (numbered n texts).Pairwise (fun l l' => l.number < l'.number) ∧
        ∀ l ∈ numbered n texts, n ≤ l.number := by
    intro texts
    induction texts with
    | nil => simp [numbered]
    | cons text texts ih =>
        intro n
        obtain ⟨hpairs, hle⟩ := ih (n + 1)
        refine ⟨List.pairwise_cons.mpr ⟨fun l hl => hle l hl, hpairs⟩, fun l hl => ?_⟩
        rcases List.mem_cons.mp hl with rfl | hl
        · exact Nat.le_refl n
        · exact Nat.le_of_succ_le (hle l hl)
  exact (hnumbered _ 1).1.filter _

/-- A text is refused for a fault of its lines. -/
theorem fault_of_parse {text : String} {error : Error} (h : parse text = .error error) :
    Fault (linesOf text) error := by
  unfold parse at h
  dsimp only at h
  cases hkeywords : checkKeywords (linesOf text) with
  | error e =>
      rw [hkeywords] at h
      cases h
      exact fault_of_checkKeywords hkeywords
  | ok _ =>
      cases hbalance : checkBalance [] (linesOf text) with
      | error e =>
          rw [hkeywords, hbalance] at h
          cases h
          exact fault_of_checkBalance hbalance
      | ok _ =>
          rw [hkeywords, hbalance] at h
          cases h

theorem checkBalance_eq_ok_iff_balanced {ls : List Line} :
    checkBalance [] ls = .ok () ↔ Balanced ls :=
  Block.checkBalance_eq_ok_iff.trans balanced_iff.symm

/-- Every loop is found to end where it does, from the lines around it and from those of a body. -/
structure LoopsClosed (ls : List Line) : Prop where
  /-- the end of a loop is behind it, and what is between them is balanced -/
  found : ∀ i, HasAt Line.isForeach ls i → ∃ e, matchingEnd ls i = .ok e ∧ Pairs ls i e
  /-- no two loops end at one line, and one of them stands inside the other or behind it -/
  apart : ∀ i i' e e', HasAt Line.isForeach ls i → HasAt Line.isForeach ls i' → i < i' →
    matchingEnd ls i = .ok e → matchingEnd ls i' = .ok e' → e ≠ e' ∧ (e' < e ∨ e < i')
  /-- the same ends are found in a body on its own, counted from its first line -/
  inside : ∀ i e, HasAt Line.isForeach ls i → matchingEnd ls i = .ok e →
    ∀ k < (between ls i e).length,
      matchingEnd ls (i + 1 + k) = (matchingEnd (between ls i e) k).map (· + (i + 1))

/-- What is found from a `foreach` is the end of its pair. -/
theorem Balanced.pairs_of_matchingEnd {ls : List Line} (h : Balanced ls) {i e : Nat}
    (hi : HasAt Line.isForeach ls i) (he : matchingEnd ls i = .ok e) : Pairs ls i e := by
  obtain ⟨e', hpair⟩ := (h.paired hi.bracket_of_foreach).exists_end hi
  obtain rfl := Except.ok.inj (he.symm.trans hpair.matchingEnd_eq)
  exact hpair

theorem Balanced.loopsClosed {ls : List Line} (h : Balanced ls) : LoopsClosed ls where
  found i hi := by
    obtain ⟨e, hpair⟩ := (h.paired hi.bracket_of_foreach).exists_end hi
    exact ⟨e, hpair.matchingEnd_eq, hpair⟩
  apart i i' e e' hi hi' hlt he he' := by
    have hpair := h.pairs_of_matchingEnd hi he
    have hpair' := h.pairs_of_matchingEnd hi' he'
    refine ⟨?_, hpair.nested_or_apart hpair' hlt⟩
    rintro rfl
    have := hpair.foreach_unique hpair'
    omega
  inside _ _ hi he _ hk := (h.pairs_of_matchingEnd hi he).matchingEnd_between hk

/-- A text is accepted exactly if its first words are admitted and its brackets are balanced. -/
theorem exists_parse_iff {text : String} : (∃ script, parse text = .ok script) ↔
    (∀ l ∈ linesOf text, Admits l) ∧ Balanced (linesOf text) := by
  have hadmits : checkKeywords (linesOf text) = .ok () ↔ ∀ l ∈ linesOf text, Admits l := by
    rw [checkKeywords_eq_ok_iff]
    exact forall₂_congr fun l _ => isAdmitted_iff
  rw [← hadmits, ← checkBalance_eq_ok_iff_balanced]
  constructor
  · rintro ⟨script, hscript⟩
    obtain ⟨hlines, hchecks⟩ := parse_eq_ok_iff.mp hscript
    rw [hlines] at hchecks
    exact hchecks
  · intro hchecks
    exact ⟨⟨linesOf text⟩, parse_eq_ok_iff.mpr ⟨rfl, hchecks⟩⟩

/--
**The check of a script and the search for the end of a loop agree.** A text is accepted exactly if
its first words are admitted and its brackets balanced, and the line that it is refused for is told
by its number. In a script that is accepted every loop is found to end at its pair, and no two loops
end at one line or overlap. The body of a loop on its own is searched with the same outcome, counted
from its first line.
-/
theorem parse_agrees_with_matchingEnd (text : String) :
    let ls := linesOf text
    ((∃ script, parse text = .ok script) ↔ (∀ l ∈ ls, Admits l) ∧ Balanced ls) ∧
      (∀ error, parse text = .error error → Fault ls error) ∧
      (ls.Pairwise fun l l' => l.number < l'.number) ∧
      ∀ script, parse text = .ok script → script.lines = ls ∧ LoopsClosed script.lines := by
  intro ls
  refine ⟨exists_parse_iff, fun _ => fault_of_parse, pairwise_number_linesOf text,
    fun script hscript => ?_⟩
  obtain ⟨hlines, -, hbalance⟩ := parse_eq_ok_iff.mp hscript
  exact ⟨hlines, (checkBalance_eq_ok_iff_balanced.mp hbalance).loopsClosed⟩

example :
    let text := "foreach a\n  # of b\n  foreach b more words\n    print\n  end\n\nend\n"
    (parse text).toOption.map (fun script =>
      (List.range script.lines.length).map fun i => (matchingEnd script.lines i).toOption) =
        some [some 4, some 3, none, some 3, some 4] := by
  decide +kernel

end Script

end TreeEdit
