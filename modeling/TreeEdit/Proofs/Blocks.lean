import TreeEdit.Script.Basic

/-!
# Scripts as trees

The lines of a script that is accepted are the leaves and brackets of trees: a line on its own is a
leaf, and a loop is its `foreach`, the blocks of its body, and its `end`. Which lines are brackets
is part of a block, so a list of blocks is balanced by its type.

`Block.ofLines` reads lines with a stack, one entry for every loop that is open. It fails where
`checkBalance` fails and in the same way, and where it succeeds it gives the only blocks with these
lines. Counting brackets, which is how a run finds the end of a loop, goes over whole blocks: it
comes out of every block as deep as it went in.
-/

namespace TreeEdit

/-- No line is a bracket of both kinds. -/
theorem Line.not_isForeach_of_isEnd {l : Line} (h : l.isEnd = true) : l.isForeach = false := by
  simp_all [isEnd, isForeach]

namespace Script

/-- A text is accepted if its lines pass both checks. -/
theorem parse_eq_ok_iff {text : String} {script : Script} :
    parse text = .ok script ↔ script.lines = linesOf text ∧
      checkKeywords script.lines = .ok () ∧ checkBalance [] script.lines = .ok () := by
  constructor
  · intro h
    unfold parse at h
    dsimp only at h
    cases hkeywords : checkKeywords (linesOf text) with
    | error e => rw [hkeywords] at h; cases h
    | ok _ =>
        cases hbalance : checkBalance [] (linesOf text) with
        | error e => rw [hkeywords, hbalance] at h; cases h
        | ok _ =>
            rw [hkeywords, hbalance] at h
            cases h
            exact ⟨rfl, hkeywords, hbalance⟩
  · obtain ⟨lines⟩ := script
    rintro ⟨hlines, hkeywords, hbalance⟩
    dsimp only at hlines hkeywords hbalance
    subst hlines
    unfold parse
    dsimp only
    rw [hkeywords, hbalance]
    rfl

/-- Lines pass the check of their keywords if these are admitted. -/
theorem checkKeywords_eq_ok_iff {ls : List Line} :
    checkKeywords ls = .ok () ↔ ∀ l ∈ ls, l.isAdmitted = true := by
  induction ls with
  | nil => simp [checkKeywords]
  | cons l ls ih =>
      unfold checkKeywords
      split <;> simp_all

/-- A line that is no bracket, or a loop with its body. -/
inductive Block where
  | command (line : Line) (plain : line.isForeach = false ∧ line.isEnd = false)
  | loop (head : Line) (opens : head.isForeach = true) (body : List Block)
      (close : Line) (closes : close.isEnd = true)

namespace Block

mutual

/-- The lines of a block. -/
def lines : Block → List Line
  | command line _ => [line]
  | loop head _ body close _ => head :: (linesOf body ++ [close])

/-- The lines of several blocks. -/
def linesOf : List Block → List Line
  | [] => []
  | b :: bs => b.lines ++ linesOf bs

end

theorem linesOf_append (bs cs : List Block) : linesOf (bs ++ cs) = linesOf bs ++ linesOf cs := by
  induction bs with
  | nil => rfl
  | cons b bs ih => simp only [List.cons_append, linesOf, ih, List.append_assoc]

end Block

/-! ## Reading blocks -/

/-- A loop that has been opened, with the blocks before it in the loop around it. -/
structure Opened where
  before : List Block
  head : Line
  opens : head.isForeach = true

namespace Opened

/-- The lines up to the innermost open loop, which stands first. -/
def linesOf : List Opened → List Line
  | [] => []
  | o :: outer => linesOf outer ++ (Block.linesOf o.before ++ [o.head])

end Opened

namespace Block

/-- Reads blocks, `opened` being the loops that are open and `done` the blocks of the innermost. -/
def read (opened : List Opened) (done : List Block) : List Line → Except Error (List Block)
  | [] =>
    match opened with
    | [] => .ok done
    | o :: _ => .error (grammar o.head.number .unclosedForeach)
  | l :: rest =>
    if hf : l.isForeach = true then read (⟨done, l, hf⟩ :: opened) [] rest
    else if he : l.isEnd = true then
      match opened with
      | [] => .error (grammar l.number .unopenedEnd)
      | o :: opened => read opened (o.before ++ [loop o.head o.opens done l he]) rest
    else read opened (done ++ [command l ⟨eq_false_of_ne_true hf, eq_false_of_ne_true he⟩]) rest

/-- The blocks of the lines of a script. -/
def ofLines (ls : List Line) : Except Error (List Block) := read [] [] ls

/-- Lines are read as blocks if they are balanced, and refused for the same fault if not. -/
theorem map_read (opened : List Opened) (done : List Block) (ls : List Line) :
    (read opened done ls).map (fun _ => ()) =
      checkBalance (opened.map (·.head.number)) ls := by
  -- both keep a stack and push and pop at the same lines; `read` keeps more in an entry
  fun_induction read opened done ls with
  | case1 => rfl
  | case2 => rfl
  | case3 opened done l rest hf ih => simp [checkBalance, hf, ih]
  | case4 done l rest hf he => simp [checkBalance, hf, he, Except.map]
  | case5 done l rest hf he o opened ih => simp [checkBalance, hf, he, ← ih]
  | case6 opened done l rest hf he ih => simp [checkBalance, hf, he, ← ih]

/-- The blocks that were read have the lines that they were read from. -/
theorem linesOf_read {opened : List Opened} {done : List Block} {ls : List Line} {bs : List Block}
    (h : read opened done ls = .ok bs) :
    linesOf bs = Opened.linesOf opened ++ (linesOf done ++ ls) := by
  fun_induction read opened done ls generalizing bs with
  | case1 done => cases h; simp [Opened.linesOf]
  | case2 => cases h
  | case3 opened done l rest hf ih => simp [ih h, Opened.linesOf, linesOf]
  | case4 done l rest hf he => cases h
  | case5 done l rest hf he o opened ih =>
      simp [ih h, Opened.linesOf, linesOf, linesOf_append, lines]
  | case6 opened done l rest hf he ih => simp [ih h, linesOf, linesOf_append, lines]

mutual

/-- A block is read as itself. -/
theorem read_lines_append (opened : List Opened) (done : List Block) (rest : List Line) :
    (b : Block) → read opened done (b.lines ++ rest) = read opened (done ++ [b]) rest
  | command line plain => by
      simp [lines, read, plain.1, plain.2]
  | loop head opens body close closes => by
      have hf := Line.not_isForeach_of_isEnd closes
      simp [lines, read, opens, read_linesOf_append, hf, closes]

/-- Blocks are read as themselves. -/
theorem read_linesOf_append (opened : List Opened) (done : List Block) (rest : List Line) :
    (bs : List Block) → read opened done (linesOf bs ++ rest) = read opened (done ++ bs) rest
  | [] => by simp [linesOf]
  | b :: bs => by
      rw [linesOf, List.append_assoc, read_lines_append opened done _ b,
        read_linesOf_append opened _ rest bs, List.append_assoc, List.singleton_append]

end

/-- **Reading lines as blocks** undoes writing blocks as lines. -/
theorem ofLines_eq_ok_iff {ls : List Line} {bs : List Block} :
    ofLines ls = .ok bs ↔ linesOf bs = ls := by
  constructor
  · intro h
    simpa [Opened.linesOf, linesOf] using linesOf_read h
  · rintro rfl
    have h := read_linesOf_append [] [] [] bs
    simpa [ofLines, read] using h

/-- Lines are balanced if they are those of blocks, and only then. -/
theorem checkBalance_eq_ok_iff {ls : List Line} :
    checkBalance [] ls = .ok () ↔ ∃ bs, linesOf bs = ls := by
  have hmap := map_read [] [] ls
  rw [List.map_nil] at hmap
  rw [← hmap]
  constructor
  · intro h
    cases hread : read [] [] ls with
    | error e => rw [hread] at h; cases h
    | ok bs => exact ⟨bs, ofLines_eq_ok_iff.mp hread⟩
  · rintro ⟨bs, hbs⟩
    have hread : read [] [] ls = .ok bs := ofLines_eq_ok_iff.mpr hbs
    rw [hread]
    rfl

end Block

/-! ## Finding the end of a loop -/

/-- Counting brackets from further down finds the same line further down. -/
theorem scanEnd_add (depth i k : Nat) (ls : List Line) :
    scanEnd depth (i + k) ls = (scanEnd depth i ls).map (· + k) := by
  induction ls generalizing depth i with
  | nil => rfl
  | cons l ls ih =>
      have hnext : i + k + 1 = i + 1 + k := Nat.add_right_comm i k 1
      simp only [scanEnd, hnext, ih]
      split
      · rfl
      · split
        · split <;> rfl
        · split <;> rfl

/-- The end of a loop is found among all lines where it is found among those from the loop on. -/
theorem matchingEnd_eq_map {lines rest : List Line} {line : Line} {i : Nat}
    (h : lines.drop i = line :: rest) :
    matchingEnd lines i = (matchingEnd (line :: rest) 0).map (· + i) := by
  have hline : lines[i]? = some line := by
    rw [← List.head?_drop, h, List.head?_cons]
  have hscan := scanEnd_add 0 0 i (line :: rest)
  rw [Nat.zero_add] at hscan
  simp only [matchingEnd, h, hscan, hline, List.drop_zero, List.getElem?_cons_zero]
  cases scanEnd 0 0 (line :: rest) <;> rfl

namespace Block

mutual

/-- Counting brackets comes out of a block as deep as it went in. -/
theorem scanEnd_lines_append (depth i : Nat) (rest : List Line) :
    (b : Block) →
      scanEnd (depth + 1) i (b.lines ++ rest) = scanEnd (depth + 1) (i + b.lines.length) rest
  | command line plain => by simp [lines, scanEnd, plain.1, plain.2]
  | loop head opens body close closes => by
      have hf := Line.not_isForeach_of_isEnd closes
      have hlength : i + (loop head opens body close closes).lines.length =
          i + 1 + (linesOf body).length + 1 := by
        simp only [lines, List.length_cons, List.length_append, List.length_nil]
        omega
      rw [hlength]
      simp [lines, scanEnd, opens, scanEnd_linesOf_append, hf, closes]

/-- Counting brackets comes out of blocks as deep as it went in. -/
theorem scanEnd_linesOf_append (depth i : Nat) (rest : List Line) :
    (bs : List Block) →
      scanEnd (depth + 1) i (linesOf bs ++ rest) = scanEnd (depth + 1) (i + (linesOf bs).length) rest
  | [] => by simp [linesOf]
  | b :: bs => by
      rw [linesOf, List.append_assoc, scanEnd_lines_append depth i _ b,
        scanEnd_linesOf_append depth _ rest bs, List.length_append, Nat.add_assoc]

end

/-- The end of a loop stands right behind its body. -/
theorem matchingEnd_loop {head close : Line} (opens : head.isForeach = true)
    (closes : close.isEnd = true) (body : List Block) (rest : List Line) :
    matchingEnd (head :: (linesOf body ++ close :: rest)) 0 = .ok ((linesOf body).length + 1) := by
  have hf := Line.not_isForeach_of_isEnd closes
  simp [matchingEnd, scanEnd, opens, scanEnd_linesOf_append, hf, closes, Nat.add_comm]

/-- A line that is no bracket has no end. -/
theorem matchingEnd_command {line : Line} (plain : line.isForeach = false ∧ line.isEnd = false)
    (rest : List Line) :
    matchingEnd (line :: rest) 0 = .error (grammar line.number .unclosedForeach) := by
  simp [matchingEnd, scanEnd, plain.1, plain.2]

end Block

end Script

end TreeEdit
