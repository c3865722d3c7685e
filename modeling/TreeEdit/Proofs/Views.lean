import TreeEdit.Proofs.FallibleSteps
import TreeEdit.Proofs.InsertedEntries
import TreeEdit.Proofs.Reading

/-!
# Three views of one list of matches

Reading, listing and tables are made of the same matches. Reading gives their values and listing the
labels of their parents, so that the two succeed and fail alike. A table wants more of the values:
every one has to be a mapping with all the columns, or a sequence of such mappings
(`Table.sources`, `Table.Fits`). Then there is one row for each mapping, in the order in which they
were read, with the columns in the order of their first mention (`Table.IsRow`).

A row is made by insertions, one for each column asked for, and `Entries.keys_insertAll` and
`Entries.find?_insertAll` say what they come to.
-/

namespace TreeEdit

namespace Table

/-- The nodes of a match that are to make a row each: the items of a sequence, or the node. -/
def sources (t : Tree) : List Tree :=
  match t.untag with
  | .sequence items => items
  | _ => [t]

/-- The node is a mapping in which every column is a string key with a scalar as its value. -/
def Fits (columns : List String) (t : Tree) : Prop :=
  t.untag.kind = .mapping ∧
    ∀ column ∈ columns, ∃ v, Entries.find? (.string column) t.entries = some v ∧ v.isScalar = true

/-- The row has exactly the columns, in the order of their first mention, with the values that the
source has for them. -/
def IsRow (columns : List String) (source row : Tree) : Prop :=
  ∃ es : Entries, row = .mapping es ∧ es.keys = columns.eraseDups.map .string ∧
    ∀ column ∈ columns, ∃ v, Entries.find? (.string column) source.entries = some v ∧
      Entries.find? (.string column) es = some v

/-! ## One row -/

/-- The cells of a row as they are asked for. -/
def cells (columns : List String) (es : Entries) : Entries :=
  columns.map fun column => (.string column, (Entries.find? (.string column) es).getD .null)

/-- A row is made exactly if every column is there with a scalar as its value. -/
theorem rowFrom_eq_ok_iff {location : String} {es before after : Entries} {columns : List String} :
    rowFrom location es before columns = .ok after ↔
      (∀ column ∈ columns, ∃ v, Entries.find? (.string column) es = some v ∧ v.isScalar = true) ∧
        after = before.insertAll (cells columns es) := by
  induction columns generalizing before with
  | nil =>
      rw [rowFrom]
      exact ok_eq_ok_iff_of_nil
  | cons column columns ih =>
      rw [List.forall_mem_cons, rowFrom]
      cases hv : Entries.find? (.string column) es with
      | none =>
          constructor
          · intro h
            cases h
          · rintro ⟨⟨⟨v, h, -⟩, -⟩, -⟩
            cases h
      | some v =>
          have hcells : before.insertAll (cells (column :: columns) es) =
              (before.insert (.string column) v).insertAll (cells columns es) := by
            rw [cells, List.map_cons, hv]
            rfl
          dsimp only
          by_cases hscalar : v.isScalar = true
          · rw [if_pos hscalar, ih, hcells]
            constructor
            · intro h
              exact ⟨⟨⟨v, rfl, hscalar⟩, h.1⟩, h.2⟩
            · intro h
              exact ⟨h.1.2, h.2⟩
          · rw [if_neg hscalar]
            constructor
            · intro h
              cases h
            · rintro ⟨⟨⟨w, hw, hw'⟩, -⟩, -⟩
              rw [Option.some.inj hw] at hscalar
              exact absurd hw' hscalar

/-- The row of a mapping. -/
def rowOf (columns : List String) (source : Tree) : Tree :=
  .mapping (Entries.ofList (cells columns source.entries))

theorem row_eq_ok_iff {columns : List String} {location : String} {source row' : Tree}
    {es : Entries} (h : source.untag = .mapping es) :
    row columns location es = .ok row' ↔ Fits columns source ∧ row' = rowOf columns source := by
  have hentries : source.entries = es := Tree.entries_of_untag h
  have hkind : source.untag.kind = .mapping := by rw [h]; rfl
  rw [row, Fits, rowOf, hentries, map_eq_ok_iff]
  constructor
  · rintro ⟨after, hafter, rfl⟩
    obtain ⟨hcolumns, rfl⟩ := rowFrom_eq_ok_iff.mp hafter
    exact ⟨⟨hkind, hcolumns⟩, rfl⟩
  · rintro ⟨⟨-, hcolumns⟩, rfl⟩
    exact ⟨_, rowFrom_eq_ok_iff.mpr ⟨hcolumns, rfl⟩, rfl⟩

theorem eraseDupsBy_map {α β : Type} (r : β → β → Bool) (f : α → β) (as : List α) :
    (as.map f).eraseDupsBy r = (as.eraseDupsBy fun a b => r (f a) (f b)).map f := by
  induction hn : as.length using Nat.strongRecOn generalizing as with
  | ind n ih =>
    cases as with
    | nil => rfl
    | cons a as =>
        rw [List.map_cons, List.eraseDupsBy_cons, List.eraseDupsBy_cons, List.map_cons,
          List.filter_map]
        refine congrArg (f a :: ·) (ih _ ?_ _ rfl)
        rw [← hn]
        exact Nat.lt_succ_of_le (List.length_filter_le ..)

/-- Columns are the same keys only if they are equal. -/
theorem firstKeys_map_string (columns : List String) :
    Entries.firstKeys (columns.map .string) = columns.eraseDups.map .string := by
  rw [Entries.firstKeys, eraseDupsBy_map, List.eraseDups]
  congr 2
  funext a b
  rw [Bool.eq_iff_iff, decide_eq_true_iff, Tree.same_string_iff, beq_iff_eq, Tree.string.injEq,
    eq_comm]

theorem find?_cells {columns : List String} {column : String} (h : column ∈ columns)
    (es : Entries) : Entries.find? (.string column) (cells columns es) =
      some ((Entries.find? (.string column) es).getD .null) := by
  induction columns with
  | nil => cases h
  | cons first columns ih =>
      rw [cells, List.map_cons, ← cells, Entries.find?]
      by_cases hsame : (Tree.string column).Same (.string first)
      · rw [if_pos hsame, Tree.string.inj (Tree.same_string_iff.mp hsame)]
      · rw [if_neg hsame]
        rcases List.mem_cons.mp h with rfl | h
        · exact absurd (Tree.Same.refl _) hsame
        · exact ih h

theorem isRow_rowOf {columns : List String} {source : Tree} (h : Fits columns source) :
    IsRow columns source (rowOf columns source) := by
  refine ⟨_, rfl, ?_, fun column hcolumn => ?_⟩
  · have hkeys : Entries.keys (cells columns source.entries) = columns.map .string := by
      rw [Entries.keys, cells, List.map_map]
      rfl
    have hall : ∀ ks : List Tree, ks.filter (fun k => (Entries.find? k []).isNone) = ks :=
      fun ks => List.filter_eq_self.mpr fun _ _ => rfl
    rw [Entries.ofList, Entries.keys_insertAll, hall, hkeys, firstKeys_map_string]
    rfl
  · obtain ⟨v, hv, -⟩ := h.2 column hcolumn
    -- a column that is asked for again is given the same value again
    have hcells : (cells columns source.entries).reverse = cells columns.reverse source.entries :=
      List.map_reverse.symm
    refine ⟨v, hv, ?_⟩
    rw [Entries.ofList, Entries.find?_insertAll, hcells,
      find?_cells (List.mem_reverse.mpr hcolumn), hv]
    rfl

/-! ## The rows of matches -/

theorem Fits.exists_entries {columns : List String} {t : Tree} (h : Fits columns t) :
    ∃ es, t.untag = .mapping es := by
  have hkind := h.1
  cases hcore : t.untag with
  | mapping es => exact ⟨es, rfl⟩
  | null | bool _ | number _ | string _ | sequence _ | tagged _ _ =>
      rw [hcore] at hkind
      cases hkind

theorem itemRows_eq_ok_iff {columns : List String} {location : String} {i : Nat}
    {items rs : List Tree} : itemRows columns location i items = .ok rs ↔
      (∀ item ∈ items, Fits columns item) ∧ rs = items.map (rowOf columns) := by
  induction items generalizing i rs with
  | nil =>
      rw [itemRows]
      exact ok_eq_ok_iff_of_nil
  | cons item items ih =>
      rw [List.forall_mem_cons, itemRows]
      split
      · rename_i es hcore
        rw [bind_eq_ok_iff]
        constructor
        · rintro ⟨first, hfirst, h⟩
          obtain ⟨rest, hrest, h⟩ := bind_eq_ok_iff.mp h
          obtain ⟨hfits, rfl⟩ := (row_eq_ok_iff hcore).mp hfirst
          obtain ⟨hitems, rfl⟩ := ih.mp hrest
          exact ⟨⟨hfits, hitems⟩, (Except.ok.inj h).symm⟩
        · rintro ⟨⟨hfits, hitems⟩, rfl⟩
          refine ⟨_, (row_eq_ok_iff hcore).mpr ⟨hfits, rfl⟩, ?_⟩
          rw [ih.mpr ⟨hitems, rfl⟩]
          rfl
      · rename_i hno
        constructor
        · intro h
          cases h
        · rintro ⟨⟨hfits, -⟩, -⟩
          obtain ⟨es, hcore⟩ := hfits.exists_entries
          exact absurd hcore (hno es)

theorem rows_eq_ok_iff {columns : List String} {location : String} {t : Tree} {rs : List Tree} :
    rows columns location t = .ok rs ↔
      (∀ s ∈ sources t, Fits columns s) ∧ rs = (sources t).map (rowOf columns) := by
  unfold rows sources
  cases hcore : t.untag with
  | sequence items => exact itemRows_eq_ok_iff
  | mapping es =>
      rw [List.forall_mem_singleton, List.map_singleton, map_eq_ok_iff]
      constructor
      · rintro ⟨r, hr, rfl⟩
        obtain ⟨hfits, rfl⟩ := (row_eq_ok_iff hcore).mp hr
        exact ⟨hfits, rfl⟩
      · rintro ⟨hfits, rfl⟩
        exact ⟨_, (row_eq_ok_iff hcore).mpr ⟨hfits, rfl⟩, rfl⟩
  | null | bool _ | number _ | string _ | tagged _ _ =>
      -- the node itself would have to make a row, and is no mapping
      constructor
      · intro h
        cases h
      · rintro ⟨hfits, -⟩
        obtain ⟨es, hes⟩ := (List.forall_mem_singleton.mp hfits).exists_entries
        rw [hcore] at hes
        cases hes

theorem allRows_eq_ok_iff {columns : List String} {ms : List (String × Tree)} {rs : List Tree} :
    allRows columns ms = .ok rs ↔
      (∀ s ∈ (ms.map Prod.snd).flatMap sources, Fits columns s) ∧
        rs = ((ms.map Prod.snd).flatMap sources).map (rowOf columns) := by
  induction ms generalizing rs with
  | nil =>
      rw [allRows]
      exact ok_eq_ok_iff_of_nil
  | cons m ms ih =>
      rw [List.map_cons, List.flatMap_cons, List.forall_mem_append, List.map_append, allRows,
        bind_eq_ok_iff]
      constructor
      · rintro ⟨first, hfirst, h⟩
        obtain ⟨rest, hrest, h⟩ := bind_eq_ok_iff.mp h
        obtain ⟨hfits, rfl⟩ := rows_eq_ok_iff.mp hfirst
        obtain ⟨hall, rfl⟩ := ih.mp hrest
        exact ⟨⟨hfits, hall⟩, (Except.ok.inj h).symm⟩
      · rintro ⟨⟨hfits, hall⟩, rfl⟩
        refine ⟨_, rows_eq_ok_iff.mpr ⟨hfits, rfl⟩, ?_⟩
        rw [ih.mpr ⟨hall, rfl⟩]
        rfl

end Table

namespace Verb

variable {p : Pattern}

/-- The matches that the three views are made of. -/
theorem targets_eq_matches {d : Tree} (hd : d.DistinctKeys)
    (hwalk : (fullWalk p d).accepted.isSome = true) :
    if p.isRoot then targets p d = [([], d)]
    else (targets p d).Sublist d.nodes ∧ ((targets p d).map Prod.fst).Nodup ∧
      ∀ l t, (l, t) ∈ targets p d ↔ d.Reaches l t ∧ p.Matches l t := by
  cases hp : p.isRoot with
  | true => simp only [targets, hp, if_true]
  | false =>
      simp only [targets, hp, Bool.false_eq_true, if_false]
      exact ⟨foundNodes_sublist hp hwalk,
        hd.nodup_nodes.sublist ((foundNodes_sublist hp hwalk).map _),
        fun l t => mem_foundNodes_fullWalk hp hd hwalk⟩

theorem read_eq (p : Pattern) (listDelimiter : String) (d : Tree) :
    read.apply p listDelimiter d =
      if (fullWalk p d).accepted.isSome then .ok (.sequence ((targets p d).map Prod.snd))
      else .error (.nestedSequences p.raw) := by
  simp only [apply, checkWalk]
  split <;> rfl

theorem list_eq (p : Pattern) (listDelimiter : String) (d : Tree) :
    list.apply p listDelimiter d =
      if (fullWalk p d).accepted.isSome then .ok (.sequence
        ((targets p d).map fun m => .string (listLabel p listDelimiter m.1)))
      else .error (.nestedSequences p.raw) := by
  simp only [apply, checkWalk]
  split <;> rfl

/-- A table is made if all matches make rows and the walk goes through. -/
theorem table_eq_ok_iff {columns : List String} {listDelimiter : String} {d r : Tree} :
    (table columns).apply p listDelimiter d = .ok r ↔
      (fullWalk p d).accepted.isSome = true ∧
        (∀ s ∈ ((targets p d).map Prod.snd).flatMap Table.sources, Table.Fits columns s) ∧
        r = .sequence
          ((((targets p d).map Prod.snd).flatMap Table.sources).map (Table.rowOf columns)) := by
  have hvalues : ((targets p d).map fun m => (tableLabel p m.1, m.2)).map Prod.snd =
      (targets p d).map Prod.snd := by rw [List.map_map]; rfl
  have hrows := @Table.allRows_eq_ok_iff columns
    ((targets p d).map fun m => (tableLabel p m.1, m.2))
  simp only [hvalues] at hrows
  simp only [apply, checkWalk]
  cases hall : Table.allRows columns ((targets p d).map fun m => (tableLabel p m.1, m.2)) with
  | error cause =>
      dsimp only
      constructor
      · intro h
        cases h
      · rintro ⟨-, hfits, -⟩
        rw [hrows.mpr ⟨hfits, rfl⟩] at hall
        cases hall
  | ok rows =>
      obtain ⟨hfits, rfl⟩ := hrows.mp hall
      cases hwalk : (fullWalk p d).accepted.isSome with
      | true =>
          constructor
          · intro h
            exact ⟨rfl, hfits, (Except.ok.inj h).symm⟩
          · intro h
            rw [h.2.2]
            rfl
      | false =>
          constructor
          · intro h
            cases h
          · rintro ⟨h, -⟩
            cases h

/--
**Reading, listing and tables are three views of one list of matches.** Listing fails where reading
does, with the same error; otherwise reading gives the values of the matches, and listing the labels
of their parents (of the whole document, the pattern for it). A table is made exactly if reading
succeeds and everything read is a mapping, or a sequence of mappings, with all the columns. It has
one row for each of these mappings, in their order.
-/
theorem three_views {d : Tree} (hd : d.DistinctKeys) (p : Pattern) (listDelimiter : String)
    (columns : List String) :
    (∀ e, list.apply p listDelimiter d = .error e ↔ read.apply p listDelimiter d = .error e) ∧
    (∀ r, read.apply p listDelimiter d = .ok r → ∃ ms : List (Location × Tree),
      r = .sequence (ms.map Prod.snd) ∧
      list.apply p listDelimiter d = .ok (.sequence (ms.map fun m =>
        .string (if p.isRoot then "/" else Location.label listDelimiter m.1.dropLast))) ∧
      if p.isRoot then ms = [([], d)]
      else ms.Sublist d.nodes ∧ (ms.map Prod.fst).Nodup ∧
        ∀ l t, (l, t) ∈ ms ↔ d.Reaches l t ∧ p.Matches l t) ∧
    ((∃ r, (table columns).apply p listDelimiter d = .ok r) ↔
      ∃ values, read.apply p listDelimiter d = .ok (.sequence values) ∧
        ∀ s ∈ values.flatMap Table.sources, Table.Fits columns s) ∧
    ∀ r values, (table columns).apply p listDelimiter d = .ok r →
      read.apply p listDelimiter d = .ok (.sequence values) →
      ∃ rows, r = .sequence rows ∧
        List.Forall₂ (Table.IsRow columns) (values.flatMap Table.sources) rows := by
  refine ⟨fun e => ?_, fun r hr => ?_, ?_, fun r values hr hvalues => ?_⟩
  · rw [read_eq, list_eq]
    split <;> simp
  · rw [read_eq] at hr
    split at hr
    · rename_i hwalk
      refine ⟨targets p d, (Except.ok.inj hr).symm, ?_, targets_eq_matches hd hwalk⟩
      rw [list_eq, if_pos hwalk]
      rfl
    · cases hr
  · simp only [table_eq_ok_iff, read_eq]
    constructor
    · rintro ⟨r, hwalk, hfits, -⟩
      exact ⟨_, if_pos hwalk, hfits⟩
    · rintro ⟨values, hread, hfits⟩
      split at hread
      · rename_i hwalk
        obtain rfl := Tree.sequence.inj (Except.ok.inj hread)
        exact ⟨_, hwalk, hfits, rfl⟩
      · cases hread
  · obtain ⟨hwalk, hfits, rfl⟩ := table_eq_ok_iff.mp hr
    rw [read_eq, if_pos hwalk] at hvalues
    obtain rfl := Tree.sequence.inj (Except.ok.inj hvalues)
    refine ⟨_, rfl, List.forall₂_map_right_iff.mpr (List.forall₂_same.mpr fun s hs => ?_)⟩
    exact Table.isRow_rowOf (hfits s hs)

/--
A mapping and the items of a tagged sequence, one of them tagged itself, make the rows. The column
`b` is asked for twice, and what else the sources hold is left out.
-/
theorem three_views_repeated_column :
    let p : Pattern := ⟨"x.*", ".", [.literal "x" (.chars (.single 'x')), .wildcard]⟩
    let columns : List String := ["b", "a", "b"]
    let first : Tree := .mapping [(.string "a", .string "1"), (.null, .null), (.string "b", .null)]
    let second : Tree := .tagged ⟨"t"⟩ (.mapping [(.string "b", .string "2"),
      (.string "a", .tagged ⟨"u"⟩ (.bool true))])
    let items : Tree := .tagged ⟨"s"⟩ (.sequence [second, first])
    let d : Tree := .mapping [(.string "x", .mapping [(.string "y", first), (.null, items)])]
    d.DistinctKeys ∧ read.apply p "/" d = .ok (.sequence [first, items]) ∧
      list.apply p "/" d = .ok (.sequence [.string "x", .string "x"]) ∧
      ∃ rows, (table columns).apply p "/" d = .ok (.sequence rows) ∧
        List.Forall₂ (Table.IsRow columns) [first, second, first] rows := by
  intro p columns first second items d
  have hd : d.DistinctKeys := by decide +kernel
  have hread : read.apply p "/" d = .ok (.sequence [first, items]) := by decide +kernel
  have htable : ((table columns).apply p "/" d).isOk = true := by decide +kernel
  obtain ⟨-, -, -, hrows⟩ := three_views hd p "/" columns
  cases hresult : (table columns).apply p "/" d with
  | error e =>
      rw [hresult] at htable
      cases htable
  | ok r =>
      obtain ⟨rows, rfl, hmatch⟩ := hrows r _ hresult hread
      exact ⟨hd, hread, by decide +kernel, rows, rfl, hmatch⟩

end Verb

end TreeEdit
