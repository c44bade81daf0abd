import Mathlib.Data.List.Infix

/-!
The rows of a table that a filter selects (`jlib/src/jdb_list.c`).

The data of the cells is loaded, and every allocation succeeds.
-/
namespace Prj.Jlib.RowList
open List Option

/-- `JDB_ID_INVAL`. -/
def idInval : UInt32 := 0xffffffff

structure Cell where
  row : UInt32
  col : UInt32
  dataType : UInt8
  data : List UInt8

structure FilterEntry where
  /-- Bits 0 to 3 are the kind of the test, bit 4 asks for sizes, bits 6 and 7 are the logic. -/
  type : UInt8
  col : UInt32
  dataType : UInt8
  str : List UInt8

structure Filter where
  colStart : UInt32
  colEnd : UInt32
  rowStart : UInt32
  rowEnd : UInt32
  entries : List FilterEntry

inductive Verdict
  | yes
  | no
  | size
  | type
  | implement
  | limit
  | inv
  deriving DecidableEq, Repr

section Test
def ofBool (b : Bool) : Verdict := if b then .yes else .no

/-- The tests that compare: the lengths if bit 4 is set, otherwise the bytes of data of one length. -/
def compareBy (type : UInt8) (data str : List UInt8) (sizes : ℕ → ℕ → Bool)
    (bytes : List UInt8 → List UInt8 → Bool) : Verdict :=
  if type &&& 0x10 ≠ 0 then ofBool (sizes data.length str.length)
  else if data.length ≠ str.length then .size
  else ofBool (bytes data str)

def checkMatch (data str : List UInt8) (type : UInt8) : Verdict :=
  match (type &&& 0x0f).toNat with
  | 0x00 => .yes
  | 0x01 => compareBy type data str (fun m n => m < n) fun d s => d < s
  | 0x02 => compareBy type data str (fun m n => m > n) fun d s => s < d
  | 0x03 => compareBy type data str (fun m n => m = n) fun d s => d = s
  | 0x04 => compareBy type data str (fun m n => m ≠ n) fun d s => d ≠ s
  | 0x05 => compareBy type data str (fun m n => m ≤ n) fun d s => ¬ s < d
  | 0x06 => compareBy type data str (fun m n => m ≥ n) fun d s => ¬ d < s
  | 0x07 => .implement
  | 0x08 => ofBool (data.tails.any str.isPrefixOf)
  | _ => .type

def filterCell (filter : Filter) (entry : FilterEntry) (cell : Cell) : Verdict :=
  if filter.colStart ≠ idInval ∧ (cell.col < filter.colStart ∨ cell.col > filter.colEnd) then .limit
  else if filter.rowStart ≠ idInval ∧ (cell.row < filter.rowStart ∨ cell.row > filter.rowEnd) then .limit
  else if entry.col ≠ idInval ∧ entry.col ≠ cell.col then .inv
  else if entry.dataType ≠ 0x00 ∧ entry.dataType ≠ cell.dataType then .type
  else checkMatch cell.data entry.str entry.type

end Test

section List
abbrev RowSet := List (UInt32 × UInt32)

/-- `_jdb_check_filter_logic`. The constant for NOT is zero, so its branch is never taken, and XOR has the bit of
AND. -/
def checkFilterLogic (rowset : RowSet) (row col : UInt32) (type : UInt8) : Bool :=
  if type &&& 0x80 ≠ 0 then (row, col) ∈ rowset
  else if type &&& 0x40 ≠ 0 then true
  else false

/-- The condition for a cell to be added: the answer of the test is 0. -/
def admits (filter : Filter) (first : Bool) (entry : FilterEntry) (rowset : RowSet) (cell : Cell) : Bool :=
  filterCell filter entry cell = .no ∧ (first ∨ checkFilterLogic rowset cell.row cell.col entry.type)

/-- The inner loop of `_jdb_filter_boundary`. The arrays are allocated for `buck` entries and never for more; a
write behind them is the result `none`. -/
def addCells (buck : ℕ) (filter : Filter) (first : Bool) (entry : FilterEntry) : List Cell → RowSet → Option RowSet
  | [], rowset => some rowset
  | cell :: cells, rowset =>
    if admits filter first entry rowset cell then
      if rowset.length < buck then addCells buck filter first entry cells (rowset ++ [(cell.row, cell.col)])
      else none
    else addCells buck filter first entry cells rowset

def addEntries (buck : ℕ) (filter : Filter) (cells : List Cell) : Bool → List FilterEntry → RowSet → Option RowSet
  | _, [], rowset => some rowset
  | first, entry :: entries, rowset =>
    (addCells buck filter first entry cells rowset).bind (addEntries buck filter cells false entries)

def filterBoundary (buck : ℕ) (filter : Filter) (cells : List Cell) : Option RowSet :=
  addEntries buck filter cells true filter.entries []

/-- The inner loop of `_jdb_filter_rm_duplicate_rows`. -/
def rmRow (i : ℕ) : List ℕ → List UInt32 → List UInt32
  | [], rows => rows
  | j :: js, rows => rmRow i js (if rows[i]? = rows[j]? then rows.set i idInval else rows)

def rmDuplicateRows (rows : List UInt32) : List UInt32 :=
  (List.range rows.length).foldl
    (fun rows i => if rows[i]? = some idInval then rows else rmRow i (List.range rows.length) rows) rows

/-- The rows that are returned, or `none`. -/
def jdbList (buck : ℕ) (filter : Filter) (cells : List Cell) : Option (List UInt32) :=
  (filterBoundary buck filter cells).map fun rowset => rmDuplicateRows (rowset.map Prod.fst)

end List

section Specification
def combine (type : UInt8) (acc m : Bool) : Bool :=
  match (type &&& 0xc0).toNat with
  | 0x80 => acc && m
  | 0x40 => acc || m
  | 0xc0 => acc != m
  | _ => acc && !m

def passes (filter : Filter) (cell : Cell) (entry : FilterEntry) : Bool :=
  filterCell filter entry cell = .yes

/-- The cells that a filter is for: the entries are taken in their order, a filter without entries is for all
cells of its area. -/
def satisfies (filter : Filter) (cell : Cell) : Bool :=
  match filter.entries with
  | [] => passes filter cell ⟨0x00, idInval, 0x00, []⟩
  | entry :: entries =>
    entries.foldl (fun acc e => combine e.type acc (passes filter cell e)) (passes filter cell entry)

/-- The rows with a cell that satisfies the filter are listed, each once. What is left of a removed row does not
count. -/
def Lists (buck : ℕ) (filter : Filter) (cells : List Cell) : Prop :=
  ∃ rows, jdbList buck filter cells = some rows ∧ (rows.filter (· ≠ idInval)).Nodup ∧
    ∀ r, r ∈ rows.filter (· ≠ idInval) ↔ ∃ cell ∈ cells, cell.row = r ∧ satisfies filter cell = true

/-- The entries that add the cells they refuse: the first one, and those with OR. -/
def opening : List FilterEntry → List FilterEntry
  | [] => []
  | entry :: entries => entry :: entries.filter fun e => e.type &&& 0x80 = 0 ∧ e.type &&& 0x40 ≠ 0

def refusedAt (filter : Filter) (cells : List Cell) (before : List FilterEntry) (p : UInt32 × UInt32) : Bool :=
  cells.any fun cell => (cell.row, cell.col) = p ∧ (opening before).any fun e => filterCell filter e cell = .no

/-- The entry refuses the cell. If it has AND, an entry before it has added a cell at the same place, and if it is not
the first it has AND or OR. -/
def adds (filter : Filter) (cells : List Cell) (before : List FilterEntry) (entry : FilterEntry) (cell : Cell) : Bool :=
  filterCell filter entry cell = .no ∧ (before.isEmpty ∨
    if entry.type &&& 0x80 ≠ 0 then refusedAt filter cells before (cell.row, cell.col) else entry.type &&& 0x40 ≠ 0)

/-- The refused cells, once for each entry that adds them. -/
def refused (filter : Filter) (cells : List Cell) : List Cell :=
  (filter.entries.inits.zip filter.entries).flatMap fun e => cells.filter (adds filter cells e.1 e.2)

end Specification

section Boundary
variable {buck : ℕ} {filter : Filter} {first : Bool} {entry : FilterEntry} {before entries : List FilterEntry}
  {cells : List Cell} {rowset : RowSet} {p : UInt32 × UInt32}

theorem addCells_eq {q : Cell → Bool} {P : RowSet → Prop} (hrow : P rowset) (hle : rowset.length ≤ buck)
    (hq : ∀ rowset cell, P rowset → admits filter first entry rowset cell = q cell)
    (hP : ∀ rowset cell, P rowset → q cell = true → P (rowset ++ [(cell.row, cell.col)])) :
    addCells buck filter first entry cells rowset = if rowset.length + (cells.filter q).length ≤ buck then
      some (rowset ++ (cells.filter q).map fun cell => (cell.row, cell.col)) else none := by
  induction cells generalizing rowset with
  | nil => simpa [addCells] using hle
  | cons cell cells ih =>
    rw [addCells, hq rowset cell hrow]
    by_cases hadd : q cell = true
    · rw [if_pos hadd, filter_cons_of_pos hadd, length_cons]
      by_cases hlt : rowset.length < buck
      · rw [if_pos hlt, ih (hP _ _ hrow hadd) (by rw [length_append]; exact hlt)]
        simp [Nat.add_comm, Nat.add_left_comm]
      · rw [if_neg hlt, if_neg (by omega)]
    · rw [if_neg hadd, filter_cons_of_neg hadd, ih hrow hle]

theorem refusedAt_concat : refusedAt filter cells (before ++ [entry]) p = true ↔
    refusedAt filter cells before p = true ∨ ((before = [] ∨ entry.type &&& 0x80 = 0 ∧ entry.type &&& 0x40 ≠ 0) ∧
      ∃ cell ∈ cells, (cell.row, cell.col) = p ∧ filterCell filter entry cell = .no) := by
  cases before with
  | nil => simp [refusedAt, opening]
  | cons e before =>
    simp only [refusedAt, List.any_eq_true, decide_eq_true_eq, cons_append, opening, mem_cons, mem_filter, mem_append]
    grind

theorem mem_concat_adds (hmem : ∀ p, p ∈ rowset ↔ refusedAt filter cells before p = true) :
    p ∈ rowset ++ (cells.filter (adds filter cells before entry)).map (fun cell => (cell.row, cell.col)) ↔
      refusedAt filter cells (before ++ [entry]) p = true := by
  rw [refusedAt_concat, mem_append, hmem, List.mem_map]
  simp only [mem_filter, adds, decide_eq_true_eq, List.isEmpty_iff]
  grind

theorem addCells_adds (hmem : ∀ p, p ∈ rowset ↔ refusedAt filter cells before p = true) (hle : rowset.length ≤ buck) :
    addCells buck filter before.isEmpty entry cells rowset =
      if rowset.length + (cells.filter (adds filter cells before entry)).length ≤ buck then
        some (rowset ++ (cells.filter (adds filter cells before entry)).map fun cell => (cell.row, cell.col))
      else none := by
  refine addCells_eq (P := fun rowset => before ≠ [] → entry.type &&& 0x80 ≠ 0 →
    ∀ p, p ∈ rowset ↔ refusedAt filter cells before p = true) (fun _ _ => hmem) hle ?_ ?_
  · intro rowset cell h
    cases before with
    | nil => simp [admits, adds]
    | cons e before =>
      rw [admits, adds, checkFilterLogic]
      by_cases hand : entry.type &&& 0x80 = 0
      · simp [hand]
      · simp [hand, h (by simp) hand]
  · intro rowset cell h hadd hne hand p
    have hplace : refusedAt filter cells before (cell.row, cell.col) = true := by
      simpa [adds, hne, hand] using (of_decide_eq_true hadd).2
    rw [mem_append, h hne hand, mem_singleton]
    exact ⟨fun hp => hp.elim id fun hp => hp ▸ hplace, .inl⟩

theorem addEntries_isSome_iff (hmem : ∀ p, p ∈ rowset ↔ refusedAt filter cells before p = true)
    (hle : rowset.length ≤ buck) : (addEntries buck filter cells before.isEmpty entries rowset).isSome ↔
      rowset.length + ((entries.inits.zip entries).flatMap fun e =>
        cells.filter (adds filter cells (before ++ e.1) e.2)).length ≤ buck := by
  induction entries generalizing before rowset with
  | nil => simpa [addEntries] using hle
  | cons entry entries ih =>
    have hnext := @ih (before ++ [entry]) (rowset ++ (cells.filter (adds filter cells before entry)).map fun cell =>
      (cell.row, cell.col)) fun p => mem_concat_adds hmem
    rw [addEntries, addCells_adds hmem hle]
    simp only [inits_cons, zip_cons_cons, flatMap_cons, length_append, append_nil, zip_map_left, flatMap_map]
    split_ifs with hfit
    · have hne : (before ++ [entry]).isEmpty = false := by simp
      rw [length_append, length_map, hne] at hnext
      simpa [Nat.add_assoc, Function.comp_def] using hnext hfit
    · simp only [bind_none, isSome_none, Bool.false_eq_true, false_iff]
      omega

theorem filterBoundary_isSome_iff :
    (filterBoundary buck filter cells).isSome ↔ (refused filter cells).length ≤ buck := by
  have h := @addEntries_isSome_iff buck filter [] filter.entries cells [] (fun p => by simp [refusedAt, opening])
    (Nat.zero_le _)
  simpa [filterBoundary, refused] using h

end Boundary

section Duplicates
variable {i n : ℕ} {js : List ℕ} {rows : List UInt32}

theorem rmRow_set : rmRow i js (rows.set i idInval) = rows.set i idInval := by
  induction js with
  | nil => rfl
  | cons j js ih =>
    rw [rmRow, set_set, ite_self]
    exact ih

theorem rmRow_eq (hi : i ∈ js) : rmRow i js rows = rows.set i idInval := by
  induction js with
  | nil => cases hi
  | cons j js ih =>
    rw [rmRow]
    by_cases heq : rows[i]? = rows[j]?
    · rw [if_pos heq, rmRow_set]
    · rw [if_neg heq]
      rcases mem_cons.1 hi with rfl | hi
      · exact absurd rfl heq
      · exact ih hi

theorem rmRow_step (hi : i < rows.length) :
    (if rows[i]? = some idInval then rows else rmRow i (List.range rows.length) rows) = rows.set i idInval := by
  by_cases hinval : rows[i]? = some idInval
  · rw [if_pos hinval]
    obtain ⟨_, hget⟩ := List.getElem?_eq_some_iff.1 hinval
    rw [← hget, set_getElem_self]
  · rw [if_neg hinval, rmRow_eq (mem_range.2 hi)]

theorem foldl_rmRow (hn : n ≤ rows.length) : (List.range n).foldl
      (fun rows i => if rows[i]? = some idInval then rows else rmRow i (List.range rows.length) rows) rows =
      List.replicate n idInval ++ rows.drop n := by
  induction n with
  | zero => rfl
  | succ n ih =>
    have hlen : n < (List.replicate n idInval ++ rows.drop n).length := by
      rw [length_append, length_replicate, length_drop]
      omega
    rw [range_succ, foldl_append, ih (Nat.le_of_succ_le hn), foldl_cons, foldl_nil,
      rmRow_step hlen, set_append_right _ _ (by rw [length_replicate]), length_replicate,
      Nat.sub_self, drop_eq_getElem_cons hn, set_cons_zero, replicate_succ',
      append_assoc, singleton_append]

end Duplicates

section Main
variable {buck : ℕ} {filter : Filter} {cells : List Cell}

theorem jdbList_isSome_iff : (jdbList buck filter cells).isSome ↔ (refused filter cells).length ≤ buck := by
  rw [jdbList, isSome_map, filterBoundary_isSome_iff]

theorem filter_jdbList {rows : List UInt32} (h : jdbList buck filter cells = some rows) :
    rows.filter (· ≠ idInval) = [] := by
  obtain ⟨rowset, -, rfl⟩ := map_eq_some_iff.1 h
  rw [rmDuplicateRows, foldl_rmRow le_rfl, drop_length, append_nil, filter_replicate]
  rfl

/-- The list is right exactly if it has to be empty and the refused cells fit into the arrays. -/
theorem lists_iff : Lists buck filter cells ↔
    (∀ cell ∈ cells, satisfies filter cell = false) ∧ (refused filter cells).length ≤ buck := by
  rw [← jdbList_isSome_iff, isSome_iff_exists]
  constructor
  · rintro ⟨rows, hrows, -, hmem⟩
    refine ⟨fun cell hcell => ?_, rows, hrows⟩
    by_contra hsat
    have hin := (hmem cell.row).2 ⟨cell, hcell, rfl, Bool.not_eq_false _ ▸ hsat⟩
    rw [filter_jdbList hrows] at hin
    cases hin
  · rintro ⟨hsat, rows, hrows⟩
    have hempty := filter_jdbList hrows
    refine ⟨rows, hrows, ?_, fun r => ?_⟩
    · rw [hempty]
      exact nodup_nil
    · rw [hempty]
      refine iff_of_false not_mem_nil ?_
      rintro ⟨cell, hcell, -, hyes⟩
      rw [hsat cell hcell] at hyes
      cases hyes

def equalTo (str : List UInt8) : Filter :=
  ⟨idInval, idInval, idInval, idInval, [⟨0x03, idInval, 0x00, str⟩]⟩

/-- A cell that satisfies the filter is not listed. One that does not is listed and then removed. -/
theorem not_lists_equalTo : jdbList 8 (equalTo [1]) [⟨5, 0, 0x01, [1]⟩] = some [] ∧
      jdbList 8 (equalTo [1]) [⟨5, 0, 0x01, [2]⟩] = some [idInval] ∧
      ¬ Lists 8 (equalTo [1]) [⟨5, 0, 0x01, [1]⟩] := by
  have hempty : jdbList 8 (equalTo [1]) [⟨5, 0, 0x01, [1]⟩] = some [] := rfl
  refine ⟨hempty, rfl, ?_⟩
  rintro ⟨rows, hrows, -, hmem⟩
  rw [← some.inj (hempty.symm.trans hrows)] at hmem
  have hin := (hmem 5).2 ⟨_, mem_cons_self, rfl, by decide⟩
  cases hin

end Main
end Prj.Jlib.RowList
