import Prj.Base.Upsert
import Prj.Lib13.Db
import Prj.Step13.Path

/-!
The tables of step13 and the functions of `db.c` that change them.

A call of the database or of `scandir` may fail, and the environment says which calls do and what a
failed call leaves in the tables. `begin_trans` and `finish_trans` are such calls too, their results are
not looked at. Messages, the counters of files and sizes and the text in `h->sql` are left out. Texts are
bound with their terminating zero and read back as C strings, so the tables have the strings.
-/
namespace Prj.Step13
open Prj.Base Prj.Lib13

/-- The constants `STEP13_STAT_*` and `STEP13_NA`. -/
inductive Stat
  | added
  | removed
  | updated
  | synchronised
  | duplicated
  | na
  deriving DecidableEq, Repr

/-- The fields of `struct stat` that are compared. -/
structure FileStat where
  size : ℤ
  mtime : ℤ
  ctime : ℤ
  deriving DecidableEq, Repr

structure Row where
  path : Path
  type : Kind
  ctime : ℤ
  mtime : ℤ
  size : ℤ
  hash : Path
  comment : Path
  tags : Path
  level : ℤ
  stat : Stat
  deriving DecidableEq, Repr

inductive Table
  | main
  | compare
  deriving DecidableEq, Repr

structure Db where
  main : List Row
  compare : List Row
  deriving DecidableEq, Repr

def Db.get (db : Db) : Table → List Row
  | .main => db.main
  | .compare => db.compare

def Db.set (db : Db) (rows : List Row) : Table → Db
  | .main => { db with main := rows }
  | .compare => { db with compare := rows }

/-- What the program is called with, and how the database reads texts. -/
structure Config where
  driveSep : Option UInt8
  source : Path
  root : Path
  comment : Option Path
  tags : Option Path
  /-- The characters of a text. -/
  decode : Path → List Char
  /-- How `LIKE` ignores case. -/
  fold : Char → Char
  /-- What is stored as the hash of a path. The buffer that is bound has gone out of scope before the
  statement runs, so this can be any text. -/
  hash : Path → Path

/-- The `n`-th call fails if `fault n` is not `none`; its value is what the failure does to the tables. -/
abbrev Faults := ℕ → Option (Db → Db)

def noFaults : Faults := fun _ => none

/-- A `struct step13` with its database. -/
structure Sys where
  db : Db
  /-- `run_query_arg` if `run_query_fn` is `set_update_stat`, and `none` for a null `run_query_fn`. -/
  fn : Option FileStat
  /-- The number of calls so far. -/
  calls : ℕ

/-- `sqlite3_column_int`, and a cast to `int`. -/
def toInt (z : ℤ) : ℤ := z.bmod 4294967296

def FileStat.toInt (st : FileStat) : FileStat :=
  ⟨Step13.toInt st.size, Step13.toInt st.mtime, Step13.toInt st.ctime⟩

/-- The numbers that `set_update_stat` reads. -/
def Row.fileStat (row : Row) : FileStat := FileStat.toInt ⟨row.size, row.mtime, row.ctime⟩

/-- The row as `copy_table` reads and binds it. -/
def Row.copied (row : Row) : Row :=
  { row with ctime := toInt row.ctime, mtime := toInt row.mtime, size := toInt row.size,
             level := toInt row.level }

/-- `path LIKE pattern` -/
def Config.like (cfg : Config) (pattern path : Path) : Bool :=
  Glob.Matches (likePattern cfg.fold (cfg.decode pattern)) ((cfg.decode path).map cfg.fold)

theorem Config.like_self (cfg : Config) (path : Path) : cfg.like path path = true :=
  decide_eq_true (likePattern_self cfg.fold (cfg.decode path))

inductive Write
  | emptyTable (table : Table)
  | insertPathData (table : Table) (row : Row)
  | setStat (table : Table) (stat : Stat)
  | setStatByPath (table : Table) (st : FileStat) (stat : Stat) (path : Path)

def setRow (st : FileStat) (stat : Stat) (row : Row) : Row :=
  { row with size := st.size, mtime := st.mtime, ctime := st.ctime, stat := stat }

def Write.exec (cfg : Config) (db : Db) : Write → Db
  | .emptyTable table => db.set [] table
  | .insertPathData table row => db.set (db.get table ++ [row]) table
  | .setStat table stat => db.set ((db.get table).map fun row => { row with stat := stat }) table
  | .setStatByPath table st stat path =>
    db.set ((db.get table).map fun row => if cfg.like path row.path then setRow st stat row else row) table

section Functions
variable (cfg : Config) (faults : Faults)

def call (s : Sys) : Bool × Sys :=
  match faults s.calls with
  | none => (true, { s with calls := s.calls + 1 })
  | some fault => (false, { s with calls := s.calls + 1, db := fault s.db })

/-- The calls of `sqlite3_bind_*` before a statement runs; the first failure is the last call. -/
def bindAll : ℕ → Sys → Bool × Sys
  | 0, s => (true, s)
  | n + 1, s =>
    match call faults s with
    | (true, s) => bindAll n s
    | (false, s) => (false, s)

/-- `sqlite3_step` on a statement without results. -/
def stepWrite (w : Write) (s : Sys) : Bool × Sys :=
  match call faults s with
  | (true, s) => (true, { s with db := w.exec cfg s.db })
  | (false, s) => (false, s)

/-- The loop of `run_query` and `run_query2` on a statement without results. With `set_update_stat` it
ends with -2. -/
def loopWrite (w : Write) (s : Sys) : ℤ × Sys :=
  match stepWrite cfg faults w s with
  | (true, s) => (if s.fn.isSome then -2 else 0, s)
  | (false, s) => (-1, s)

def runQuery (w : Write) (s : Sys) : ℤ × Sys :=
  match call faults s with
  | (true, s) => loopWrite cfg faults w s
  | (false, s) => (-1, s)

/-- `run_query2` on a statement without results that has `nbind` values. -/
def runQuery2 (nbind : ℕ) (w : Write) (s : Sys) : ℤ × Sys :=
  match call faults s with
  | (true, s) =>
    match bindAll faults nbind s with
    | (true, s) => loopWrite cfg faults w s
    | (false, s) => (-1, s)
  | (false, s) => (-1, s)

/-- `set_update_stat` on `STEP13_SELECT_BY_PATH`. The statement it runs itself ends in it again. -/
def setUpdateStat (st : FileStat) (path : Path) (s : Sys) : ℤ × Sys :=
  match call faults s with
  | (true, s) =>
    match s.db.compare.find? fun row => cfg.like path row.path with
    | some row =>
      let stat := if st ≠ row.fileStat then Stat.updated else Stat.synchronised
      (1, (runQuery2 cfg faults 5 (.setStatByPath .compare st.toInt stat row.path) s).2)
    | none => (-2, s)
  | (false, s) => (-1, s)

/-- `run_query2` on `STEP13_SELECT_BY_PATH` with `set_update_stat`. -/
def selectByPath (st : FileStat) (path : Path) (s : Sys) : ℤ × Sys :=
  match call faults s with
  | (true, s) =>
    match bindAll faults 1 s with
    | (true, s) =>
      match setUpdateStat cfg faults st path s with
      | (ret, s) => (if ret > 0 then 0 else ret, s)
    | (false, s) => (-1, s)
  | (false, s) => (-1, s)

/-- The loop of `copy_table`. An error of `sqlite3_step` ends it like the end of the rows does. -/
def copyRows (target : Table) : List Row → Sys → ℤ × Sys
  | [], s => (0, (call faults s).2)
  | row :: rows, s =>
    match call faults s with
    | (true, s) =>
      match runQuery2 cfg faults 10 (.insertPathData target row.copied) s with
      | (ret, s) => if ret ≠ 0 then (-1, s) else copyRows target rows s
    | (false, s) => (0, s)

/-- `select` is the condition of `STEP13_SELECT_ALL` or `STEP13_SELECT_EXISTS`. -/
def copyTable (select : Row → Bool) (source target : Table) (s : Sys) : ℤ × Sys :=
  let s := (runQuery cfg faults (.emptyTable target) s).2
  match call faults s with
  | (true, s) => copyRows cfg faults target ((s.db.get source).filter select) s
  | (false, s) => (-1, s)

end Functions

def stepNa : Path := ascii ['n', '/', 'a']

/-- The row that `bind_path_data_rec` binds. -/
def newRow (cfg : Config) (st : FileStat) (v : Visit) (stat : Stat) : Row where
  path := v.path
  type := v.kind
  ctime := st.toInt.ctime
  mtime := st.toInt.mtime
  size := st.toInt.size
  hash := cfg.hash v.path
  comment := cfg.comment.getD stepNa
  tags := cfg.tags.getD stepNa
  level := toInt (getPathDepth v.path)
  stat := stat

section Compare
variable (cfg : Config) (faults : Faults) (stat : Path → FileStat)

def compPath (path : Path) : Path := mergePath2 cfg.driveSep cfg.source path cfg.root

def updateListEnumCallback (s : Sys) (v : Visit) : ℤ × Sys :=
  let st := stat v.path
  let s := { s with fn := some st }
  match selectByPath cfg faults st (compPath cfg v.path) s with
  | (ret, s) =>
    if ret = -2 then
      match bindAll faults 10 s with
      | (true, s) =>
        match stepWrite cfg faults (.insertPathData .compare (newRow cfg st v .added)) s with
        | (true, s) => (0, s)
        | (false, s) => (-1, s)
      | (false, s) => (-1, s)
    else if ret = -1 then (-1, s)
    else (0, s)

def finishTrans (s : Sys) : Sys := (call faults s).2

/-- `source` is the content of the source directory. -/
def compareSourceAndRootPathTables (source : Dir) (s : Sys) : ℤ × Sys :=
  let s := (call faults s).2
  match copyTable cfg faults (fun _ => true) .main .compare s with
  | (ret, s) =>
    if ret ≠ 0 then (-1, finishTrans faults s)
    else
      match runQuery2 cfg faults 1 (.setStat .compare .removed) s with
      | (ret, s) =>
        if ret ≠ 0 then (-1, finishTrans faults s)
        else
          match call faults s with
          | (true, s) =>
            match source.enumDir cfg.driveSep (call faults) (updateListEnumCallback cfg faults stat) cfg.source s with
            | (ret, s) => (if ret ≠ 0 then -1 else 0, finishTrans faults s)
          | (false, s) => (-1, finishTrans faults s)

def compare (source : Dir) (s : Sys) : ℤ × Sys :=
  (0, (compareSourceAndRootPathTables cfg faults stat source s).2)

def update (source : Dir) (s : Sys) : ℤ × Sys :=
  match compare cfg faults stat source s with
  | (ret, s) =>
    if ret ≠ 0 then (-1, s)
    else
      let s := (runQuery cfg faults (.emptyTable .main) s).2
      let s := (copyTable cfg faults (·.stat ≠ .removed) .compare .main s).2
      let s := (runQuery2 cfg faults 1 (.setStat .main .synchronised) s).2
      (0, s)

end Compare

/-! What a run leaves in the tables when no call fails. -/

def lookup (cfg : Config) : Lookup Path Visit where
  like := cfg.like
  pattern v := compPath cfg v.path
  own v := v.path
  like_self := cfg.like_self

def upsert (cfg : Config) (stat : Path → FileStat) : Upsert (lookup cfg) Row where
  key := Row.path
  put v found row :=
    setRow (stat v.path).toInt (if stat v.path ≠ found.fileStat then .updated else .synchronised) row
  new v := newRow cfg (stat v.path) v .added
  key_put _ _ _ := rfl
  key_new _ := rfl

def unseen (main : List Row) : List Row := main.map fun row => { row.copied with stat := .removed }

def Config.walk (cfg : Config) (source : Dir) : List Visit := source.walk cfg.driveSep cfg.source

def compared (cfg : Config) (stat : Path → FileStat) (source : Dir) (main : List Row) : List Row :=
  (upsert cfg stat).run (unseen main) (cfg.walk source)

def endCode (fn : Option FileStat) : ℤ := if fn.isSome then -2 else 0

section Quiet
variable {cfg : Config} {stat : Path → FileStat} {w : Write} {s : Sys} {nbind : ℕ} {v : Visit}
  {source target : Table} {rows : List Row} {st : FileStat} {path : Path}

theorem call_quiet : call noFaults s = (true, { s with calls := s.calls + 1 }) := rfl

theorem bindAll_quiet : bindAll noFaults nbind s = (true, { s with calls := s.calls + nbind }) := by
  induction nbind generalizing s with
  | zero => rfl
  | succ n ih =>
    simp only [bindAll, call_quiet, ih]
    rw [Nat.add_assoc, Nat.add_comm 1 n]

theorem loopWrite_quiet : loopWrite cfg noFaults w s = (endCode s.fn, ⟨w.exec cfg s.db, s.fn, s.calls + 1⟩) := rfl

theorem runQuery_quiet : runQuery cfg noFaults w s = (endCode s.fn, ⟨w.exec cfg s.db, s.fn, s.calls + 2⟩) := rfl

theorem runQuery2_quiet : runQuery2 cfg noFaults nbind w s =
    (endCode s.fn, ⟨w.exec cfg s.db, s.fn, s.calls + 1 + nbind + 1⟩) := by
  simp only [runQuery2, call_quiet, bindAll_quiet, loopWrite_quiet]

theorem selectByPath_quiet_some {row : Row} (h : (s.db.compare.find? fun row => cfg.like path row.path) = some row) :
    ∃ n, selectByPath cfg noFaults st path s = (0, ⟨(Write.setStatByPath .compare st.toInt
        (if st ≠ row.fileStat then .updated else .synchronised) row.path).exec cfg s.db, s.fn, n⟩) := by
  simp only [selectByPath, call_quiet, bindAll_quiet, setUpdateStat, h, runQuery2_quiet]
  exact ⟨_, rfl⟩

variable (cfg stat)

theorem updateListEnumCallback_quiet (v : Visit) (main rows : List Row) (fn : Option FileStat) (n : ℕ) :
    ∃ m, updateListEnumCallback cfg noFaults stat ⟨⟨main, rows⟩, fn, n⟩ v =
      (0, ⟨⟨main, (upsert cfg stat).touch rows v⟩, some (stat v.path), m⟩) := by
  cases hfind : rows.find? fun row => cfg.like (compPath cfg v.path) row.path with
  | none =>
    have hfind' : (upsert cfg stat).find rows v = none := hfind
    have hselect : selectByPath cfg noFaults (stat v.path) (compPath cfg v.path)
        ⟨⟨main, rows⟩, some (stat v.path), n⟩ = (-2, ⟨⟨main, rows⟩, some (stat v.path), n + 1 + 1 + 1⟩) := by
      simp only [selectByPath, call_quiet, bindAll_quiet, setUpdateStat, hfind]
      rfl
    simp only [updateListEnumCallback, hselect, bindAll_quiet, stepWrite, call_quiet, Upsert.touch, hfind']
    exact ⟨_, rfl⟩
  | some row =>
    have hfind' : (upsert cfg stat).find rows v = some row := hfind
    obtain ⟨m, hselect⟩ : ∃ m, selectByPath cfg noFaults (stat v.path) (compPath cfg v.path)
        ⟨⟨main, rows⟩, some (stat v.path), n⟩ = (0, ⟨_, some (stat v.path), m⟩) :=
      selectByPath_quiet_some hfind
    simp only [updateListEnumCallback, hselect, Upsert.touch, hfind']
    exact ⟨_, rfl⟩

theorem enumLoop_quiet (root : Path) (dir : Dir) (main rows : List Row) (fn : Option FileStat) (n : ℕ) :
    ∃ fn' m, dir.enumLoop cfg.driveSep (call noFaults) (updateListEnumCallback cfg noFaults stat) root
        ⟨⟨main, rows⟩, fn, n⟩ =
        (0, ⟨⟨main, (upsert cfg stat).run rows (dir.walk cfg.driveSep root)⟩, fn', m⟩) ∧
      (fn' = none ↔ fn = none ∧ dir.walk cfg.driveSep root = []) := by
  induction dir generalizing root rows fn n with
  | nil => exact ⟨fn, n, rfl, by simp [Dir.walk]⟩
  | other name rest ih => exact ih root rows fn n
  | file name rest ih =>
    obtain ⟨fn', m, hrest, -⟩ := ih root rows fn n
    obtain ⟨m', hcall⟩ := updateListEnumCallback_quiet cfg stat ⟨mergePath cfg.driveSep root name, .file⟩ main
      ((upsert cfg stat).run rows (rest.walk cfg.driveSep root)) fn' m
    refine ⟨some (stat (mergePath cfg.driveSep root name)), m', ?_, by simp [Dir.walk]⟩
    simp only [Dir.enumLoop, hrest, hcall, Dir.walk, Upsert.run_append]
    rfl
  | dir name sub rest ihsub ihrest =>
    obtain ⟨fn', m, hrest, hfn⟩ := ihrest root rows fn n
    by_cases hskip : skipped name = true
    · refine ⟨fn', m, ?_, by simpa [Dir.walk, hskip] using hfn⟩
      simp [Dir.enumLoop, hrest, hskip, Dir.walk]
    · obtain ⟨m', hcall⟩ := updateListEnumCallback_quiet cfg stat ⟨mergePath cfg.driveSep root name, .dir⟩ main
        ((upsert cfg stat).run rows (rest.walk cfg.driveSep root)) fn' m
      obtain ⟨fn'', m'', hsub, hfn''⟩ := ihsub (mergePath cfg.driveSep root name)
        ((upsert cfg stat).touch ((upsert cfg stat).run rows (rest.walk cfg.driveSep root))
          ⟨mergePath cfg.driveSep root name, .dir⟩)
        (some (stat (mergePath cfg.driveSep root name))) (m' + 1)
      refine ⟨fn'', m'', ?_, by simpa [Dir.walk, hskip] using hfn''⟩
      simp [Dir.enumLoop, hrest, hskip, hcall, call_quiet, hsub, Dir.walk, Upsert.run_append]

theorem copyRows_quiet (target : Table) (rows : List Row) (db : Db) (n : ℕ) :
    ∃ m, copyRows cfg noFaults target rows ⟨db, none, n⟩ =
      (0, ⟨db.set (db.get target ++ rows.map Row.copied) target, none, m⟩) := by
  induction rows generalizing db n with
  | nil => exact ⟨n + 1, by cases target <;> simp [copyRows, call_quiet, Db.set, Db.get]⟩
  | cons row rows ih =>
    obtain ⟨m, hrest⟩ := ih (db.set (db.get target ++ [row.copied]) target) (n + 1 + 1 + 10 + 1)
    refine ⟨m, ?_⟩
    have hinsert : runQuery2 cfg noFaults 10 (.insertPathData target row.copied) ⟨db, none, n + 1⟩ =
        (0, ⟨db.set (db.get target ++ [row.copied]) target, none, n + 1 + 1 + 10 + 1⟩) := runQuery2_quiet
    simp only [copyRows, call_quiet, hinsert, hrest]
    cases target <;> simp [Db.set, Db.get]

theorem copyRows_quiet_some (target : Table) (rows : List Row) (db : Db) (st : FileStat) (n : ℕ) :
    ∃ ret m, copyRows cfg noFaults target rows ⟨db, some st, n⟩ =
      (ret, ⟨db.set (db.get target ++ (rows.take 1).map Row.copied) target, some st, m⟩) := by
  cases rows with
  | nil => exact ⟨0, n + 1, by cases target <;> simp [copyRows, call_quiet, Db.set, Db.get]⟩
  | cons row rows =>
    have hinsert : runQuery2 cfg noFaults 10 (.insertPathData target row.copied) ⟨db, some st, n + 1⟩ =
        (-2, ⟨db.set (db.get target ++ [row.copied]) target, some st, n + 1 + 1 + 10 + 1⟩) :=
      runQuery2_quiet
    refine ⟨-1, n + 1 + 1 + 10 + 1, ?_⟩
    simp [copyRows, call_quiet, hinsert]

section
variable (select : Row → Bool) {source target : Table} (h : source ≠ target) (db : Db)
include h

theorem copyTable_eq (fn : Option FileStat) (n : ℕ) : copyTable cfg noFaults select source target ⟨db, fn, n⟩ =
    copyRows cfg noFaults target ((db.get source).filter select) ⟨db.set [] target, fn, n + 2 + 1⟩ := by
  have hget : (db.set [] target).get source = db.get source := by
    cases source <;> cases target <;> first | rfl | exact absurd rfl h
  simp only [copyTable, runQuery_quiet, call_quiet, Write.exec, hget]

theorem copyTable_quiet (n : ℕ) : ∃ m, copyTable cfg noFaults select source target ⟨db, none, n⟩ =
      (0, ⟨db.set (((db.get source).filter select).map Row.copied) target, none, m⟩) := by
  obtain ⟨m, hcopy⟩ := copyRows_quiet cfg target ((db.get source).filter select) (db.set [] target) (n + 2 + 1)
  refine ⟨m, ?_⟩
  rw [copyTable_eq cfg select h, hcopy]
  cases target <;> rfl

theorem copyTable_quiet_some (st : FileStat) (n : ℕ) :
    ∃ ret m, copyTable cfg noFaults select source target ⟨db, some st, n⟩ =
      (ret, ⟨db.set ((((db.get source).filter select).take 1).map Row.copied) target, some st, m⟩) := by
  obtain ⟨ret, m, hcopy⟩ := copyRows_quiet_some cfg target ((db.get source).filter select) (db.set [] target) st
    (n + 2 + 1)
  refine ⟨ret, m, ?_⟩
  rw [copyTable_eq cfg select h, hcopy]
  cases target <;> rfl

end

theorem compare_quiet (source : Dir) (main old : List Row) (n : ℕ) :
    ∃ fn m, compareSourceAndRootPathTables cfg noFaults stat source ⟨⟨main, old⟩, none, n⟩ =
        (0, ⟨⟨main, compared cfg stat source main⟩, fn, m⟩) ∧ (fn = none ↔ cfg.walk source = []) := by
  obtain ⟨m1, hcopy⟩ := copyTable_quiet cfg (fun _ => true) (show Table.main ≠ .compare by decide) ⟨main, old⟩ (n + 1)
  obtain ⟨fn, m, henum, hfn⟩ := enumLoop_quiet cfg stat cfg.source source main (unseen main) none
    (m1 + 1 + 1 + 1 + 1 + 1)
  have hremoved : runQuery2 cfg noFaults 1 (.setStat .compare .removed)
      ⟨⟨main, main.map Row.copied⟩, none, m1⟩ = (0, ⟨⟨main, unseen main⟩, none, m1 + 1 + 1 + 1⟩) := by
    rw [runQuery2_quiet]
    simp [endCode, Write.exec, Db.set, Db.get, unseen]
  refine ⟨fn, m + 1, ?_, ?_⟩
  · simp only [compareSourceAndRootPathTables, call_quiet, hcopy, Db.set, Db.get, List.filter_true,
      hremoved, Dir.enumDir, henum, finishTrans, compared, Config.walk]
    rfl
  · simpa [Config.walk] using hfn

/-- The rows that `update` means to keep. -/
def kept (rows : List Row) : List Row := rows.filter fun row => row.stat ≠ .removed

/-- The main table after an update: all rows that are kept or the first of them. -/
theorem update_quiet (source : Dir) (main old : List Row) (n : ℕ) :
    ∃ s, update cfg noFaults stat source ⟨⟨main, old⟩, none, n⟩ = (0, s) ∧
      s.db.compare = compared cfg stat source main ∧
      s.db.main = (if cfg.walk source = [] then kept (compared cfg stat source main)
        else (kept (compared cfg stat source main)).take 1).map
          fun row => { row.copied with stat := .synchronised } := by
  obtain ⟨fn, m, hcompare, hfn⟩ := compare_quiet cfg stat source main old n
  simp only [update, compare, hcompare, runQuery_quiet, Write.exec, Db.set, runQuery2_quiet]
  cases fn with
  | none =>
    obtain ⟨m', hcopy⟩ := copyTable_quiet cfg (·.stat ≠ .removed) (show Table.compare ≠ .main by decide)
      ⟨[], compared cfg stat source main⟩ (m + 2)
    rw [if_neg (by simp), hcopy, if_pos (hfn.1 rfl)]
    exact ⟨_, rfl, rfl, List.map_map⟩
  | some st =>
    obtain ⟨ret, m', hcopy⟩ := copyTable_quiet_some cfg (·.stat ≠ .removed)
      (show Table.compare ≠ .main by decide) ⟨[], compared cfg stat source main⟩ st (m + 2)
    have hwalk : cfg.walk source ≠ [] := by
      intro hnil
      exact absurd (hfn.2 hnil) (by simp)
    rw [if_neg (by simp), hcopy, if_neg hwalk]
    exact ⟨_, rfl, rfl, List.map_map⟩

end Quiet
end Prj.Step13
