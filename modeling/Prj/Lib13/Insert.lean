import Mathlib.Algebra.BigOperators.Group.List.Basic
import Prj.Base.SqlText
import Prj.Lib13.Db
import Prj.Lib13.Pack

/-! `db_insert` of `lib13/db13.c` with the SQLite driver and a statement that is not prepared yet, and
the columns of the row as `db_column_int`, `db_column_int64` and `db_column_text` read them. -/
namespace Prj.Lib13.Insert
open Prj.Base.SqlText
open List hiding lex

/-- `enum db_type_id` -/
inductive Ty
  | bool
  | int
  | bigint
  | real
  | text
  | date
  | stime
  | raw
  | inval
deriving DecidableEq, Repr

/-- What `val[i]` points to. A text comes with `size[i]`, which is 0 or not above its length, and
`size[i]` of a blob is its length. A double is given by its bits. -/
abbrev Ty.Val : Ty → Type
  | .bool | .int => BitVec 32
  | .bigint | .stime | .real => BitVec 64
  | .text => (s : CStr) × Fin (s.bytes.length + 1)
  | .date => CStr
  | .raw | .inval => List UInt8

/-- A column with its `val[i]`; `virt` is `DB_COLF_VIRTUAL`. -/
structure Column where
  name : List Char
  type : Ty
  virt : Bool
  val : Option type.Val

/-- Names that SQLite has taken as names of a table and of its columns. -/
structure Table where
  name : List Char
  cols : List Column
  name_word : IsWord name
  words : ∀ col ∈ cols, col.virt = false → IsWord col.name
  distinct : ((cols.filter fun col => !col.virt).map Column.name).Nodup

inductive Cell
  | null
  | int (n : ℤ)
  | real (bits : BitVec 64)
  | text (bytes : List UInt8)
  | blob (bytes : List UInt8)
deriving DecidableEq, Repr

abbrev Row := List Char → Cell

/-- `SQLITE_MAX_VARIABLE_NUMBER`, the cast of a byte to double, and the number of a day from the text
of a date. -/
structure Env where
  maxVar : ℕ
  double : BitVec 8 → BitVec 64
  gdayno : CStr → ℤ

section Model
variable (env : Env)

def Column.given (col : Column) : Bool := col.val.isSome && !col.virt

def Table.given (t : Table) : List (Column × ℕ) := t.cols.zipIdx.filter fun p => p.1.given

def Table.vir (t : Table) : ℕ := t.cols.countP Column.virt

def Table.lastCol (t : Table) : ℕ := t.cols.length - 1 - t.vir

def Table.sep (t : Table) (i : ℕ) : List Char := if i = t.lastCol then [] else [',', ' ']

def Table.colPiece (t : Table) (p : Column × ℕ) : List Char := p.1.name ++ t.sep p.2

def Table.varPiece (t : Table) (p : Column × ℕ) : List Char :=
  '?' :: (Nat.toDigits 10 (p.2 + 1) ++ t.sep p.2)

def Table.pieces (t : Table) : List (List Char) :=
  (insertWord ++ ' ' :: (intoWord ++ ' ' :: (t.name ++ ['(']))) ::
    (t.given.map t.colPiece ++ (')' :: ' ' :: (valuesWord ++ ['('])) :: (t.given.map t.varPiece ++ [[')', ';']]))

def maxSql : ℕ := 1024

/-- `snprintf(sql+len, RLEN, ...)` -/
def snprintf (sql piece : List Char) : List Char := (sql ++ piece).take (maxSql - 1)

def Table.sql (t : Table) : List Char := t.pieces.foldl snprintf []

/-- What is bound for `val[i]`; numbers are read as `*val[i]`. -/
def bound : (type : Ty) → type.Val → Cell
  | .bool, n | .int, n => .int (lowByte (BitVec.toNat n))
  | .bigint, n | .stime, n => .int (lowByte (BitVec.toNat n))
  | .real, bits => .real (env.double (BitVec.setWidth 8 bits))
  | .date, s => .int (env.gdayno s)
  | .text, ⟨s, size⟩ => .text (if size.val = 0 then s.bytes else s.bytes.take size.val)
  | .raw, bytes | .inval, bytes => .blob bytes

def Table.binding (t : Table) (n : ℕ) : Cell :=
  match t.given.find? fun p => p.2 + 1 = n with
  | some (col, _) =>
    match col.val with
    | some v => bound env col.type v
    | none => .null
  | none => .null

/-- The row that the statement stores; columns that it does not name are NULL. -/
def insertRow (ins : Prj.Base.SqlText.Insert) (binding : ℕ → Cell) : Row := fun name =>
  match (ins.cols.zip ins.vars).find? fun p => p.1 = name with
  | some (_, n) => binding n
  | none => .null

def dbInsert (t : Table) (rows : List Row) : Ret × List Row :=
  if t.vir = t.cols.length then (.ok, rows)
  else
    match parseInsert env.maxVar (lex t.sql) with
    | none => (.err .syse, rows)
    | some ins =>
      if ins.table = t.name ∧ ∀ name ∈ ins.cols, ∃ col ∈ t.cols, col.virt = false ∧ col.name = name then
        (.ok, rows ++ [insertRow ins (t.binding env)])
      else (.err .syse, rows)

/-- `db_column_int` -/
def columnInt : Cell → BitVec 32
  | .int n => BitVec.ofInt 32 n
  | _ => 0

/-- `db_column_int64` -/
def columnInt64 : Cell → BitVec 64
  | .int n => BitVec.ofInt 64 n
  | _ => 0

/-- `db_column_text`; `strlen(NULL)` is undefined. -/
def columnText : Cell → Option (Except E13 (List UInt8))
  | .text bytes =>
    match bytes.takeWhile (· ≠ 0) with
    | [] => some (.error .empty)
    | s => some (.ok s)
  | _ => none

def value : (type : Ty) → type.Val → Cell
  | .bool, n | .int, n => .int (BitVec.toInt n)
  | .bigint, n | .stime, n => .int (BitVec.toInt n)
  | .real, bits => .real bits
  | .date, s => .int (env.gdayno s)
  | .text, ⟨s, size⟩ => .text (if size.val = 0 then s.bytes else s.bytes.take size.val)
  | .raw, bytes | .inval, bytes => .blob bytes

/-- Numbers, times and texts are read back; `E13_EMPTY` stands for the empty text. -/
def ReadsBack : (type : Ty) → type.Val → Cell → Prop
  | .bool, n, cell | .int, n, cell => columnInt cell = n
  | .bigint, n, cell | .stime, n, cell => columnInt64 cell = n
  | .text, ⟨s, size⟩, cell =>
    columnText cell = some (match if size.val = 0 then s.bytes else s.bytes.take size.val with
      | [] => .error .empty
      | bytes => .ok bytes)
  | _, _, _ => True

/-- One row is added, with the values that are given and NULL in the other columns. -/
def StoresGiven (t : Table) (rows : List Row) : Prop :=
  ∃ row, dbInsert env t rows = (.ok, rows ++ [row]) ∧ ∀ col ∈ t.cols, col.virt = false → match col.val with
      | none => row col.name = .null
      | some v => row col.name = value env col.type v ∧ ReadsBack col.type v (row col.name)

/-- The value does not change when it is cut to its first byte. -/
def Exact : (type : Ty) → type.Val → Prop
  | .bool, n | .int, n => BitVec.toNat n < 256
  | .bigint, n | .stime, n => BitVec.toNat n < 256
  | .real, bits => env.double (BitVec.setWidth 8 bits) = bits
  | _, _ => True

/-- The last column that is given is number `ncols - 1 - vir`, no parameter has too high a number, and
the text is short enough to keep its last parenthesis. -/
structure Readable (maxVar : ℕ) (t : Table) : Prop where
  last : (t.given.getLast?.map Prod.snd) = some t.lastCol
  vars : ∀ p ∈ t.given, p.2 + 1 ≤ maxVar
  short : 20 + t.name.length +
    (t.given.map fun p => p.1.name.length + (Nat.toDigits 10 (p.2 + 1)).length + 5).sum ≤ maxSql

def ExactValues (t : Table) : Prop :=
  ∀ col ∈ t.cols, col.virt = false → ∀ v, col.val = some v → Exact env col.type v

end Model

section Text
variable {t : Table} {sql piece tail : List Char} {p : Column × ℕ} {ps : List (Column × ℕ)}

theorem foldl_snprintf (pieces : List (List Char)) (h : sql.length ≤ maxSql - 1) :
    pieces.foldl snprintf sql = (sql ++ pieces.flatten).take (maxSql - 1) := by
  induction pieces generalizing sql with
  | nil => rw [foldl_nil, flatten_nil, append_nil, take_of_length_le h]
  | cons piece pieces ih =>
    rw [foldl_cons, snprintf, ih (length_take_le _ _), flatten_cons, ← append_assoc]
    have hlen : ∀ n k : ℕ, n - min n k = n - k := by omega
    rw [take_append, take_take, min_self, length_take, hlen, ← take_append]

/-- The statement with the lists of its columns and parameters, up to the last parenthesis. -/
def Table.head (t : Table) (cols vars : List Char) : List Char :=
  insertWord ++ ' ' :: (intoWord ++ ' ' :: (t.name ++ '(' :: (cols ++ ')' :: ' ' :: (valuesWord ++ '(' :: vars))))

theorem sql_eq (t : Table) : t.sql = (t.head (t.given.map t.colPiece).flatten (t.given.map t.varPiece).flatten ++
      [')', ';']).take (maxSql - 1) := by
  rw [Table.sql, foldl_snprintf _ (Nat.zero_le _), Table.pieces, Table.head]
  simp only [flatten_cons, flatten_append, flatten_nil, append_assoc, cons_append, nil_append]

theorem lex_head (t : Table) (cols vars tail : List Char) : lex (t.head cols vars ++ ')' :: tail) =
      .word insertWord :: .word intoWord :: .word t.name :: .sign '(' ::
        (lex cols ++ .sign ')' :: .word valuesWord :: .sign '(' :: (lex vars ++ .sign ')' :: lex tail)) := by
  have hopen (s rest) : lex (s ++ '(' :: rest) = lex s ++ .sign '(' :: lex rest := by
    rw [lex_append rfl, lex_sign rfl (by decide) (by decide)]
  have hclose (s rest) : lex (s ++ ')' :: rest) = lex s ++ .sign ')' :: lex rest := by
    rw [lex_append rfl, lex_sign rfl (by decide) (by decide)]
  have hspace (s rest) : lex (s ++ ' ' :: rest) = lex s ++ lex rest := by
    rw [lex_append rfl, lex_space]
  simp only [Table.head, append_assoc, cons_append, nil_append, hspace, hopen, hclose,
    lex_space, t.name_word.lex, lex_keyword (.inl rfl), lex_keyword (.inr (.inl rfl)),
    lex_keyword (.inr (.inr rfl))]

theorem mem_given {col : Column} {i : ℕ} : (col, i) ∈ t.given ↔ t.cols[i]? = some col ∧ col.given = true := by
  rw [Table.given, mem_filter, mem_zipIdx_iff_getElem?]

theorem given_nodup_snd (t : Table) : (t.given.map Prod.snd).Nodup := by
  have hsub : (t.given.map Prod.snd).Sublist (t.cols.zipIdx.map Prod.snd) :=
    filter_sublist.map _
  rw [zipIdx_map_snd] at hsub
  exact hsub.nodup nodup_range'

theorem mem_cols_of_given (hp : p ∈ t.given) : p.1 ∈ t.cols ∧ p.1.val.isSome = true ∧ p.1.virt = false := by
  obtain ⟨hget, hgiven⟩ := mem_given.1 hp
  rw [Column.given, Bool.and_eq_true, Bool.not_eq_true'] at hgiven
  exact ⟨mem_of_getElem? hget, hgiven⟩

theorem isWord_of_given (hp : p ∈ t.given) : IsWord p.1.name := by
  obtain ⟨hcol, -, hvirt⟩ := mem_cols_of_given hp
  exact t.words p.1 hcol hvirt

/-- The texts and the tokens of the columns or of the parameters. -/
structure Items (t : Table) (text : Column × ℕ → List Char) (tok : Column × ℕ → Token) : Prop where
  lex : ∀ p ∈ t.given, Prj.Base.SqlText.lex (text p) = [tok p]
  close : ∀ p ∈ t.given, ')' ∉ text p

theorem items_cols (t : Table) : Items t (fun p => p.1.name) (fun p => .word p.1.name) where
  lex p hp := (isWord_of_given hp).lex
  close p hp hmem := by
    have hident := (isWord_of_given hp).ident _ hmem
    exact absurd hident (by decide)

theorem items_vars (t : Table) :
    Items t (fun p => '?' :: Nat.toDigits 10 (p.2 + 1)) (fun p => .var (Nat.toDigits 10 (p.2 + 1))) where
  lex p _ := by
    apply lex_var Nat.toDigits_ne_nil
    intro c hc
    simp [identChar, Char.isAlphanum, Nat.isDigit_of_mem_toDigits (by decide) (by decide) hc]
  close p _ hmem := by
    rcases mem_cons.1 hmem with h | h
    · exact absurd h (by decide)
    · exact absurd (Nat.isDigit_of_mem_toDigits (by decide) (by decide) h) (by decide)

def Table.listText (t : Table) (text : Column × ℕ → List Char) : List Char :=
  (t.given.map fun p => text p ++ t.sep p.2).flatten

variable {text : Column × ℕ → List Char} {tok : Column × ℕ → Token}

theorem Items.close_not_mem (h : Items t text tok) : ')' ∉ t.listText text := by
  intro hmem
  obtain ⟨s, hs, hmem⟩ := mem_flatten.1 hmem
  obtain ⟨p, hp, rfl⟩ := mem_map.1 hs
  rcases mem_append.1 hmem with hmem | hmem
  · exact h.close p hp hmem
  · unfold Table.sep at hmem
    split_ifs at hmem
    · cases hmem
    · exact absurd hmem (by decide)

theorem listText_eq (hgiven : t.given = ps ++ [p]) (hlast : p.2 = t.lastCol) :
    t.listText text = (ps.map fun q => text q ++ [',', ' ']).flatten ++ text p := by
  have hsep : ∀ q ∈ ps, t.sep q.2 = [',', ' '] := by
    intro q hq
    apply if_neg
    have hnodup := given_nodup_snd t
    rw [hgiven, map_append] at hnodup
    intro heq
    refine (nodup_append.1 hnodup).2.2 _ (mem_map_of_mem hq) _ mem_cons_self ?_
    rw [heq, hlast]
  have hmap : (ps.map fun q => text q ++ t.sep q.2) = ps.map fun q => text q ++ [',', ' '] :=
    map_congr_left fun q hq => by rw [hsep q hq]
  rw [Table.listText, hgiven, map_append, hmap]
  simp [Table.sep, hlast]

theorem Items.lex_listText (h : Items t text tok) (hgiven : t.given = ps ++ [p]) (hlast : p.2 = t.lastCol) :
    Prj.Base.SqlText.lex (t.listText text) = (ps.flatMap fun q => [tok q, .sign ',']) ++ [tok p] := by
  rw [listText_eq hgiven hlast, lex_flatten, h.lex p (by simp [hgiven])]
  intro q hq
  exact h.lex q (by simp [hgiven, hq])

theorem getLast_lex_listText (hgiven : t.given = ps ++ [p]) (hlast : p.2 ≠ t.lastCol) :
    (lex (t.listText text)).getLast? = some (.sign ',') := by
  have hsep : t.sep p.2 = [',', ' '] := if_neg hlast
  have htext : t.listText text = ((ps.map fun q => text q ++ t.sep q.2).flatten ++ text p) ++ ',' :: ' ' :: [] := by
    rw [Table.listText, hgiven, map_append]
    simp [hsep]
  rw [htext, lex_comma]
  exact getLast?_concat

end Text

section Parse
variable {t : Table} {p : Column × ℕ} {ps : List (Column × ℕ)} {tail : List Char} {maxVar : ℕ}
  {ins : Prj.Base.SqlText.Insert}

def Table.start (t : Table) : List Char :=
  t.head (t.listText fun p => p.1.name) (t.listText fun p => '?' :: Nat.toDigits 10 (p.2 + 1))

theorem sql_of_short (h : t.start.length + 2 ≤ maxSql) :
    ∃ tail, t.sql = t.start ++ ')' :: tail ∧ (tail = [] ∨ tail = [';']) := by
  have hsql : t.sql = (t.start ++ [')', ';']).take (maxSql - 1) := sql_eq t
  by_cases hlt : t.start.length + 2 < maxSql
  · refine ⟨[';'], ?_, .inr rfl⟩
    rw [hsql, take_of_length_le]
    rw [length_append, length_cons, length_singleton]
    omega
  · refine ⟨[], ?_, .inl rfl⟩
    have hlen : maxSql - 1 = (t.start ++ [')']).length := by
      rw [length_append, length_singleton]
      omega
    rw [hsql, append_cons, hlen, take_left]

theorem count_start (t : Table) : t.start.count ')' = 1 := by
  have hkey : insertWord.count ')' = 0 ∧ intoWord.count ')' = 0 ∧ valuesWord.count ')' = 0 := by decide
  have hname : t.name.count ')' = 0 := by
    rw [count_eq_zero]
    intro hmem
    exact absurd (t.name_word.ident _ hmem) (by decide)
  have hcols := count_eq_zero.2 (items_cols t).close_not_mem
  have hvars := count_eq_zero.2 (items_vars t).close_not_mem
  simp only [Table.start, Table.head, count_append, count_cons, hkey, hname, hcols, hvars]
  decide

theorem parse_sql_of_long (h : maxSql < t.start.length + 2) : parseInsert maxVar (lex t.sql) = none := by
  have hsql : t.sql = t.start.take (maxSql - 1) := by
    rw [show t.sql = (t.start ++ [')', ';']).take (maxSql - 1) from sql_eq t, take_append_of_le_length (by omega)]
  cases hparse : parseInsert maxVar (lex t.sql) with
  | none => rfl
  | some ins =>
    have htwo := parseInsert_count (by rw [hparse]; rfl : (parseInsert maxVar (lex t.sql)).isSome = true)
    rw [count_lex rfl (by decide) (by decide), hsql] at htwo
    have hle := (take_sublist (maxSql - 1) t.start).count_le ')'
    rw [count_start] at hle
    omega

theorem parse_start_of_last (h : t.given.getLast?.map Prod.snd ≠ some t.lastCol) :
    parseInsert maxVar (lex (t.start ++ ')' :: tail)) = none := by
  have hlist : ∀ rest, parseList column (lex (t.listText fun p => p.1.name) ++ .sign ')' :: rest) = none := by
    apply parseList_eq_none rfl
    · rw [← count_eq_zero, count_lex rfl (by decide) (by decide)]
      exact count_eq_zero.2 (items_cols t).close_not_mem
    · intro token htoken
      rcases eq_nil_or_concat' t.given with hnil | ⟨ps, p, hgiven⟩
      · simp [Table.listText, hnil, lex] at htoken
      · have hlast : p.2 ≠ t.lastCol := by simpa [hgiven] using h
        rw [getLast_lex_listText hgiven hlast] at htoken
        cases htoken
        rfl
  rw [Table.start, lex_head, parseInsert, if_pos ⟨rfl, rfl⟩, hlist]

theorem param_var (n : ℕ) : param maxVar (.var (Nat.toDigits 10 n)) = if n ≤ maxVar then some n else none := by
  have hdigits : (Nat.toDigits 10 n).all Char.isDigit = true := by
    rw [all_eq_true]
    intro c hc
    exact Nat.isDigit_of_mem_toDigits (by decide) (by decide) hc
  rw [param, hdigits]
  simp

section
variable (hgiven : t.given = ps ++ [p]) (hlast : p.2 = t.lastCol)
include hgiven hlast

theorem parseList_items {α : Type} {text : Column × ℕ → List Char} {tok : Column × ℕ → Token} {f : Token → Option α}
    {g : Column × ℕ → α} (h : Items t text tok) (hf : ∀ q ∈ t.given, f (tok q) = some (g q)) (rest : List Token) :
    parseList f (lex (t.listText text) ++ .sign ')' :: rest) = some (t.given.map g, rest) := by
  rw [hgiven] at hf ⊢
  rw [h.lex_listText hgiven hlast, append_assoc, singleton_append, parseList_of_items ps p rest hf, map_append]
  rfl

theorem parse_start_of_vars (htail : tail = [] ∨ tail = [';']) (hvars : ∀ q ∈ t.given, q.2 + 1 ≤ maxVar) :
    parseInsert maxVar (lex (t.start ++ ')' :: tail)) =
      some ⟨t.name, t.given.map fun q => q.1.name, t.given.map fun q => q.2 + 1⟩ := by
  have hvalues : parseValues maxVar (.word valuesWord :: .sign '(' ::
      (lex (t.listText fun p => '?' :: Nat.toDigits 10 (p.2 + 1)) ++ .sign ')' :: lex tail)) =
      some (t.given.map fun q => q.2 + 1) := by
    rw [parseValues, parseList_items hgiven hlast (items_vars t) fun q hq => by rw [param_var, if_pos (hvars q hq)]]
    rcases htail with rfl | rfl <;> rfl
  rw [Table.start, lex_head, parseInsert, if_pos ⟨rfl, rfl⟩,
    parseList_items (f := column) hgiven hlast (items_cols t) fun _ _ => rfl]
  simp only [hvalues, length_map, if_true]

theorem vars_of_parse (h : (parseInsert maxVar (lex (t.start ++ ')' :: tail))).isSome = true) :
    ∀ q ∈ t.given, q.2 + 1 ≤ maxVar := by
  rw [Table.start, lex_head, parseInsert, parseList_items (f := column) hgiven hlast (items_cols t) fun _ _ => rfl,
    (items_vars t).lex_listText hgiven hlast, append_assoc] at h
  have hlist : (parseList (param maxVar) ((ps.flatMap fun q =>
      [Token.var (Nat.toDigits 10 (q.2 + 1)), .sign ',']) ++
        .var (Nat.toDigits 10 (p.2 + 1)) :: .sign ')' :: lex tail)).isSome = true := by
    by_contra hnone
    rw [Option.not_isSome_iff_eq_none] at hnone
    simp [parseValues, hnone] at h
  intro q hq
  rw [hgiven] at hq
  have hsome := isSome_of_parseList hlist q hq
  rw [param_var] at hsome
  by_contra hgt
  simp [hgt] at hsome

theorem length_listText (text : Column × ℕ → List Char) :
    (t.listText text).length + 2 = (t.given.map fun q => (text q).length + 2).sum := by
  rw [listText_eq hgiven hlast, hgiven, map_append, sum_append, length_append, length_flatten, map_map]
  simp only [Function.comp_def, length_append, length_cons, length_nil, map_cons,
    map_nil, sum_cons, sum_nil, Nat.zero_add, Nat.reduceAdd]
  omega

theorem length_start : t.start.length + 2 = 20 + t.name.length +
      (t.given.map fun p => p.1.name.length + (Nat.toDigits 10 (p.2 + 1)).length + 5).sum := by
  have hcols := length_listText hgiven hlast fun p => p.1.name
  have hvars := length_listText hgiven hlast fun p => '?' :: Nat.toDigits 10 (p.2 + 1)
  have hsum : (t.given.map fun p => p.1.name.length + (Nat.toDigits 10 (p.2 + 1)).length + 5).sum =
      (t.given.map fun p => p.1.name.length + 2).sum +
        (t.given.map fun p => ('?' :: Nat.toDigits 10 (p.2 + 1)).length + 2).sum := by
    rw [← sum_map_add]
    congr 1
    apply map_congr_left
    intro q _
    rw [length_cons]
    omega
  have hkey : insertWord.length = 6 ∧ intoWord.length = 4 ∧ valuesWord.length = 6 := by decide
  rw [hsum, ← hvars, Table.start, Table.head]
  simp only [length_append, length_cons, hkey]
  omega

end

theorem exists_last (h : t.given.getLast?.map Prod.snd = some t.lastCol) :
    ∃ ps p, t.given = ps ++ [p] ∧ p.2 = t.lastCol := by
  obtain ⟨p, hp, hlast⟩ := Option.map_eq_some_iff.1 h
  obtain ⟨ps, hgiven⟩ := getLast?_eq_some_iff.1 hp
  exact ⟨ps, p, hgiven, hlast⟩

theorem Readable.parse (h : Readable maxVar t) : parseInsert maxVar (lex t.sql) =
      some ⟨t.name, t.given.map fun q => q.1.name, t.given.map fun q => q.2 + 1⟩ := by
  obtain ⟨ps, p, hgiven, hlast⟩ := exists_last h.last
  have hshort := h.short
  rw [← length_start hgiven hlast] at hshort
  obtain ⟨tail, hsql, htail⟩ := sql_of_short hshort
  rw [hsql, parse_start_of_vars hgiven hlast htail h.vars]

theorem readable_of_parse (h : (parseInsert maxVar (lex t.sql)).isSome = true) : Readable maxVar t := by
  have hshort : t.start.length + 2 ≤ maxSql := by
    by_contra hlong
    rw [parse_sql_of_long (by omega)] at h
    cases h
  obtain ⟨tail, hsql, htail⟩ := sql_of_short hshort
  rw [hsql] at h
  have hlast : t.given.getLast?.map Prod.snd = some t.lastCol := by
    by_contra hne
    rw [parse_start_of_last hne] at h
    cases h
  obtain ⟨ps, p, hgiven, hp⟩ := exists_last hlast
  exact ⟨hlast, vars_of_parse hgiven hp h, by rwa [← length_start hgiven hp]⟩

end Parse

section Store
variable {env : Env} {t : Table} {col : Column} {p : Column × ℕ} {rows : List Row} {v : col.type.Val}

theorem map_fst_given (t : Table) : t.given.map Prod.fst = t.cols.filter Column.given := by
  conv_rhs => rw [← zipIdx_map_fst 0 t.cols]
  rw [filter_map]
  rfl

theorem given_nodup_name (t : Table) : (t.given.map fun p => p.1.name).Nodup := by
  have hsub : (t.cols.filter Column.given).Sublist (t.cols.filter fun col => !col.virt) := by
    have hfilter : t.cols.filter Column.given =
        (t.cols.filter fun col => !col.virt).filter fun col => col.val.isSome := by
      rw [filter_filter]
      rfl
    rw [hfilter]
    exact filter_sublist
  have hmap := (hsub.map Column.name).nodup t.distinct
  rw [← map_fst_given, map_map] at hmap
  exact hmap

theorem given_of_some (hcol : col ∈ t.cols) (hvirt : col.virt = false) (hval : col.val.isSome = true) :
    ∃ i, (col, i) ∈ t.given := by
  obtain ⟨i, hget⟩ := mem_iff_getElem?.1 hcol
  exact ⟨i, mem_given.2 ⟨hget, by simp [Column.given, hvirt, hval]⟩⟩

theorem binding_of_given {i : ℕ} (hp : (col, i) ∈ t.given) (hval : col.val = some v) :
    t.binding env (i + 1) = bound env col.type v := by
  have hnodup : (t.given.map fun q => q.2 + 1).Nodup := by
    have hmap := List.Nodup.map Nat.succ_injective (given_nodup_snd t)
    rwa [map_map] at hmap
  have hfind := find?_of_nodup hnodup hp
  rw [Table.binding, hfind]
  simp only [hval]

def Table.row (env : Env) (t : Table) : Row :=
  insertRow ⟨t.name, t.given.map fun q => q.1.name, t.given.map fun q => q.2 + 1⟩ (t.binding env)

theorem row_eq (env : Env) (t : Table) (name : List Char) : t.row env name =
      match t.given.find? fun q => q.1.name = name with
      | some q => t.binding env (q.2 + 1)
      | none => .null := by
  rw [Table.row, insertRow]
  simp only [zip_map', find?_map, Function.comp_def]
  cases t.given.find? fun q => q.1.name = name with
  | none | some => rfl

theorem row_of_given {i : ℕ} (hp : (col, i) ∈ t.given) (hval : col.val = some v) :
    t.row env col.name = bound env col.type v := by
  have hfind := find?_of_nodup (given_nodup_name t) hp
  rw [row_eq, hfind]
  exact binding_of_given hp hval

theorem row_of_none (hcol : col ∈ t.cols) (hvirt : col.virt = false) (hval : col.val = none) :
    t.row env col.name = .null := by
  have hfind : (t.given.find? fun q => q.1.name = col.name) = none := by
    rw [find?_eq_none]
    intro q hq heq
    rw [decide_eq_true_eq] at heq
    obtain ⟨hqcol, hsome, hqvirt⟩ := mem_cols_of_given hq
    -- names of columns that are not virtual are different
    have hcols := inj_on_of_nodup_map t.distinct (mem_filter.2 ⟨hqcol, by simp [hqvirt]⟩)
      (mem_filter.2 ⟨hcol, by simp [hvirt]⟩) heq
    rw [hcols, hval] at hsome
    cases hsome
  rw [row_eq, hfind]

theorem dbInsert_of_readable (h : Readable env.maxVar t) (rows : List Row) :
    dbInsert env t rows = (.ok, rows ++ [t.row env]) := by
  have hvir : t.vir ≠ t.cols.length := by
    obtain ⟨ps, p, hps, -⟩ := exists_last h.last
    obtain ⟨hmem, -, hvirt⟩ := mem_cols_of_given (hps ▸ mem_concat_self : p ∈ t.given)
    intro hall
    have := countP_eq_length.1 hall p.1 hmem
    simp [hvirt] at this
  rw [dbInsert, if_neg hvir, h.parse]
  simp only
  rw [if_pos]
  · rfl
  · simp only [true_and]
    intro name hname
    obtain ⟨q, hq, rfl⟩ := mem_map.1 hname
    obtain ⟨hcol, -, hvirt⟩ := mem_cols_of_given hq
    exact ⟨q.1, hcol, hvirt, rfl⟩

theorem readable_of_dbInsert {row : Row} (h : dbInsert env t rows = (.ok, rows ++ [row])) : Readable env.maxVar t := by
  unfold dbInsert at h
  split_ifs at h with hvir
  · simp at h
  · apply readable_of_parse
    cases hparse : parseInsert env.maxVar (lex t.sql) with
    | none => simp [hparse] at h
    | some ins => rfl

theorem lowByte_eq_toInt_iff {w : ℕ} (hw : 2 ^ 9 ≤ 2 ^ w) (n : BitVec w) :
    lowByte n.toNat = n.toInt ↔ n.toNat < 256 := by
  rw [lowByte, BitVec.toInt_eq_toNat_cond]
  split_ifs <;> omega

theorem bound_eq_value_iff (type : Ty) (v : type.Val) : bound env type v = value env type v ↔ Exact env type v := by
  cases type with
  | bool | int | bigint | stime => exact Cell.int.injEq _ _ ▸ lowByte_eq_toInt_iff (by decide) v
  | real => exact Cell.real.injEq _ _ ▸ Iff.rfl
  | text | date | raw | inval => exact iff_of_true rfl trivial

theorem readsBack_value (type : Ty) (v : type.Val) : ReadsBack type v (value env type v) := by
  cases type with
  | bool | int | bigint | stime => exact BitVec.ofInt_toInt
  | text =>
    obtain ⟨s, size⟩ := v
    rw [ReadsBack, value]
    have hnul : ∀ bytes : List UInt8, bytes.Sublist s.bytes → bytes.takeWhile (· ≠ 0) = bytes := by
      intro bytes hsub
      rw [takeWhile_eq_self_iff]
      intro b hb
      rw [decide_eq_true_eq]
      rintro rfl
      exact s.no_nul (hsub.subset hb)
    have htake : (if size.val = 0 then s.bytes else s.bytes.take size.val).Sublist s.bytes := by
      split_ifs
      · exact List.Sublist.refl _
      · exact take_sublist _ _
    rw [columnText, hnul _ htake]
    cases if size.val = 0 then s.bytes else s.bytes.take size.val with
    | nil | cons => rfl
  | real | date | raw | inval => trivial

theorem StoresGiven.readable (h : StoresGiven env t rows) : Readable env.maxVar t := by
  obtain ⟨row, hinsert, -⟩ := h
  exact readable_of_dbInsert hinsert

theorem StoresGiven.exactValues (h : StoresGiven env t rows) : ExactValues env t := by
  have hread := h.readable
  obtain ⟨row, hinsert, hrow⟩ := h
  rw [dbInsert_of_readable hread, Prod.mk.injEq, append_right_inj] at hinsert
  obtain rfl : t.row env = row := singleton_inj.1 hinsert.2
  intro col hcol hvirt v hval
  have hcell := hrow col hcol hvirt
  rw [hval] at hcell
  obtain ⟨i, hp⟩ := given_of_some hcol hvirt (by rw [hval]; rfl)
  rw [row_of_given hp hval] at hcell
  exact (bound_eq_value_iff _ _).1 hcell.1

/-- Without virtual columns the separator rule asks for the last column. -/
theorem getLast?_given_iff (hvir : t.vir = 0) : (t.cols.map Column.given).getLast? = some true ↔
    t.given.getLast?.map Prod.snd = some t.lastCol := by
  rw [Table.lastCol, hvir, Table.given, getLast?_map]
  rcases eq_nil_or_concat' t.cols with hnil | ⟨cols, col, hcols⟩
  · simp [hnil]
  · rw [hcols, getLast?_concat, zipIdx_append, filter_append]
    cases hcol : col.given with
    | true => simp [hcol]
    | false =>
      simp only [Option.map_some, hcol, Option.some.injEq, Bool.false_eq_true, false_iff]
      intro hlast
      obtain ⟨p, hp, hnum⟩ := Option.map_eq_some_iff.1 hlast
      have hnil : (List.zipIdx [col] (0 + cols.length)).filter (fun p => p.1.given) = [] := by
        simp [hcol]
      rw [hnil, append_nil] at hp
      have hlt := snd_lt_of_mem_zipIdx (mem_of_mem_filter (mem_of_getLast? hp))
      exact hlt.ne (by simpa using hnum)

/-- The tables of the accounts, which have no virtual columns, few columns and short names, are inserted into in
this way. -/
theorem dbInsert_ok_iff {R : Type} (hvir : t.vir = 0) (hvars : ∀ p ∈ t.given, p.2 + 1 ≤ env.maxVar)
    (hshort : 20 + t.name.length +
      (t.given.map fun p => p.1.name.length + (Nat.toDigits 10 (p.2 + 1)).length + 5).sum ≤ maxSql)
    (rows : List Row) (r : R) (table : List R) :
    (∃ row, dbInsert env t rows = (.ok, rows ++ [row])) ↔
      Lib13.dbInsert (t.cols.map Column.given) r table = .ok (table ++ [r]) := by
  unfold Lib13.dbInsert
  split_ifs with hlast
  · exact iff_of_true ⟨_, dbInsert_of_readable ⟨(getLast?_given_iff hvir).1 hlast, hvars, hshort⟩ rows⟩ rfl
  · refine iff_of_false ?_ nofun
    rintro ⟨row, hrow⟩
    exact hlast ((getLast?_given_iff hvir).2 (readable_of_dbInsert hrow).last)

end Store

theorem isWord_of_decide {w : List Char} (h : (w.all identChar && !(w.head?.any Char.isDigit)) = true)
    (hne : w ≠ []) : IsWord w := by
  rw [Bool.and_eq_true, all_eq_true] at h
  obtain ⟨c, cs, rfl⟩ := exists_cons_of_ne_nil hne
  exact ⟨h.1, c, cs, rfl, by simpa using h.2⟩

def people (id : BitVec 32) (name : Option (Ty.Val .text)) : Table where
  name := "people".toList
  cols := [⟨"id".toList, .int, false, some id⟩, ⟨"name".toList, .text, false, name⟩]
  name_word := isWord_of_decide (by decide) (by decide)
  words := by
    simp only [List.forall_mem_cons]
    exact ⟨fun _ => isWord_of_decide (by decide) (by decide),
      fun _ => isWord_of_decide (by decide) (by decide), by simp⟩
  distinct := by
    have hnodup : ["id".toList, "name".toList].Nodup := by decide
    exact hnodup

def plainEnv : Env where
  maxVar := 999
  double b := (Float.ofNat b.toNat).toBits.toBitVec
  gdayno _ := 0

end Prj.Lib13.Insert
