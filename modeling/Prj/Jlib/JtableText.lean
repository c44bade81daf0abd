import Prj.Jlib.JtableRead
import Prj.Jlib.JtableRows

/-!
Tables as text (`jt_table_to_text` and `jt_text_to_table` in `jlib/src/jtable.c`).

Sizes have 32 bits and `char` is signed. The text is a list of the bytes that `bufsize` counts, and every allocation
succeeds.
-/
namespace Prj.Jlib.Jtable
open Prj.Base List

section Eol
/-- A line ends with `_JT_CR`, which is `'\n'`, or with `_JT_CR` and `_JT_LF`, which is `'\r'`. -/
inductive Eol
  | cr
  | crlf
  deriving DecidableEq, Repr

def byteCR : UInt8 := 0x0a
def byteLF : UInt8 := 0x0d

/-- `JT_EOL_CR` and `JT_EOL_CRLF`. -/
def Eol.ofInt (eol : ℤ) : Option Eol := if eol = 1 then some .cr else if eol = 2 then some .crlf else none

def Eol.bytes : Eol → List UInt8
  | cr => [byteCR]
  | crlf => [byteCR, byteLF]

inductive TextError
  | type
  | forbid
  | read (e : ReadError)
  deriving DecidableEq, Repr

end Eol

section Write
def Table.toCells (t : Table) : Cells (Fin t.cells.length) where
  hdr := t.hdr
  cell := t.cells.get
  list := List.finRange t.cells.length
  nodup := List.nodup_finRange t.cells.length

def jtSortTable (t : Table) : Table := { t with cells := t.toCells.sorted.map t.cells.get }

/-- `none` for `-JE_LIMIT` and for `-JE_NOTFOUND`. -/
def jtGetCell (t : Table) (row col : UInt32) : Option Cell :=
  if row > t.hdr.nrows - 1 ∨ col > t.hdr.ncols - 1 then none else t.cells.find? (Cell.at · row col)

def textSize (e : Eol) (t : Table) : UInt32 :=
  t.cells.foldl (fun size cell => size + cell.hdr.datalen + 1) (t.hdr.nrows * .ofNat e.bytes.length)

def colsText (t : Table) (delim : UInt8) (row : UInt32) : List UInt8 :=
  (List.range t.hdr.ncols.toNat).flatMap fun col =>
    ((jtGetCell t row (.ofNat col)).map Cell.data).getD [] ++ [delim]

/-- The loop over the rows. The end of the line goes to the place of the last delimiter. `none` if there is no byte
before. -/
def rowsText (t : Table) (delim : UInt8) (e : Eol) : Option (List UInt8) :=
  (List.range t.hdr.nrows.toNat).foldlM (fun text row =>
    let text := text ++ colsText t delim (.ofNat row)
    if text = [] then none else some (text.dropLast ++ e.bytes)) []

/-- The text, and what `malloc` finds behind it. -/
def padText (mem : ℕ → UInt8) (text : List UInt8) (size : UInt32) (h : text.length ≤ size.toNat) : Blob where
  bytes := text ++ fetch mem text.length (size.toNat - text.length)
  length_lt := by
    rw [List.length_append, length_fetch, Nat.add_sub_cancel' h]
    exact size.toNat_lt

/-- All the bytes that `*bufsize` counts. -/
def jtTableToText (mem : ℕ → UInt8) (t : Table) (delim : UInt8) (eol : ℤ) : Except TextError Blob :=
  match Eol.ofInt eol with
  | none => .error .type
  | some e =>
    match rowsText (jtSortTable t) delim e with
    | none => .error (.read .fault)
    | some text =>
      if h : text.length ≤ (textSize e (jtSortTable t)).toNat then .ok (padText mem text _ h)
      else .error (.read .fault)

end Write

section Read
def byteAt (buf : List UInt8) (pos : ℕ) : Except ReadError UInt8 :=
  match buf[pos]? with
  | none => .error .outside
  | some b => .ok b

/-- `_jt_detect_eol_type`. If there is no end of a line, the byte behind the buffer is read before an error is
returned. -/
def detectEolType : List UInt8 → Except ReadError Eol
  | [] => .error .outside
  | b :: buf => if b = byteCR then do
      let next ← byteAt buf 0
      .ok (if next = byteLF then .crlf else .cr)
    else detectEolType buf

/-- `_jt_is_eol` for a place before `bufsize`. -/
def isEol (buf : List UInt8) (pos : ℕ) (e : Eol) : Except ReadError Bool := do
  let b ← byteAt buf pos
  if b = byteCR then
    match e with
    | .cr => .ok true
    | .crlf => do
      let next ← byteAt buf (pos + 1)
      .ok (next = byteLF)
  else .ok false

/-- `_jt_detect_cols`. A delimiter above 127 is negative as a `char` and is never found. -/
def detectCols (line : List UInt8) (delim : UInt8) : UInt32 :=
  .ofNat (if delim < 128 then line.count delim + 1 else 1)

/-- The loop of `_jt_detect_line`, with the bytes that are left. -/
def detectLine (buf : List UInt8) (e : Eol) : ℕ → ℕ → Except ReadError ℕ
  | 0, pos => .ok pos
  | n + 1, pos => do
    if ← isEol buf pos e then .ok pos else detectLine buf e n (pos + 1)

/-- The loop of `_jt_detect_field`, with the bytes that are left. The end of a line is not found at the first byte. -/
def detectField (buf : List UInt8) (delim : UInt8) (e : Eol) : ℕ → ℕ → Except ReadError ℕ
  | 0, _ => .error .outside
  | n + 1, pos => do
    let b ← byteAt buf pos
    if b = delim then .ok pos
    else if n = 0 then .ok (pos + 1)
    else if ← isEol buf (pos + 1) e then .ok (pos + 1)
    else detectField buf delim e n (pos + 1)

variable (w : Wchar) (envs : ℕ → Env) (bufsize : ℕ) (delim : UInt8) (e : Eol)

def readFields : ℕ → UInt32 → ℕ → List UInt8 × Table → Except ReadError (List UInt8 × Table)
  | 0, _, _, st => .ok st
  | n + 1, col, fieldStart, st => do
    let fieldEnd ← detectField st.1 delim e (bufsize - fieldStart) fieldStart
    let r ← createCellIn w (envs st.2.cells.length) st.1 fieldStart (.ofNat (fieldEnd - fieldStart)) 0 0 typeEmpty 0
      (st.2.hdr.nrows - 1) col
    let table ← (jtAddCell st.2 r.1).mapError Error.toRead
    readFields n (col + 1) (fieldEnd + 1) (r.2, table)

def Table.addRow (t : Table) : Table := { t with hdr := { t.hdr with nrows := t.hdr.nrows + 1 } }

/-- The loop over the lines. Every line has a byte, so as many rounds as there are bytes are enough. -/
def readLines : ℕ → ℕ → List UInt8 × Table → Except ReadError (List UInt8 × Table)
  | 0, _, st => .ok st
  | n + 1, lineStart, st => do
    let lineEnd ← detectLine st.1 e (bufsize - lineStart) lineStart
    if lineEnd = lineStart then .ok st
    else
      let st ← readFields w envs bufsize delim e st.2.hdr.ncols.toNat 0 lineStart st
      if lineEnd < bufsize then readLines n (lineEnd + 1) (st.1, st.2.addRow) else .ok (st.1, st.2.addRow)

/-- `jt_text_to_table`. The first line gives the number of columns. -/
def jtTextToTable (buf : Blob) (id : UInt32) : Except TextError Table := do
  let e ← (detectEolType buf.bytes).mapError .read
  let lineEnd ← (detectLine buf.bytes e buf.bytes.length 0).mapError .read
  let table ← (jtCreateTable 1 (detectCols (buf.bytes.take lineEnd) delim) id).mapError fun _ => .forbid
  let st ← (readLines w envs buf.bytes.length delim e buf.bytes.length 0 (buf.bytes, table)).mapError .read
  .ok st.2

end Read

section LastRow
variable {w : Wchar} {env : Env} {envs : ℕ → Env} {buf : List UInt8} {bufsize off n : ℕ} {delim : UInt8} {e : Eol}
  {datalen clen fdatalen row col id : UInt32} {type mergeDir : UInt8} {st st' : List UInt8 × Table}

theorem createCellIn_row {r : Cell × List UInt8}
    (h : createCellIn w env buf off datalen clen fdatalen type mergeDir row col = .ok r) : r.1.hdr.row = row := by
  simp only [createCellIn, bind_eq_ok_iff, mapError_eq_ok_iff] at h
  obtain ⟨c, -, d, -, f, -, found, -, cell, hcell, hr⟩ := h
  rcases jtCreateCell_cases { env with strType := found.1 } d c f with ⟨h1, h2, h3, -⟩ | ⟨-, hfault⟩
  · rw [jtCreateCell, if_pos ⟨h1, h2, h3⟩] at hcell
    cases hcell
    cases hr
    rfl
  · rw [hfault] at hcell
    cases hcell

theorem readFields_row (col : UInt32) (fieldStart : ℕ)
    (h : readFields w envs bufsize delim e n col fieldStart st = .ok st') :
    st'.2.hdr.nrows = st.2.hdr.nrows ∧ ∀ c ∈ st'.2.cells, c ∈ st.2.cells ∨ c.hdr.row = st.2.hdr.nrows - 1 := by
  induction n generalizing col fieldStart st with
  | zero =>
    cases h
    exact ⟨rfl, fun c hc => .inl hc⟩
  | succ n ih =>
    simp only [readFields, bind_eq_ok_iff, mapError_eq_ok_iff] at h
    obtain ⟨fieldEnd, -, r, hr, table, htable, h⟩ := h
    obtain ⟨hnrows, hcells⟩ := ih _ _ h
    have hrow := createCellIn_row hr
    unfold jtAddCell at htable
    split_ifs at htable
    cases htable
    refine ⟨hnrows, fun c hc => ?_⟩
    rcases hcells c hc with hc | hc
    · rcases mem_append.1 hc with hc | hc
      · exact .inl hc
      · rw [mem_singleton.1 hc]
        exact .inr hrow
    · exact .inr hc

theorem detectLine_le (pos : ℕ) {lineEnd : ℕ} (h : detectLine buf e n pos = .ok lineEnd) :
    pos ≤ lineEnd ∧ lineEnd ≤ pos + n := by
  induction n generalizing pos with
  | zero =>
    cases h
    exact ⟨le_rfl, le_rfl⟩
  | succ n ih =>
    simp only [detectLine, bind_eq_ok_iff] at h
    obtain ⟨found, -, h⟩ := h
    cases found with
    | false =>
      have := ih (pos + 1) h
      omega
    | true =>
      cases h
      omega

/-- No cell is in the last row, and the rows are fewer than the bytes that are read. -/
structure LastRowEmpty (t : Table) (pos : ℕ) : Prop where
  row_lt : ∀ c ∈ t.cells, c.hdr.row.toNat + 1 < t.hdr.nrows.toNat
  nrows_pos : 0 < t.hdr.nrows.toNat
  nrows_le : 2 * t.hdr.nrows.toNat ≤ pos + 2

theorem LastRowEmpty.addRow {t : Table} {pos lineEnd : ℕ} (h : LastRowEmpty t pos) {t' : Table}
    (hnrows : t'.hdr.nrows = t.hdr.nrows) (hcells : ∀ c ∈ t'.cells, c ∈ t.cells ∨ c.hdr.row = t.hdr.nrows - 1)
    (hlt : pos < lineEnd) (hend : lineEnd < 2 ^ 32) : LastRowEmpty t'.addRow (lineEnd + 1) := by
  have hpos := h.nrows_pos
  have hle := h.nrows_le
  have hadd : t'.addRow.hdr.nrows.toNat = t.hdr.nrows.toNat + 1 := by
    show (t'.hdr.nrows + 1).toNat = _
    rw [hnrows, toNat_add_one (by omega)]
  have hsub := toNat_sub_one hpos
  refine ⟨fun c hc => ?_, by omega, by omega⟩
  rw [hadd]
  rcases hcells c hc with hc | hc
  · exact Nat.lt_succ_of_lt (h.row_lt c hc)
  · rw [hc]
    omega

theorem readLines_lastRowEmpty (pos : ℕ) (hsize : bufsize < 2 ^ 32) (hst : LastRowEmpty st.2 pos)
    (h : readLines w envs bufsize delim e n pos st = .ok st') : ∃ pos, LastRowEmpty st'.2 pos := by
  induction n generalizing pos st with
  | zero =>
    cases h
    exact ⟨pos, hst⟩
  | succ n ih =>
    simp only [readLines, bind_eq_ok_iff] at h
    obtain ⟨lineEnd, hline, h⟩ := h
    obtain ⟨hle, hend⟩ := detectLine_le pos hline
    by_cases heq : lineEnd = pos
    · rw [if_pos heq] at h
      cases h
      exact ⟨pos, hst⟩
    · rw [if_neg heq, bind_eq_ok_iff] at h
      obtain ⟨st1, hfields, h⟩ := h
      obtain ⟨hnrows, hcells⟩ := readFields_row _ _ hfields
      have hrow : LastRowEmpty st1.2.addRow (lineEnd + 1) := hst.addRow hnrows hcells (by omega) (by omega)
      split_ifs at h
      · exact ih (lineEnd + 1) hrow h
      · cases h
        exact ⟨_, hrow⟩

theorem jtTextToTable_lastRowEmpty {buf : Blob} {t : Table}
    (h : jtTextToTable w envs delim buf id = .ok t) : ∃ pos, LastRowEmpty t pos := by
  simp only [jtTextToTable, bind_eq_ok_iff, mapError_eq_ok_iff] at h
  obtain ⟨e, -, lineEnd, -, table, htable, st, hst, h⟩ := h
  unfold jtCreateTable at htable
  split_ifs at htable
  cases htable
  cases h
  refine readLines_lastRowEmpty 0 buf.length_lt ⟨fun c hc => ?_, ?_, ?_⟩ hst
  · exact absurd hc not_mem_nil
  · exact Nat.one_pos
  · exact le_rfl

end LastRow

section Main
def Table.textAt (t : Table) (row col : UInt32) : Option (List UInt8) :=
  (t.cells.find? (Cell.at · row col)).map Cell.data

/-- The text form of `t` is read as a table with the same rows, columns and texts. -/
def TextRoundTrip (w : Wchar) (envs : ℕ → Env) (mem : ℕ → UInt8) (id : UInt32) (delim : UInt8) (eol : ℤ) (t : Table) :
    Prop :=
  ∃ buf t', jtTableToText mem t delim eol = .ok buf ∧ jtTextToTable w envs delim buf id = .ok t' ∧
    t'.hdr.nrows = t.hdr.nrows ∧ t'.hdr.ncols = t.hdr.ncols ∧ ∀ row col, t'.textAt row col = t.textAt row col

structure Rectangular (t : Table) : Prop where
  nrows_pos : 0 < t.hdr.nrows
  ncols_pos : 0 < t.hdr.ncols
  exists_cell : ∀ row < t.hdr.nrows, ∀ col < t.hdr.ncols, ∃ c ∈ t.cells, c.hdr.row = row ∧ c.hdr.col = col

theorem textAt_eq_none {t : Table} {row : UInt32} (h : ∀ c ∈ t.cells, c.hdr.row ≠ row) (col : UInt32) :
    t.textAt row col = none := by
  rw [Table.textAt, Option.map_eq_none_iff, find?_eq_none]
  intro c hc hat
  exact h c hc (of_decide_eq_true hat).1.symm

theorem isSome_textAt {t : Table} {row col : UInt32} (h : ∃ c ∈ t.cells, c.hdr.row = row ∧ c.hdr.col = col) :
    (t.textAt row col).isSome = true := by
  obtain ⟨c, hc, hrow, hcol⟩ := h
  rw [Table.textAt, Option.isSome_map, find?_isSome]
  exact ⟨c, hc, decide_eq_true ⟨hrow.symm, hcol.symm⟩⟩

/-- `jt_text_to_table` counts a row behind the last line that it reads, so no table comes back. -/
theorem not_textRoundTrip {t : Table} (h : Rectangular t) (w : Wchar) (envs : ℕ → Env) (mem : ℕ → UInt8)
    (id : UInt32) (delim : UInt8) (eol : ℤ) : ¬ TextRoundTrip w envs mem id delim eol t := by
  rintro ⟨buf, t', -, hread, hnrows, -, htext⟩
  obtain ⟨pos, hempty⟩ := jtTextToTable_lastRowEmpty hread
  have hpos : 0 < t.hdr.nrows.toNat := UInt32.lt_iff_toNat_lt.1 h.nrows_pos
  have hlast := toNat_sub_one hpos
  have hsome := isSome_textAt (h.exists_cell (t.hdr.nrows - 1) (UInt32.lt_iff_toNat_lt.2 (by omega)) 0 h.ncols_pos)
  rw [← htext, textAt_eq_none] at hsome
  · cases hsome
  · intro c hc heq
    have hlt := hempty.row_lt c hc
    rw [heq, hnrows] at hlt
    omega

def single : Table where
  hdr := ⟨0, 1, 1, 1, 1⟩
  cells := [⟨⟨0, 0, 0, 0, 0, 0, typeJcs, 0, 1, 0, 0⟩, [0x61], [], [], rfl, length_nil, length_nil⟩]

theorem single_rectangular : Rectangular single := by
  refine ⟨by decide, by decide, fun row hrow col hcol => ⟨_, mem_cons_self, ?_, ?_⟩⟩
  · exact UInt32.toNat_inj.1 (Nat.lt_one_iff.1 (UInt32.lt_iff_toNat_lt.1 hrow)).symm
  · exact UInt32.toNat_inj.1 (Nat.lt_one_iff.1 (UInt32.lt_iff_toNat_lt.1 hcol)).symm

theorem not_textRoundTrip_comma : Rectangular single ∧
    ¬ TextRoundTrip ⟨4, by decide, fun _ => 0⟩ (fun _ => ⟨0, 0, 0, 0, .raw⟩) (fun _ => 0) 0 0x2c 1 single :=
  ⟨single_rectangular, not_textRoundTrip single_rectangular _ _ _ _ _ _⟩

/-- The text is `a`, the end of its line and a byte that is not written, which ends a line here. It is read as a table
of two rows. -/
theorem not_textRoundTrip_single : Rectangular single ∧ (∀ c ∈ single.cells, 0x2c ∉ c.data ∧ byteCR ∉ c.data) ∧
    ¬ TextRoundTrip ⟨4, by decide, fun _ => 0⟩ (fun _ => ⟨0, 0, 0, 0, .raw⟩) (fun _ => byteCR) 0 0x2c 1 single := by
  refine ⟨single_rectangular, by decide, ?_⟩
  rintro ⟨buf, t', hbuf, ht', hnrows, -⟩
  cases hbuf
  cases ht'
  exact absurd hnrows (by decide)

end Main
end Prj.Jlib.Jtable
