import Prj.Base.Image

/-!
Tables of cells and their form as a buffer (`jlib/src/jtable.c`).

Numbers of type `uint32_t` wrap around, the machine stores their low bytes first, and every allocation
succeeds.
-/
namespace Prj.Jlib.Jtable
open Prj.Base

section Header
/-- Four bits of a byte have a zero. -/
scoped instance neZero_nibble : NeZero 16 := ⟨by decide⟩

/-- `struct jt_cell_hdr`; `unused` are the bits before `merge_dir`. -/
structure CellHdr where
  flags : UInt8
  unused : Fin 16
  mergeDir : Fin 16
  id : UInt32
  row : UInt32
  col : UInt32
  type : UInt8
  off : UInt32
  datalen : UInt32
  clen : UInt32
  fdatalen : UInt32
  deriving DecidableEq

structure TableHdr where
  id : UInt32
  nrows : UInt32
  ncols : UInt32
  lastCellId : UInt32
  ncells : UInt32
  deriving DecidableEq

def cellWidths : List ℕ := [1, 1, 4, 4, 4, 1, 4, 4, 4, 4]

def tableWidths : List ℕ := [4, 4, 4, 4, 4]

def CellHdr.fields (h : CellHdr) : List ℕ :=
  [h.flags.toNat, h.unused.val + 16 * h.mergeDir.val, h.id.toNat, h.row.toNat, h.col.toNat, h.type.toNat,
    h.off.toNat, h.datalen.toNat, h.clen.toNat, h.fdatalen.toNat]

def CellHdr.ofFields (f : ℕ → ℕ) : CellHdr where
  flags := .ofNat (f 0)
  unused := Fin.ofNat 16 (f 1)
  mergeDir := Fin.ofNat 16 (f 1 / 16)
  id := .ofNat (f 2)
  row := .ofNat (f 3)
  col := .ofNat (f 4)
  type := .ofNat (f 5)
  off := .ofNat (f 6)
  datalen := .ofNat (f 7)
  clen := .ofNat (f 8)
  fdatalen := .ofNat (f 9)

def TableHdr.fields (h : TableHdr) : List ℕ :=
  [h.id.toNat, h.nrows.toNat, h.ncols.toNat, h.lastCellId.toNat, h.ncells.toNat]

def TableHdr.ofFields (f : ℕ → ℕ) : TableHdr where
  id := .ofNat (f 0)
  nrows := .ofNat (f 1)
  ncols := .ofNat (f 2)
  lastCellId := .ofNat (f 3)
  ncells := .ofNat (f 4)

def CellHdr.bytes (h : CellHdr) : List UInt8 := packStruct cellWidths h.fields

def TableHdr.bytes (h : TableHdr) : List UInt8 := packStruct tableWidths h.fields

def CellHdr.ofBytes (bs : List UInt8) : CellHdr :=
  .ofFields fun i => (unpackStruct cellWidths bs).getD i 0

def TableHdr.ofBytes (bs : List UInt8) : TableHdr :=
  .ofFields fun i => (unpackStruct tableWidths bs).getD i 0

theorem CellHdr.fit (h : CellHdr) : Fit cellWidths h.fields := by
  have hbits : h.unused.val + 16 * h.mergeDir.val < 256 := by omega
  have hplace : Fit [4, 4, 4] [h.id.toNat, h.row.toNat, h.col.toNat] :=
    fit_cons32 _ (fit_cons32 _ (fit_cons32 _ .nil))
  have hdata : Fit [4, 4, 4, 4] [h.off.toNat, h.datalen.toNat, h.clen.toNat, h.fdatalen.toNat] :=
    fit_cons32 _ (fit_cons32 _ (fit_cons32 _ (fit_cons32 _ .nil)))
  exact fit_cons8 _ (.cons hbits (List.rel_append hplace (fit_cons8 _ hdata)))

theorem TableHdr.fit (h : TableHdr) : Fit tableWidths h.fields := by
  exact fit_cons32 _ (fit_cons32 _ (fit_cons32 _ (fit_cons32 _ (fit_cons32 _ .nil))))

@[simp] theorem CellHdr.length_bytes (h : CellHdr) : h.bytes.length = 31 := length_packStruct h.fit

@[simp] theorem TableHdr.length_bytes (h : TableHdr) : h.bytes.length = 20 := length_packStruct h.fit

theorem CellHdr.ofBytes_bytes (h : CellHdr) : ofBytes h.bytes = h := by
  have hmerge : (h.unused.val + 16 * h.mergeDir.val) / 16 % 16 = h.mergeDir.val := by omega
  rw [ofBytes, bytes, unpackStruct_packStruct h.fit]
  cases h
  simp_all [ofFields, fields, Fin.ext_iff]

theorem TableHdr.ofBytes_bytes (h : TableHdr) : ofBytes h.bytes = h := by
  rw [ofBytes, bytes, unpackStruct_packStruct h.fit]
  simp [ofFields, fields]

end Header

section Table
/-- The return values below zero. A `fault` is none of them: the call writes outside of what it has
allocated. -/
inductive Error
  | forbid
  | limit
  | exist
  | fault
  deriving DecidableEq, Repr

def typeEmpty : UInt8 := 0x00
def typeChar : UInt8 := 0x01
def typeInt : UInt8 := 0x02
def typeFloat : UInt8 := 0x03
def typeJcs : UInt8 := 0x04
def typeW : UInt8 := 0x05
def typeRaw : UInt8 := 0x06
def typeFormula : UInt8 := 0x07

/-- The results of `_jt_detect_str_type`. -/
inductive StrType
  | jcs
  | w
  | char
  | raw
  deriving DecidableEq, Repr

def StrType.toType : StrType → UInt8
  | jcs => typeJcs
  | w => typeW
  | char => typeChar
  | raw => typeRaw

/-- What a call of `jt_create_cell` finds: the members that it does not set, and the answer of
`_jt_detect_str_type`, which reads up to a terminator that may stand behind the data. -/
structure Env where
  flags : UInt8
  unused : Fin 16
  id : UInt32
  off : UInt32
  strType : StrType

/-- Bytes and their length of type `uint32_t`. -/
structure Blob where
  bytes : List UInt8
  length_lt : bytes.length < 2 ^ 32

def noBytes : Blob := ⟨[], by decide⟩

def Blob.size (b : Blob) : UInt32 := .ofNat b.bytes.length

theorem Blob.toNat_size (b : Blob) : b.size.toNat = b.bytes.length :=
  UInt32.toNat_ofNat_of_lt' b.length_lt

def Blob.load (mem : ℕ → UInt8) (p : ℕ) (n : UInt32) : Blob where
  bytes := fetch mem p n.toNat
  length_lt := by
    rw [length_fetch]
    exact n.toNat_lt

structure Cell where
  hdr : CellHdr
  data : List UInt8
  comments : List UInt8
  fdata : List UInt8
  data_length : data.length = hdr.datalen.toNat
  comments_length : comments.length = hdr.clen.toNat
  fdata_length : fdata.length = hdr.fdatalen.toNat

theorem length_nil : ([] : List UInt8).length = (0 : UInt32).toNat := rfl

structure Table where
  hdr : TableHdr
  cells : List Cell

def isDigit (b : UInt8) : Prop := 0x30 ≤ b ∧ b ≤ 0x39

instance : DecidablePred isDigit := fun _ => inferInstanceAs (Decidable (_ ∧ _))

/-- The loop of `jt_detect_type`. -/
def detectLoop (strType : StrType) (dotsign : UInt8) : Bool → List UInt8 → UInt8
  | hasDot, [] => if hasDot then typeFloat else typeInt
  | hasDot, b :: bs =>
    if isDigit b then detectLoop strType dotsign hasDot bs
    else if b = dotsign then detectLoop strType dotsign true bs
    else strType.toType

def jtDetectType (strType : StrType) (buf : List UInt8) (dotsign formulasign : UInt8) : UInt8 :=
  if buf.head? = some formulasign then typeFormula else detectLoop strType dotsign false buf

/-- `malloc(len + 1)` in 32 bits and `len + 1` bytes written to it. -/
def copies (b : Blob) : Prop := b.bytes ≠ [] → b.size + 1 ≠ 0

instance (b : Blob) : Decidable (copies b) := inferInstanceAs (Decidable (_ → _))

def jtCreateCell (env : Env) (data comments format : Blob) (type mergeDir : UInt8) (row col : UInt32) :
    Except Error Cell :=
  if copies comments ∧ copies data ∧ copies format then
    .ok
      { hdr :=
          { flags := env.flags
            unused := env.unused
            mergeDir := Fin.ofNat 16 mergeDir.toNat
            id := env.id
            row := row
            col := col
            type :=
              if type = typeEmpty ∧ data.bytes ≠ [] then
                jtDetectType env.strType data.bytes 0x2e 0x3d
              else type
            off := env.off
            datalen := data.size
            clen := comments.size
            fdatalen := format.size }
        data := data.bytes
        comments := comments.bytes
        fdata := format.bytes
        data_length := data.toNat_size.symm
        comments_length := comments.toNat_size.symm
        fdata_length := format.toNat_size.symm }
  else .error .fault

def jtCreateTable (nrows ncols id : UInt32) : Except Error Table :=
  if nrows = 0 ∨ ncols = 0 then .error .forbid
  else .ok ⟨⟨id, nrows, ncols, 0, 0⟩, []⟩

def Cell.setId (cell : Cell) (id : UInt32) : Cell := { cell with hdr := { cell.hdr with id := id } }

def Cell.setOff (cell : Cell) (off : UInt32) : Cell := { cell with hdr := { cell.hdr with off := off } }

def Cell.at (cell : Cell) (row col : UInt32) : Bool := row = cell.hdr.row ∧ col = cell.hdr.col

def Table.push (table : Table) (cell : Cell) : Table where
  hdr :=
    { table.hdr with
      lastCellId := table.hdr.lastCellId + 1
      ncells := table.hdr.ncells + 1 }
  cells := table.cells ++ [cell.setId table.hdr.lastCellId]

def jtAddCell (table : Table) (cell : Cell) : Except Error Table :=
  if cell.hdr.row > table.hdr.nrows - 1 ∨ cell.hdr.col > table.hdr.ncols - 1 then .error .limit
  else if table.cells.any (Cell.at · cell.hdr.row cell.hdr.col) then .error .exist
  else .ok (table.push cell)

theorem toNat_add_one {v : UInt32} (h : v.toNat + 1 < 2 ^ 32) : (v + 1).toNat = v.toNat + 1 := by
  exact Nat.mod_eq_of_lt h

theorem toNat_sub_one {v : UInt32} (h : 0 < v.toNat) : (v - 1).toNat = v.toNat - 1 := by
  have hle : (1 : UInt32) ≤ v := UInt32.le_iff_toNat_le.2 h
  rw [UInt32.toNat_sub_of_le _ _ hle]
  rfl

end Table

section Buffer
/-- The first loop of `jt_table_to_buf` gives every cell its place. -/
def placeCells : UInt32 → List Cell → List Cell
  | _, [] => []
  | prevoff, cell :: cells => cell.setOff prevoff ::
      placeCells (prevoff + (cell.hdr.datalen + cell.hdr.clen + cell.hdr.fdatalen)) cells

def dataSize : UInt32 → List Cell → UInt32
  | bufsize, [] => bufsize
  | bufsize, cell :: cells =>
    dataSize (bufsize + (cell.hdr.datalen + cell.hdr.clen + cell.hdr.fdatalen)) cells

/-- The parts of a cell and their places. The places are sums of pointers and do not wrap around. -/
def dataWrites (cell : Cell) : List (ℕ × List UInt8) :=
  let off := cell.hdr.off.toNat
  let datalen := cell.hdr.datalen.toNat
  let clen := cell.hdr.clen.toNat
  (if datalen ≠ 0 then [(off, cell.data)] else []) ++ (if clen ≠ 0 then [(off + datalen, cell.comments)] else []) ++
    (if cell.hdr.fdatalen.toNat ≠ 0 then [(off + datalen + clen, cell.fdata)] else [])

def cellWrites : UInt32 → List Cell → List (ℕ × List UInt8)
  | _, [] => []
  | pos, cell :: cells => (pos.toNat, cell.hdr.bytes) :: (dataWrites cell ++ cellWrites (pos + 31) cells)

def Table.hsize (table : Table) : UInt32 := .ofNat (20 + 31 * table.hdr.ncells.toNat)

def Table.writes (table : Table) : List (ℕ × List UInt8) :=
  (0, table.hdr.bytes) :: cellWrites 20 (placeCells table.hsize table.cells)

/-- The size of the buffer, and the memory from its first byte on; `mem` is what `malloc` finds there. -/
def jtTableToBuf (table : Table) (mem : ℕ → UInt8) : Except Error (UInt32 × (ℕ → UInt8)) :=
  let bufsize := dataSize 0 table.cells + table.hsize
  if ∀ w ∈ table.writes, w.1 + w.2.length ≤ bufsize.toNat then .ok (bufsize, storeAll mem table.writes)
  else .error .fault

/-- The cell whose header is at `pos`. -/
def readCell (buf : ℕ → UInt8) (env : Env) (pos : UInt32) : Except Error Cell :=
  let hdr := CellHdr.ofBytes (fetch buf pos.toNat 31)
  let off := hdr.off.toNat
  jtCreateCell env (.load buf off hdr.datalen) (.load buf (off + hdr.datalen.toNat) hdr.clen)
    (.load buf (off + hdr.datalen.toNat + hdr.clen.toNat) hdr.fdatalen)
    hdr.type (.ofNat hdr.mergeDir.val) hdr.row hdr.col

def Table.setBack (table : Table) : Table :=
  { table with hdr := { table.hdr with ncells := table.hdr.ncells - 1 } }

/-- The loop of `jt_buf_to_table`; the counter that `jt_add_cell` increments is set back. -/
def readCells (buf : ℕ → UInt8) : ℕ → (ℕ → Env) → UInt32 → Table → Except Error Table
  | 0, _, _, table => .ok table
  | n + 1, envs, pos, table => do
    let cell ← readCell buf (envs 0) pos
    let table ← jtAddCell table cell
    readCells buf n (fun i => envs (i + 1)) (pos + 31) table.setBack

/-- The header is read over the one of the table, its cells stay. -/
def jtBufToTable (envs : ℕ → Env) (table : Table) (buf : ℕ → UInt8) : Except Error Table :=
  let hdr := TableHdr.ofBytes (fetch buf 0 20)
  readCells buf hdr.ncells.toNat envs 20 { table with hdr := hdr }

end Buffer
end Prj.Jlib.Jtable
