import Prj.Jlib.Jtable

/-! A table, its buffer, and the table that is read from the buffer. -/
namespace Prj.Jlib.Jtable
open Prj.Base List

structure Content where
  row : UInt32
  col : UInt32
  data : List UInt8
  comments : List UInt8
  fdata : List UInt8
  type : UInt8
  mergeDir : Fin 16
  deriving DecidableEq

def Cell.content (cell : Cell) : Content :=
  ⟨cell.hdr.row, cell.hdr.col, cell.data, cell.comments, cell.fdata, cell.hdr.type, cell.hdr.mergeDir⟩

/-- The tables that `jt_create_table` and `jt_add_cell` make. -/
inductive Built : Table → Prop
  | create {nrows ncols id : UInt32} {table : Table} (h : jtCreateTable nrows ncols id = .ok table) :
      Built table
  | add {table table' : Table} {cell : Cell} {env : Env} {data comments format : Blob}
      {type mergeDir : UInt8} {row col : UInt32} (htable : Built table)
      (hcell : jtCreateCell env data comments format type mergeDir row col = .ok cell)
      (hadd : jtAddCell table cell = .ok table') : Built table'

/-- The table read from the buffer of `table` has its dimensions and its cells. -/
def Reconstructs (table target : Table) : Prop :=
  ∀ mem envs, ∃ size buf table', jtTableToBuf table mem = .ok (size, buf) ∧
    jtBufToTable envs target buf = .ok table' ∧ table'.hdr.nrows = table.hdr.nrows ∧
    table'.hdr.ncols = table.hdr.ncols ∧
    (table'.cells.map Cell.content).Perm (table.cells.map Cell.content)

def Cell.weight (cell : Cell) : ℕ := cell.hdr.datalen.toNat + cell.hdr.clen.toNat + cell.hdr.fdatalen.toNat

def weightOf (cells : List Cell) : ℕ := (cells.map Cell.weight).sum

def Table.total (table : Table) : ℕ := 20 + 31 * table.cells.length + weightOf table.cells

section Valid
variable {table table' : Table} {cell : Cell} {env : Env} {data comments format : Blob}
  {type mergeDir dot formula : UInt8} {row col : UInt32} {strType : StrType}

def Cell.Typed (cell : Cell) : Prop := cell.hdr.type = typeEmpty → cell.data = []

def Cell.Inside (cell : Cell) (hdr : TableHdr) : Prop :=
  cell.hdr.row ≤ hdr.nrows - 1 ∧ cell.hdr.col ≤ hdr.ncols - 1

def Separate (c d : Cell) : Prop := ¬ (d.hdr.row = c.hdr.row ∧ d.hdr.col = c.hdr.col)

structure Table.Valid (table : Table) : Prop where
  inside : ∀ c ∈ table.cells, c.Inside table.hdr
  separate : table.cells.Pairwise Separate
  typed : ∀ c ∈ table.cells, c.Typed
  ncells : table.hdr.ncells = UInt32.ofNat table.cells.length

theorem detectLoop_ne_empty {bs : List UInt8} {hasDot : Bool} : detectLoop strType dot hasDot bs ≠ typeEmpty := by
  induction bs generalizing hasDot with
  | nil =>
    rw [detectLoop]
    cases hasDot <;> decide
  | cons b bs ih =>
    rw [detectLoop]
    split_ifs
    · exact ih
    · exact ih
    · cases strType <;> decide

theorem jtDetectType_ne_empty {buf : List UInt8} : jtDetectType strType buf dot formula ≠ typeEmpty := by
  unfold jtDetectType
  split_ifs
  · decide
  · exact detectLoop_ne_empty

theorem jtCreateCell_typed
    (h : jtCreateCell env data comments format type mergeDir row col = .ok cell) : cell.Typed := by
  unfold jtCreateCell at h
  split_ifs at h with hcopies htype
  · cases h
    intro hempty
    exact absurd hempty jtDetectType_ne_empty
  · cases h
    intro hempty
    by_contra hdata
    exact htype ⟨hempty, hdata⟩

theorem jtCreateCell_content {content : Content} (hcomments : copies comments) (hdata : copies data)
    (hformat : copies format) (htyped : type = typeEmpty → data.bytes = [])
    (hcontent : ⟨row, col, data.bytes, comments.bytes, format.bytes, type, Fin.ofNat 16 mergeDir.toNat⟩ =
      content) : ∃ cell, jtCreateCell env data comments format type mergeDir row col = .ok cell ∧
      cell.content = content := by
  have hkeep : ¬ (type = typeEmpty ∧ data.bytes ≠ []) := fun h => h.2 (htyped h.1)
  refine ⟨_, if_pos ⟨hcomments, hdata, hformat⟩, ?_⟩
  rw [← hcontent]
  simp only [Cell.content, if_neg hkeep]

theorem jtAddCell_ok_iff : jtAddCell table cell = .ok table' ↔
    cell.Inside table.hdr ∧ (∀ c ∈ table.cells, Separate c cell) ∧ table' = table.push cell := by
  have hinside : cell.Inside table.hdr ↔
      ¬ (cell.hdr.row > table.hdr.nrows - 1 ∨ cell.hdr.col > table.hdr.ncols - 1) := by
    rw [not_or, UInt32.not_lt, UInt32.not_lt]
    rfl
  have hseparate : (∀ c ∈ table.cells, Separate c cell) ↔
      ¬ table.cells.any (Cell.at · cell.hdr.row cell.hdr.col) = true := by
    simp [Separate, Cell.at]
  rw [hinside, hseparate, jtAddCell]
  split_ifs with hlimit hexist
  · simp [hlimit]
  · simp [hlimit, hexist]
  · simp [hlimit, hexist, eq_comm]

theorem Table.Valid.create {nrows ncols id : UInt32} (h : jtCreateTable nrows ncols id = .ok table) : table.Valid := by
  unfold jtCreateTable at h
  split_ifs at h
  cases h
  exact ⟨by simp, .nil, by simp, rfl⟩

theorem Table.Valid.add (hvalid : table.Valid) (htyped : cell.Typed)
    (hadd : jtAddCell table cell = .ok table') : table'.Valid := by
  obtain ⟨hinside, hseparate, rfl⟩ := jtAddCell_ok_iff.1 hadd
  refine ⟨forall_mem_append.2 ⟨hvalid.inside, forall_mem_singleton.2 hinside⟩, ?_,
    forall_mem_append.2 ⟨hvalid.typed, forall_mem_singleton.2 htyped⟩, ?_⟩
  · rw [Table.push, pairwise_append]
    exact ⟨hvalid.separate, pairwise_singleton _ _, fun c hc => forall_mem_singleton.2 (hseparate c hc)⟩
  · rw [Table.push, length_append, UInt32.ofNat_add, ← hvalid.ncells]
    rfl

theorem Built.valid (h : Built table) : table.Valid := by
  induction h with
  | create h => exact .create h
  | add _ hcell hadd ih => exact ih.add (jtCreateCell_typed hcell) hadd

end Valid

section Fault
variable {table : Table} {cells : List Cell} {cell : Cell} {bufsize : ℕ} {pos off : UInt32}

theorem toNat_add_of_lt {x y : UInt32} (h : x.toNat + y.toNat < 2 ^ 32) : (x + y).toNat = x.toNat + y.toNat := by
  rw [UInt32.toNat_add, Nat.mod_eq_of_lt h]

theorem toNat_add_weight (off : UInt32) (cell : Cell) (h : off.toNat + cell.weight < 2 ^ 32) :
    (off + (cell.hdr.datalen + cell.hdr.clen + cell.hdr.fdatalen)).toNat = off.toNat + cell.weight := by
  unfold Cell.weight at h ⊢
  have htwo : (cell.hdr.datalen + cell.hdr.clen).toNat = cell.hdr.datalen.toNat + cell.hdr.clen.toNat :=
    toNat_add_of_lt (by omega)
  have hthree : (cell.hdr.datalen + cell.hdr.clen + cell.hdr.fdatalen).toNat =
      cell.hdr.datalen.toNat + cell.hdr.clen.toNat + cell.hdr.fdatalen.toNat := by
    rw [toNat_add_of_lt (by omega), htwo]
  rw [toNat_add_of_lt (by omega), hthree]

@[simp] theorem length_placeCells : (placeCells off cells).length = cells.length := by
  induction cells generalizing off with
  | nil => rfl
  | cons cell cells ih => rw [placeCells, length_cons, ih, length_cons]

theorem weight_le (hoff : cell.hdr.off.toNat ≤ bufsize)
    (h : ∀ w ∈ dataWrites cell, w.1 + w.2.length ≤ bufsize) : cell.hdr.off.toNat + cell.weight ≤ bufsize := by
  have hdata : cell.hdr.datalen.toNat ≠ 0 → cell.hdr.off.toNat + cell.hdr.datalen.toNat ≤ bufsize := by
    intro hne
    have := h (cell.hdr.off.toNat, cell.data) (by simp [dataWrites, hne])
    rwa [cell.data_length] at this
  have hcomments : cell.hdr.clen.toNat ≠ 0 →
      cell.hdr.off.toNat + cell.hdr.datalen.toNat + cell.hdr.clen.toNat ≤ bufsize := by
    intro hne
    have := h (cell.hdr.off.toNat + cell.hdr.datalen.toNat, cell.comments) (by simp [dataWrites, hne])
    rwa [cell.comments_length] at this
  have hfdata : cell.hdr.fdatalen.toNat ≠ 0 → cell.hdr.off.toNat + cell.hdr.datalen.toNat +
      cell.hdr.clen.toNat + cell.hdr.fdatalen.toNat ≤ bufsize := by
    intro hne
    have := h (cell.hdr.off.toNat + cell.hdr.datalen.toNat + cell.hdr.clen.toNat, cell.fdata)
      (by simp [dataWrites, hne])
    rwa [cell.fdata_length] at this
  unfold Cell.weight
  omega

theorem weightOf_cons : weightOf (cell :: cells) = cell.weight + weightOf cells := by
  rw [weightOf, map_cons, sum_cons, weightOf]

theorem places_le (hbuf : bufsize < 2 ^ 32) (hpos : pos.toNat ≤ bufsize)
    (h : ∀ w ∈ cellWrites pos (placeCells off cells), w.1 + w.2.length ≤ bufsize) :
    pos.toNat + 31 * cells.length ≤ bufsize ∧ (off.toNat ≤ bufsize → off.toNat + weightOf cells ≤ bufsize) := by
  induction cells generalizing pos off with
  | nil => exact ⟨hpos, fun hoff => hoff⟩
  | cons cell cells ih =>
    have hhead := h _ mem_cons_self
    have hnext : (pos + 31).toNat = pos.toNat + 31 := toNat_add_of_lt (lt_of_le_of_lt hhead hbuf)
    obtain ⟨hheaders, hparts⟩ := ih (by rw [hnext]; exact hhead) fun w hw =>
      h w (mem_cons_of_mem _ (mem_append_right _ hw))
    rw [length_cons, weightOf_cons]
    refine ⟨by omega, fun hoff => ?_⟩
    have hweight : off.toNat + cell.weight ≤ bufsize := weight_le hoff fun w hw =>
      h w (mem_cons_of_mem _ (mem_append_left _ hw))
    rw [toNat_add_weight off cell (lt_of_le_of_lt hweight hbuf)] at hparts
    omega

theorem Table.Valid.toNat_ncells (hvalid : table.Valid) (h : table.cells.length < 2 ^ 32) :
    table.hdr.ncells.toNat = table.cells.length := by
  rw [hvalid.ncells, UInt32.toNat_ofNat_of_lt' h]

theorem toNat_hsize (hvalid : table.Valid) (h : 20 + 31 * table.cells.length < 2 ^ 32) :
    table.hsize.toNat = 20 + 31 * table.cells.length := by
  rw [Table.hsize, hvalid.toNat_ncells (by omega), UInt32.toNat_ofNat_of_lt' h]

theorem total_lt_of_ok (hvalid : table.Valid) {mem : ℕ → UInt8} {r : UInt32 × (ℕ → UInt8)}
    (h : jtTableToBuf table mem = .ok r) : table.total < 2 ^ 32 := by
  unfold jtTableToBuf at h
  simp only at h
  split_ifs at h with hfit
  have hbuf := (dataSize 0 table.cells + table.hsize).toNat_lt
  have hhdr : (20 : UInt32).toNat ≤ (dataSize 0 table.cells + table.hsize).toNat := by
    have := hfit _ mem_cons_self
    rwa [TableHdr.length_bytes] at this
  have hcells := fun w hw => hfit w (mem_cons_of_mem _ hw)
  obtain ⟨hheaders, hparts⟩ := places_le hbuf hhdr hcells
  rw [toNat_hsize hvalid (lt_of_le_of_lt hheaders hbuf)] at hparts
  exact lt_of_le_of_lt (hparts hheaders) hbuf

end Fault

section Writes
variable {table : Table} {cells : List Cell} {cell : Cell} {pos off bufsize : UInt32} {w : ℕ × List UInt8}

theorem mem_dataWrites (hw : w ∈ dataWrites cell) :
    cell.hdr.off.toNat ≤ w.1 ∧ w.1 + w.2.length ≤ cell.hdr.off.toNat + cell.weight := by
  unfold dataWrites at hw
  unfold Cell.weight
  simp only [mem_append, mem_ite_nil_right, mem_singleton] at hw
  rcases hw with (⟨-, rfl⟩ | ⟨-, rfl⟩) | ⟨-, rfl⟩
  · simp only [cell.data_length]
    omega
  · simp only [cell.comments_length]
    omega
  · simp only [cell.fdata_length]
    omega

theorem pairwise_dataWrites : (dataWrites cell).Pairwise Apart := by
  have hdata := cell.data_length
  have hcomments := cell.comments_length
  simp only [dataWrites, pairwise_append, mem_append, mem_ite_nil_right, mem_singleton]
  have hone (n : ℕ) (w : ℕ × List UInt8) : (if n ≠ 0 then [w] else []).Pairwise Apart := by
    split_ifs
    · exact pairwise_singleton _ _
    · exact .nil
  refine ⟨⟨hone _ _, hone _ _, ?_⟩, hone _ _, ?_⟩
  · rintro v ⟨-, rfl⟩ w ⟨-, rfl⟩
    exact .inl (by simp only; omega)
  · rintro v (⟨-, rfl⟩ | ⟨-, rfl⟩) w ⟨-, rfl⟩
    all_goals exact .inl (by simp only; omega)

theorem toNat_next (hpos : pos.toNat + 31 * (cell :: cells).length ≤ off.toNat)
    (hoff : off.toNat + weightOf (cell :: cells) < 2 ^ 32) : (pos + 31).toNat = pos.toNat + 31 ∧
      (off + (cell.hdr.datalen + cell.hdr.clen + cell.hdr.fdatalen)).toNat = off.toNat + cell.weight := by
  rw [weightOf_cons] at hoff
  rw [length_cons] at hpos
  constructor
  · apply toNat_add_of_lt
    change _ + 31 < _
    omega
  · apply toNat_add_weight
    omega

section
variable (hpos : pos.toNat + 31 * cells.length ≤ off.toNat) (hoff : off.toNat + weightOf cells < 2 ^ 32)
include hpos hoff

theorem mem_cellWrites (hw : w ∈ cellWrites pos (placeCells off cells)) :
    (pos.toNat ≤ w.1 ∧ w.1 + w.2.length ≤ pos.toNat + 31 * cells.length) ∨
      (off.toNat ≤ w.1 ∧ w.1 + w.2.length ≤ off.toNat + weightOf cells) := by
  induction cells generalizing pos off with
  | nil => cases hw
  | cons cell cells ih =>
    obtain ⟨hpos', hoff'⟩ := toNat_next hpos hoff
    rw [weightOf_cons] at hoff ⊢
    rw [length_cons] at hpos ⊢
    rw [placeCells, cellWrites, mem_cons, mem_append] at hw
    rcases hw with rfl | hw | hw
    · simp only [CellHdr.length_bytes]
      omega
    · have hin := mem_dataWrites hw
      change off.toNat ≤ w.1 ∧ w.1 + w.2.length ≤ off.toNat + cell.weight at hin
      omega
    · have hin := ih (by omega) (by omega) hw
      omega

theorem pairwise_cellWrites : (cellWrites pos (placeCells off cells)).Pairwise Apart := by
  induction cells generalizing pos off with
  | nil => exact .nil
  | cons cell cells ih =>
    obtain ⟨hpos', hoff'⟩ := toNat_next hpos hoff
    rw [weightOf_cons] at hoff
    rw [length_cons] at hpos
    have hpos'' : (pos + 31).toNat + 31 * cells.length ≤
        (off + (cell.hdr.datalen + cell.hdr.clen + cell.hdr.fdatalen)).toNat := by omega
    have hoff'' : (off + (cell.hdr.datalen + cell.hdr.clen + cell.hdr.fdatalen)).toNat + weightOf cells <
        2 ^ 32 := by omega
    rw [placeCells, cellWrites, pairwise_cons, pairwise_append]
    refine ⟨?_, pairwise_dataWrites, ih hpos'' hoff'', ?_⟩
    · intro w hw
      simp only [Apart, CellHdr.length_bytes]
      rcases mem_append.1 hw with hw | hw
      · have hin := mem_dataWrites hw
        change off.toNat ≤ w.1 ∧ _ at hin
        omega
      · have hin := mem_cellWrites hpos'' hoff'' hw
        omega
    · intro v hv w hw
      have hin := mem_dataWrites hv
      change off.toNat ≤ v.1 ∧ v.1 + v.2.length ≤ off.toNat + cell.weight at hin
      have hin' := mem_cellWrites hpos'' hoff'' hw
      unfold Apart
      omega

end

theorem toNat_dataSize (h : bufsize.toNat + weightOf cells < 2 ^ 32) :
    (dataSize bufsize cells).toNat = bufsize.toNat + weightOf cells := by
  induction cells generalizing bufsize with
  | nil => rfl
  | cons cell cells ih =>
    rw [weightOf_cons] at h ⊢
    have hnext := toNat_add_weight bufsize cell (by omega)
    rw [dataSize, ih (by omega), hnext, Nat.add_assoc]

section
variable (hvalid : table.Valid) (h : table.total < 2 ^ 32)
include hvalid h

theorem headers_le_hsize : (20 : UInt32).toNat + 31 * table.cells.length ≤ table.hsize.toNat ∧
      table.hsize.toNat + weightOf table.cells = table.total := by
  unfold Table.total at h ⊢
  have hsize := toNat_hsize hvalid (by omega)
  rw [hsize]
  exact ⟨le_rfl, rfl⟩

theorem writes_le (hw : w ∈ table.writes) : w.1 + w.2.length ≤ table.total := by
  obtain ⟨hpos, hoff⟩ := headers_le_hsize hvalid h
  rcases mem_cons.1 hw with rfl | hw
  · change 0 + 20 ≤ 20 + 31 * table.cells.length + weightOf table.cells
    omega
  · have hin := mem_cellWrites hpos (by omega) hw
    omega

theorem pairwise_writes : table.writes.Pairwise Apart := by
  obtain ⟨hpos, hoff⟩ := headers_le_hsize hvalid h
  have h20 : (20 : UInt32).toNat = 20 := rfl
  rw [Table.writes, pairwise_cons]
  refine ⟨?_, pairwise_cellWrites hpos (by omega)⟩
  intro w hw
  have hin := mem_cellWrites hpos (by omega) hw
  simp only [Apart, TableHdr.length_bytes]
  omega

theorem jtTableToBuf_ok (mem : ℕ → UInt8) : ∃ size, jtTableToBuf table mem = .ok (size, storeAll mem table.writes) := by
  obtain ⟨-, htotal⟩ := headers_le_hsize hvalid h
  have hdata : (dataSize 0 table.cells).toNat = weightOf table.cells := by
    rw [toNat_dataSize (by change 0 + _ < _; omega)]
    exact Nat.zero_add _
  have hsize : (dataSize 0 table.cells + table.hsize).toNat = table.total := by
    rw [toNat_add_of_lt (by omega)]
    omega
  refine ⟨_, if_pos ?_⟩
  intro w hw
  rw [hsize]
  exact writes_le hvalid h hw

end
end Writes

section Reading
variable {buf : ℕ → UInt8} {envs : ℕ → Env} {table table' : Table} {cells : List Cell} {cell : Cell}
  {pos off : UInt32} {n : ℕ} {len : UInt32} {cell' : Cell} {c d : Cell} {p : ℕ}

/-- The header of a cell at `pos` and its parts at their places. -/
structure StoredCell (buf : ℕ → UInt8) (pos : ℕ) (cell : Cell) : Prop where
  hdr : fetch buf pos 31 = cell.hdr.bytes
  data : fetch buf cell.hdr.off.toNat cell.hdr.datalen.toNat = cell.data
  comments : fetch buf (cell.hdr.off.toNat + cell.hdr.datalen.toNat) cell.hdr.clen.toNat = cell.comments
  fdata : fetch buf (cell.hdr.off.toNat + cell.hdr.datalen.toNat + cell.hdr.clen.toNat)
    cell.hdr.fdatalen.toNat = cell.fdata

def Stored (buf : ℕ → UInt8) : UInt32 → List Cell → Prop
  | _, [] => True
  | pos, cell :: cells => StoredCell buf pos.toNat cell ∧ Stored buf (pos + 31) cells

theorem fetch_part {bs : List UInt8} (hlen : bs.length = len.toNat)
    (h : len.toNat ≠ 0 → fetch buf p bs.length = bs) : fetch buf p len.toNat = bs := by
  by_cases hzero : len.toNat = 0
  · rw [hzero, length_eq_zero_iff.1 (hlen.trans hzero)]
    rfl
  · rw [← hlen]
    exact h hzero

theorem stored_of_writes (h : ∀ w ∈ cellWrites pos cells, fetch buf w.1 w.2.length = w.2) : Stored buf pos cells := by
  induction cells generalizing pos with
  | nil => trivial
  | cons cell cells ih =>
    have hpart : ∀ w ∈ dataWrites cell, fetch buf w.1 w.2.length = w.2 := fun w hw =>
      h w (mem_cons_of_mem _ (mem_append_left _ hw))
    refine ⟨⟨?_, ?_, ?_, ?_⟩, ?_⟩
    · have hhead := h _ mem_cons_self
      rwa [CellHdr.length_bytes] at hhead
    · exact fetch_part cell.data_length fun hne => hpart (_, cell.data) (by simp [dataWrites, hne])
    · exact fetch_part cell.comments_length fun hne => hpart (_, cell.comments) (by simp [dataWrites, hne])
    · exact fetch_part cell.fdata_length fun hne => hpart (_, cell.fdata) (by simp [dataWrites, hne])
    · exact ih fun w hw => h w (mem_cons_of_mem _ (mem_append_right _ hw))

theorem copies_of_lt {b : Blob} (h : b.bytes.length + 1 < 2 ^ 32) : copies b := by
  intro _ hzero
  have hsucc : (b.size + 1).toNat = b.size.toNat + 1 :=
    toNat_add_of_lt (by rw [Blob.toNat_size]; exact h)
  rw [hzero] at hsucc
  exact absurd hsucc (Nat.succ_ne_zero _).symm

theorem copies_load (h : len.toNat + 1 < 2 ^ 32) : copies (.load buf p len) := by
  apply copies_of_lt
  rw [Blob.load, length_fetch]
  exact h

theorem readCell_stored (env : Env) (h : StoredCell buf pos.toNat cell) (htyped : cell.Typed)
    (hweight : cell.weight + 1 < 2 ^ 32) :
    ∃ cell', readCell buf env pos = .ok cell' ∧ cell'.content = cell.content := by
  unfold Cell.weight at hweight
  unfold readCell
  rw [h.hdr, CellHdr.ofBytes_bytes]
  have hmerge : Fin.ofNat 16 (UInt8.ofNat cell.hdr.mergeDir.val).toNat = cell.hdr.mergeDir := by
    rw [UInt8.toNat_ofNat', Nat.mod_eq_of_lt (by omega)]
    exact Fin.ofNat_val_eq_self _
  have hdatalen : cell.hdr.datalen.toNat + 1 < 2 ^ 32 := by omega
  have hclen : cell.hdr.clen.toNat + 1 < 2 ^ 32 := by omega
  have hfdatalen : cell.hdr.fdatalen.toNat + 1 < 2 ^ 32 := by omega
  apply jtCreateCell_content (copies_load hclen) (copies_load hdatalen) (copies_load hfdatalen)
  · intro htype
    exact h.data.trans (htyped htype)
  · exact Content.mk.injEq .. ▸ ⟨rfl, rfl, h.data, h.comments, h.fdata, rfl, hmerge⟩

theorem Cell.content_setId (cell : Cell) (id : UInt32) : (cell.setId id).content = cell.content := rfl

theorem inside_congr {hdr : TableHdr} (h : c.content = d.content) : c.Inside hdr ↔ d.Inside hdr := by
  have hrow : c.hdr.row = d.hdr.row := congrArg Content.row h
  have hcol : c.hdr.col = d.hdr.col := congrArg Content.col h
  rw [Cell.Inside, Cell.Inside, hrow, hcol]

/-- The content of the cells that are there is kept apart from that of the cells to come. -/
def SeparateContent (c d : Content) : Prop := ¬ (d.row = c.row ∧ d.col = c.col)

theorem separate_iff : Separate c d ↔ SeparateContent c.content d.content := Iff.rfl

/-- The cells can be added to the table one after the other. -/
structure Addable (table : Table) (cells : List Cell) : Prop where
  inside : ∀ c ∈ cells, c.Inside table.hdr
  separate : cells.Pairwise Separate
  typed : ∀ c ∈ cells, c.Typed
  weight : ∀ c ∈ cells, c.weight + 1 < 2 ^ 32
  apart : ∀ d ∈ table.cells, ∀ c ∈ cells, Separate d c

theorem Addable.next (h : Addable table (cell :: cells)) (hcontent : cell'.content = cell.content) :
    jtAddCell table cell' = .ok (table.push cell') ∧ Addable (table.push cell').setBack cells := by
  have hseparate := pairwise_cons.1 h.separate
  constructor
  · refine jtAddCell_ok_iff.2 ⟨(inside_congr hcontent).2 (h.inside cell mem_cons_self), ?_, rfl⟩
    intro d hd
    rw [separate_iff, hcontent]
    exact h.apart d hd cell mem_cons_self
  · refine ⟨(forall_mem_cons.1 h.inside).2, hseparate.2, (forall_mem_cons.1 h.typed).2,
      (forall_mem_cons.1 h.weight).2, ?_⟩
    intro d hd c hc
    rcases mem_append.1 hd with hd | hd
    · exact h.apart d hd c (mem_cons_of_mem _ hc)
    · rw [mem_singleton.1 hd, separate_iff, Cell.content_setId, hcontent]
      exact hseparate.1 c hc

theorem readCells_stored (hstored : Stored buf pos cells) (h : Addable table cells) (envs : ℕ → Env) :
    ∃ table', readCells buf cells.length envs pos table = .ok table' ∧
      table'.hdr.nrows = table.hdr.nrows ∧ table'.hdr.ncols = table.hdr.ncols ∧
      table'.cells.map Cell.content = table.cells.map Cell.content ++ cells.map Cell.content := by
  induction cells generalizing pos envs table with
  | nil => exact ⟨table, rfl, rfl, rfl, (append_nil _).symm⟩
  | cons cell cells ih =>
    obtain ⟨cell', hread, hcontent⟩ := readCell_stored (envs 0) hstored.1
      (h.typed cell mem_cons_self) (h.weight cell mem_cons_self)
    obtain ⟨hadd, hnext⟩ := h.next hcontent
    rw [length_cons, readCells, hread]
    simp only [bind, Except.bind, hadd]
    obtain ⟨table', hrun, hrows, hcols, hcells⟩ := ih hstored.2 hnext fun i => envs (i + 1)
    refine ⟨table', hrun, hrows, hcols, ?_⟩
    rw [hcells, Table.setBack, Table.push, map_append, map_singleton, Cell.content_setId, hcontent, append_assoc,
      singleton_append, map_cons]

theorem exists_of_readCells (h : readCells buf (n + 1) envs pos table = .ok table') :
    ∃ cell, readCells buf n (fun i => envs (i + 1)) (pos + 31) (table.push cell).setBack = .ok table' := by
  rw [readCells] at h
  cases hread : readCell buf (envs 0) pos with
  | error e =>
    rw [hread] at h
    cases h
  | ok cell =>
    rw [hread] at h
    simp only [bind, Except.bind] at h
    split at h
    · cases h
    next table1 hadd =>
      obtain ⟨-, -, rfl⟩ := jtAddCell_ok_iff.1 hadd
      exact ⟨cell, h⟩

theorem length_readCells (h : readCells buf n envs pos table = .ok table') :
    table'.cells.length = table.cells.length + n := by
  induction n generalizing envs pos table with
  | zero =>
    rw [Except.ok.inj h, Nat.add_zero]
  | succ n ih =>
    obtain ⟨cell, hrest⟩ := exists_of_readCells h
    rw [ih hrest, Table.setBack, Table.push, length_append, length_singleton]
    omega

end Reading

section RoundTrip
variable {table target : Table} {cells : List Cell} {off : UInt32} {mem : ℕ → UInt8} {data : Blob}

theorem map_content_placeCells : (placeCells off cells).map Cell.content = cells.map Cell.content := by
  induction cells generalizing off with
  | nil => rfl
  | cons cell cells ih =>
    rw [placeCells, map_cons, ih]
    rfl

theorem forall_placeCells {P : Cell → Prop} (hP : ∀ c off, P c → P (c.setOff off)) (h : ∀ c ∈ cells, P c) :
    ∀ c ∈ placeCells off cells, P c := by
  induction cells generalizing off with
  | nil => exact h
  | cons cell cells ih =>
    rw [placeCells, forall_mem_cons]
    rw [forall_mem_cons] at h
    exact ⟨hP cell off h.1, ih h.2⟩

theorem separate_placeCells (h : cells.Pairwise Separate) : (placeCells off cells).Pairwise Separate := by
  have hmap := pairwise_map.2 (h.imp fun hcd => separate_iff.1 hcd)
  rwa [← map_content_placeCells, pairwise_map] at hmap

section
variable (hvalid : table.Valid) (htotal : table.total < 2 ^ 32)
include hvalid htotal

theorem Table.Valid.addable : Addable ⟨table.hdr, []⟩ (placeCells off table.cells) := by
  refine ⟨forall_placeCells (fun _ _ h => h) hvalid.inside, separate_placeCells hvalid.separate,
    forall_placeCells (fun _ _ h => h) hvalid.typed, forall_placeCells (fun _ _ h => h) ?_, by simp⟩
  intro c hc
  have hle : c.weight ≤ weightOf table.cells := single_le_sum (fun _ _ => Nat.zero_le _) _ (mem_map_of_mem hc)
  unfold Table.total at htotal
  omega

theorem Table.Valid.stored : fetch (storeAll mem table.writes) 0 20 = table.hdr.bytes ∧
      Stored (storeAll mem table.writes) 20 (placeCells table.hsize table.cells) := by
  have hfetch : ∀ w ∈ table.writes, fetch (storeAll mem table.writes) w.1 w.2.length = w.2 :=
    fun w hw => fetch_storeAll (pairwise_writes hvalid htotal) hw
  constructor
  · have hhdr := hfetch _ mem_cons_self
    rwa [TableHdr.length_bytes] at hhdr
  · exact stored_of_writes fun w hw => hfetch w (mem_cons_of_mem _ hw)

theorem jtBufToTable_eq (envs : ℕ → Env) : jtBufToTable envs target (storeAll mem table.writes) =
      readCells (storeAll mem table.writes) table.cells.length envs 20 { target with hdr := table.hdr } := by
  have hncells := hvalid.toNat_ncells (by unfold Table.total at htotal; omega)
  unfold jtBufToTable
  rw [(hvalid.stored htotal).1, TableHdr.ofBytes_bytes, ← hncells]

end

theorem Reconstructs.cells_eq_nil (h : Reconstructs table target) (hvalid : table.Valid) : target.cells = [] := by
  obtain ⟨size, buf, table', hbuf, hread, -, -, hperm⟩ := h 0 fun _ => ⟨0, 0, 0, 0, .raw⟩
  have htotal := total_lt_of_ok hvalid hbuf
  obtain ⟨size', hok⟩ := jtTableToBuf_ok hvalid htotal 0
  obtain ⟨-, rfl⟩ := Prod.mk.inj (Except.ok.inj (hbuf.symm.trans hok))
  rw [jtBufToTable_eq hvalid htotal] at hread
  have hlen := hperm.length_eq
  rw [length_map, length_map, length_readCells hread] at hlen
  exact length_eq_zero_iff.1 (Nat.add_eq_right.1 hlen)

theorem Reconstructs.total_lt (h : Reconstructs table target) (hvalid : table.Valid) : table.total < 2 ^ 32 := by
  obtain ⟨size, buf, -, hbuf, -⟩ := h 0 fun _ => ⟨0, 0, 0, 0, .raw⟩
  exact total_lt_of_ok hvalid hbuf

theorem Table.Valid.reconstructs (hvalid : table.Valid) (htotal : table.total < 2 ^ 32)
    (hnil : target.cells = []) : Reconstructs table target := by
  intro mem envs
  obtain ⟨size, hok⟩ := jtTableToBuf_ok hvalid htotal mem
  obtain ⟨table', hrun, hrows, hcols, hcells⟩ :=
    readCells_stored (hvalid.stored htotal).2 (hvalid.addable htotal) envs
  rw [length_placeCells] at hrun
  refine ⟨size, _, table', hok, ?_, hrows, hcols, ?_⟩
  · rw [jtBufToTable_eq hvalid htotal, hnil]
    exact hrun
  · rw [hcells, map_content_placeCells]
    rfl

theorem exists_built_single (hdata : copies data) :
    ∃ table, Built table ∧ table.cells.map Cell.content = [⟨0, 0, data.bytes, [], [], typeRaw, 0⟩] := by
  have hempty : copies noBytes := fun hne => absurd rfl hne
  have hcell : ∃ cell, jtCreateCell ⟨0, 0, 0, 0, .raw⟩ data noBytes noBytes typeRaw 0 0 0 = .ok cell ∧
      cell.content = ⟨0, 0, data.bytes, [], [], typeRaw, 0⟩ :=
    jtCreateCell_content hempty hdata hempty (fun h => absurd h (by decide)) rfl
  obtain ⟨cell, hcreate, hcontent⟩ := hcell
  have hin : cell.Inside ⟨0, 1, 1, 0, 0⟩ := by
    have hrow : cell.hdr.row = 0 := congrArg Content.row hcontent
    have hcol : cell.hdr.col = 0 := congrArg Content.col hcontent
    rw [Cell.Inside, hrow, hcol]
    decide
  have hnew : jtCreateTable 1 1 0 = .ok ⟨⟨0, 1, 1, 0, 0⟩, []⟩ := rfl
  have hadd : jtAddCell ⟨⟨0, 1, 1, 0, 0⟩, []⟩ cell = .ok (Table.push ⟨⟨0, 1, 1, 0, 0⟩, []⟩ cell) :=
    jtAddCell_ok_iff.2 ⟨hin, by simp, rfl⟩
  exact ⟨_, .add (.create hnew) hcreate hadd, congrArg (fun c => [c]) hcontent⟩

theorem total_of_single {content : Content} (h : table.cells.map Cell.content = [content]) :
    table.total = 51 + (content.data.length + content.comments.length + content.fdata.length) := by
  obtain ⟨cell, hcells, rfl⟩ := map_eq_singleton_iff.1 h
  change _ = 51 + (cell.data.length + cell.comments.length + cell.fdata.length)
  rw [Table.total, hcells, weightOf_cons, cell.data_length, cell.comments_length, cell.fdata_length]
  rfl

theorem exists_not_reconstructs (hlo : 2 ^ 32 ≤ data.bytes.length + 51) (hhi : data.bytes.length + 1 < 2 ^ 32) :
    ∃ table, Built table ∧ table.cells.map Cell.content = [⟨0, 0, data.bytes, [], [], typeRaw, 0⟩] ∧
      ¬ Reconstructs table ⟨table.hdr, []⟩ := by
  obtain ⟨table, hbuilt, hcells⟩ := exists_built_single (copies_of_lt hhi)
  refine ⟨table, hbuilt, hcells, ?_⟩
  intro h
  have hlt := h.total_lt hbuilt.valid
  have heq : table.total = 51 + (data.bytes.length + 0 + 0) := total_of_single hcells
  omega

def zeros (n : ℕ) (h : n < 2 ^ 32) : Blob := ⟨List.replicate n 0, by rw [List.length_replicate]; exact h⟩

theorem length_zeros {n : ℕ} (h : n < 2 ^ 32) : (zeros n h).bytes.length = n := length_replicate

def letterA : Blob := ⟨[97], by decide⟩

/-- A buffer gives its table back exactly if its size is a number of 32 bits and the table that is read into
has no cells yet. -/
theorem reconstructs_iff (hbuilt : Built table) :
    Reconstructs table target ↔ table.total < 2 ^ 32 ∧ target.cells = [] := by
  constructor
  · intro h
    exact ⟨h.total_lt hbuilt.valid, h.cells_eq_nil hbuilt.valid⟩
  · rintro ⟨htotal, hnil⟩
    exact hbuilt.valid.reconstructs htotal hnil

theorem reconstructs_two : ∃ table, Built table ∧
    table.cells.map Cell.content = [⟨0, 1, [97], [98, 99], [100], typeRaw, 3⟩, ⟨0, 0, [49, 50], [], [], typeInt, 0⟩] ∧
    Reconstructs table ⟨table.hdr, []⟩ := by
  have hbuilt : ∃ table, Built table ∧ table.cells.map Cell.content =
      [⟨0, 1, [97], [98, 99], [100], typeRaw, 3⟩, ⟨0, 0, [49, 50], [], [], typeInt, 0⟩] ∧ table.total < 2 ^ 32 := by
    have hnew : jtCreateTable 1 2 0 = .ok ⟨⟨0, 1, 2, 0, 0⟩, []⟩ := rfl
    have htext : jtCreateCell ⟨0, 0, 0, 0, .raw⟩ letterA ⟨[98, 99], by decide⟩ ⟨[100], by decide⟩ typeRaw 3 0 1 =
      .ok ⟨⟨0, 0, 3, 0, 0, 1, typeRaw, 0, 1, 2, 1⟩, [97], [98, 99], [100], rfl, rfl, rfl⟩ := rfl
    have hnumber : jtCreateCell ⟨0, 0, 0, 0, .raw⟩ ⟨[49, 50], by decide⟩ noBytes noBytes typeEmpty 0 0 0 =
      .ok ⟨⟨0, 0, 0, 0, 0, 0, typeInt, 0, 2, 0, 0⟩, [49, 50], [], [], rfl, rfl, rfl⟩ := rfl
    exact ⟨_, .add (.add (.create hnew) htext rfl) hnumber rfl, rfl, by decide⟩
  obtain ⟨table, hbuilt, hcells, htotal⟩ := hbuilt
  exact ⟨table, hbuilt, hcells, (reconstructs_iff hbuilt).2 ⟨htotal, rfl⟩⟩

/-- A table whose buffer needs more than 2^32 bytes, and a table that is read into itself. -/
theorem not_reconstructs_long : (∃ table, Built table ∧ table.cells.map Cell.content =
        [⟨0, 0, (zeros (2 ^ 32 - 2) (by decide)).bytes, [], [], typeRaw, 0⟩] ∧
      ¬ Reconstructs table ⟨table.hdr, []⟩) ∧
    ∃ table, Built table ∧ table.cells.map Cell.content = [⟨0, 0, letterA.bytes, [], [], typeRaw, 0⟩] ∧
      ¬ Reconstructs table table := by
  constructor
  · apply exists_not_reconstructs
    all_goals
      rw [length_zeros]
      decide
  · have ha : copies letterA := by decide
    obtain ⟨table, hbuilt, hcells⟩ := exists_built_single ha
    refine ⟨table, hbuilt, hcells, ?_⟩
    intro h
    rw [h.cells_eq_nil hbuilt.valid] at hcells
    cases hcells

end RoundTrip
end Prj.Jlib.Jtable
