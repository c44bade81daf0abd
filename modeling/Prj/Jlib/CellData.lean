import Prj.Jlib.Store

/-!
Storing and loading the data of a cell of a type of variable length.

`none` stands for a run that does not return or leaves its buffers.
-/
namespace Prj.Jlib
open Prj.Base

variable (env : Env) (g : Geometry) (s : Store)

def freeSlots (blk : DataBlk) : List ℕ := (List.range g.nentries).filter fun i => !blk.bitmap i

/-- The free slots for `nchunks` chunks. The list has room for `nchunks` and the count is compared
after a slot has been added, so that a list for none is overrun by the first free slot. -/
def blkEntList (nchunks : ℕ) (blk : DataBlk) : Option (List ℕ) :=
  if nchunks = 0 ∧ freeSlots g blk ≠ [] then none else some ((freeSlots g blk).take nchunks)

/-- Chain as many data pointers as there are runs of slots and fill them in. -/
def fillDptrChain (ptrs : List DataPtr) : Option (Store × Loc) :=
  match createDptrChain env g s ptrs.length with
  | none => none
  | some (s', l) => (Node.fill s'.entry ptrs (some l)).map fun entry => ({ s' with entry }, l)

/-- `_jdb_find_first_map_match`, or else a new data block. -/
def selectBlk (nful : ℕ) : Store × ℕ :=
  match findFirstMapMatch s nful with
  | some b => (s, b)
  | none => (createDataBlk env s, freshBid env s)

/-- Put the bytes at the start of a block and mark all its slots. -/
def fillBlk (b : ℕ) (bytes : List UInt8) : Store :=
  { s with
    nful := Function.update s.nful b g.nentries
    data := Function.update s.data b ⟨g.nentries,
      fun i => i < g.nentries || (s.data b).bitmap i, put (s.data b).datapool 0 bytes⟩ }

def markSlots (b : ℕ) (es : List ℕ) (pool : ℕ → Option UInt8) : Store :=
  let nent := ((s.data b).nent + es.length) % 2 ^ 16
  { s with
    nful := Function.update s.nful b ((s.nful b + nent) % 2 ^ 16)
    data := Function.update s.data b ⟨nent, fun i => i ∈ es || (s.data b).bitmap i, pool⟩ }

def ptrsTo (b : ℕ) (rs : List (ℕ × ℕ)) : List DataPtr := rs.map fun r => ⟨some b, r.1, r.2⟩

/-- `_jdb_alloc_cell_data_a_eq_1`. -/
def allocCellDataEq1 (data : List UInt8) : Option (Except JErr (Store × Loc)) :=
  let sel := selectBlk env s 0
  if g.poolSize < data.length then none
  else
    (fillDptrChain env g (fillBlk g sel.1 sel.2 data) (ptrsTo sel.2 [(0, g.nentries)])).map .ok

/-- `_jdb_alloc_cell_data_a_lt_1`. -/
def allocCellDataLt1 (nchunks : ℕ) (data : List UInt8) : Option (Except JErr (Store × Loc)) :=
  let sel := selectBlk env s (g.nentries - nchunks)
  match blkEntList g nchunks (sel.1.data sel.2) with
  | none => none
  | some es =>
    match fillDptrChain env g sel.1 (ptrsTo sel.2 (runs es)) with
    | none => none
    | some (s', l) =>
      -- the last chunk is copied whole, also when the data ends inside it
      match fillSlots g.typelen data 0 es (s'.data sel.2).datapool with
      | none => none
      | some pool => some (.ok (markSlots s' sel.2 es pool, l))

def createDataBlks : ℕ → Store → Store × List ℕ
  | 0, s => (s, [])
  | k + 1, s =>
    let r := createDataBlks k (createDataBlk env s)
    (r.1, freshBid env s :: r.2)

def lastDptr (entry : Loc → Option (Node Loc DataPtr)) : ℕ → Loc → Option Loc
  | 0, _ => none
  | fuel + 1, l =>
    match entry l with
    | none => none
    | some nd =>
      match nd.next with
      | none => some l
      | some l' => lastDptr entry fuel l'

/-- The loop over the full blocks. After each block `dptr_list` goes to the next entry, reads its
`next` and goes on to the last entry. -/
def fullBlocks (fuel : ℕ) (data : List UInt8) : List ℕ → ℕ → Loc → Store → Option Store
  | [], _, _, s => some s
  | b :: bs, pos, l, s =>
    let copysize := g.nentries * g.typelen
    if data.length < pos + copysize then none
    else
      match s.entry l with
      | none => none
      | some nd =>
        let s := { fillBlk g s b ((data.drop pos).take copysize) with
          entry := Function.update s.entry l (some ⟨⟨some b, 0, g.nentries⟩, nd.next⟩) }
        match nd.next with
        | none => none
        | some l' =>
          match lastDptr s.entry fuel l' with
          | none => none
          | some last => fullBlocks fuel data bs (pos + copysize) last s

/-- The branch of `_jdb_alloc_cell_data` for more than one block. -/
def allocCellDataGt1 (nchunks : ℕ) (data : List UInt8) : Option (Except JErr (Store × Loc)) :=
  let needed := nchunks / g.nentries
  let bids := listMapMatch s 0
  let created := createDataBlks env (needed - bids.length - bids.length) s
  match createDptrChain env g created.1 needed with
  | none => none
  | some (s, l) =>
    match fullBlocks g needed data ((bids ++ created.2).take needed) 0 l s with
    | none => none
    | some s => env.rest s

def numChunks (datalen : ℕ) : ℕ := datalen / g.typelen + if datalen % g.typelen = 0 then 0 else 1

def allocCellData (data : List UInt8) : Option (Except JErr (Store × Loc)) :=
  if g.typelen = 0 then some (.error .type)
  else
    match calcData g with
    | .error e => some (.error e)
    | .ok nentries =>
      let nchunks := numChunks g data.length
      if nentries = 0 then none
      else
        let a := nchunks / nentries % 2 ^ 32
        if a = 1 then allocCellDataEq1 env g s data
        else if a < 1 then allocCellDataLt1 env g s (nchunks % 2 ^ 16) data
        else allocCellDataGt1 env g s nchunks data

structure CellDef where
  first : Option Loc
  datalen : ℕ
  dataCrc32 : UInt32

/-- The bytes behind a data pointer; `none` when its block is not there. -/
def ptrBytes (ptr : DataPtr) : Option (List (Option UInt8)) :=
  match ptr.bid with
  | none => some []
  | some b =>
    if b ∈ s.dataBids then
      some (get (s.data b).datapool (ptr.bent * g.typelen) (ptr.nent * g.typelen))
    else none

/-- Load the data of a cell whose chain has at most `fuel` entries. What the chain does not reach of
the buffer is not known. -/
def loadCellData (fuel : ℕ) (celldef : CellDef) : Option (Except JErr (List UInt8)) :=
  match loadDptrChain s fuel celldef.first with
  | none => none
  | some (.error e) => some (.error e)
  | some (.ok (s', l)) =>
    match Node.follow s'.entry (fuel + 1) l with
    | none => none
    | some ptrs =>
      match ptrs.mapM (ptrBytes g s) with
      | none => some (.error .notfound)
      | some parts =>
        if celldef.datalen < parts.flatten.length then none
        else
          let buf := parts.flatten ++ List.replicate (celldef.datalen - parts.flatten.length) none
          match buf.mapM id with
          | none => none
          | some bytes =>
            if env.crc bytes = celldef.dataCrc32 then some (.ok bytes) else some (.error .crc)

def LoadsBack (data : List UInt8) : Prop :=
  ∃ s' l, allocCellData env g s data = some (.ok (s', l)) ∧
    ∃ fuel, loadCellData env g s' fuel ⟨some l, data.length % 2 ^ 32, env.crc data⟩ = some (.ok data)

end Prj.Jlib
