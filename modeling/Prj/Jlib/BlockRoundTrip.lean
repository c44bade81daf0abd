import Prj.Jlib.BlockPack

/-! The five kinds of blocks, and what unpacking gives back of a packed block. -/
namespace Prj.Jlib
open Prj.Base

structure MapBlkHdr where
  type : UInt8
  flags : UInt8
  nset : UInt16
  crc32 : UInt32
  deriving DecidableEq, Repr

structure BlkHdr where
  type : UInt8
  flags : UInt8
  crc32 : UInt32
  deriving DecidableEq, Repr

structure MapBlkEntry where
  blkType : UInt8
  dtype : UInt8
  nful : UInt16
  tid : UInt32
  deriving DecidableEq, Repr

structure TypedefBlkEntry where
  flags : UInt8
  typeId : UInt8
  base : UInt8
  len : UInt32
  deriving DecidableEq, Repr

structure ColTypedefBlkEntry where
  typeId : UInt8
  col : UInt32
  deriving DecidableEq, Repr

structure CelldefBlkEntry where
  /-- An address. -/
  parent : ℕ
  row : UInt32
  col : UInt32
  dataCrc32 : UInt32
  dataType : UInt8
  datalen : UInt32
  bidEntry : UInt32
  bent : UInt16
  lastAccessD : UInt8 × UInt8 × UInt8
  lastAccessT : UInt8 × UInt8 × UInt8
  deriving DecidableEq, Repr

structure CellDataPtrBlkEntry where
  /-- An address. -/
  parent : ℕ
  bid : UInt32
  bent : UInt16
  nent : UInt16
  nextdptrbid : UInt32
  nextdptrbent : UInt16
  /-- An address. -/
  next : ℕ
  deriving DecidableEq, Repr

section Formats
def shortFormat {E : Type} (btype : UInt8) (crcFirst : Bool) (entryWidths : List ℕ)
    (entryFields : E → List ℕ) (setEntry : List ℕ → E → E) (withPointers : E → E → E) (stride : ℕ)
    (entry_fit : ∀ entry, Fit entryWidths (entryFields entry))
    (setEntry_entryFields : ∀ entry old, setEntry (entryFields entry) old = withPointers entry old)
    (entryFields_withPointers : ∀ entry old, entryFields (withPointers entry old) = entryFields entry)
    (widths_le : entryWidths.sum ≤ stride) : BlockFormat BlkHdr E where
  btype := btype
  type hdr := hdr.type
  crc32 hdr := hdr.crc32
  setCrc32 crc hdr := { hdr with crc32 := crc }
  hdrWidths := [1, 1]
  hdrFields hdr := [hdr.type.toNat, hdr.flags.toNat]
  setHdr
    | [type, flags], old => { old with type := .ofNat type, flags := .ofNat flags }
    | _, old => old
  entryWidths := entryWidths
  entryFields := entryFields
  setEntry := setEntry
  withPointers := withPointers
  stride := stride
  crcFirst := crcFirst
  hdr_fit hdr := fit_cons8 _ (fit_cons8 _ .nil)
  entry_fit := entry_fit
  setHdr_hdrFields hdr old := by simp only [UInt8.ofNat_toNat]
  setEntry_entryFields := setEntry_entryFields
  entryFields_withPointers := entryFields_withPointers
  type_setCrc32 _ _ := rfl
  setCrc32_setCrc32 _ _ _ := rfl
  widths_le := widths_le

def mapFormat : BlockFormat MapBlkHdr MapBlkEntry where
  btype := 1
  type hdr := hdr.type
  crc32 hdr := hdr.crc32
  setCrc32 crc hdr := { hdr with crc32 := crc }
  hdrWidths := [1, 1, 2]
  hdrFields hdr := [hdr.type.toNat, hdr.flags.toNat, hdr.nset.toNat]
  setHdr
    | [type, flags, nset], old =>
      { old with type := .ofNat type, flags := .ofNat flags, nset := .ofNat nset }
    | _, old => old
  entryWidths := [1, 1, 2, 4]
  entryFields e := [e.blkType.toNat, e.dtype.toNat, e.nful.toNat, e.tid.toNat]
  setEntry
    | [blkType, dtype, nful, tid], _ => ⟨.ofNat blkType, .ofNat dtype, .ofNat nful, .ofNat tid⟩
    | _, old => old
  withPointers e _ := e
  stride := 8
  crcFirst := true
  hdr_fit hdr := fit_cons8 _ (fit_cons8 _ (fit_cons16 _ .nil))
  entry_fit e := fit_cons8 _ (fit_cons8 _ (fit_cons16 _ (fit_cons32 _ .nil)))
  setHdr_hdrFields hdr old := by simp only [UInt8.ofNat_toNat, UInt16.ofNat_toNat]
  setEntry_entryFields e old := by simp only [UInt8.ofNat_toNat, UInt16.ofNat_toNat, UInt32.ofNat_toNat]
  entryFields_withPointers _ _ := rfl
  type_setCrc32 _ _ := rfl
  setCrc32_setCrc32 _ _ _ := rfl
  widths_le := by decide

def typedefFormat : BlockFormat BlkHdr TypedefBlkEntry :=
  shortFormat 2 false [1, 1, 1, 4] (fun e => [e.flags.toNat, e.typeId.toNat, e.base.toNat, e.len.toNat]) (fun
      | [flags, typeId, base, len], _ => ⟨.ofNat flags, .ofNat typeId, .ofNat base, .ofNat len⟩
      | _, old => old)
    (fun e _ => e) 7
    (fun _ => fit_cons8 _ (fit_cons8 _ (fit_cons8 _ (fit_cons32 _ .nil))))
    (fun e old => by simp only [UInt8.ofNat_toNat, UInt32.ofNat_toNat])
    (fun _ _ => rfl)
    (by decide)

def colTypedefFormat : BlockFormat BlkHdr ColTypedefBlkEntry :=
  shortFormat 4 false [1, 4] (fun e => [e.typeId.toNat, e.col.toNat]) (fun
      | [typeId, col], _ => ⟨.ofNat typeId, .ofNat col⟩
      | _, old => old)
    (fun e _ => e) 5
    (fun _ => fit_cons8 _ (fit_cons32 _ .nil))
    (fun e old => by simp only [UInt8.ofNat_toNat, UInt32.ofNat_toNat])
    (fun _ _ => rfl)
    (by decide)

variable (ptrSize : ℕ)

def celldefFormat : BlockFormat BlkHdr CelldefBlkEntry :=
  shortFormat 5 false [4, 4, 4, 1, 4, 4, 2, 1, 1, 1, 1, 1, 1]
    (fun e => [e.row.toNat, e.col.toNat, e.dataCrc32.toNat, e.dataType.toNat, e.datalen.toNat,
      e.bidEntry.toNat, e.bent.toNat, e.lastAccessD.1.toNat, e.lastAccessD.2.1.toNat,
      e.lastAccessD.2.2.toNat, e.lastAccessT.1.toNat, e.lastAccessT.2.1.toNat, e.lastAccessT.2.2.toNat])
    (fun
      | [row, col, crc, type, len, bid, bent, d0, d1, d2, t0, t1, t2], old =>
        ⟨old.parent, .ofNat row, .ofNat col, .ofNat crc, .ofNat type, .ofNat len, .ofNat bid, .ofNat bent,
          (.ofNat d0, .ofNat d1, .ofNat d2), (.ofNat t0, .ofNat t1, .ofNat t2)⟩
      | _, old => old)
    (fun e old => { e with parent := old.parent }) (ptrSize + 29)
    (fun _ => fit_cons32 _ (fit_cons32 _ (fit_cons32 _ (fit_cons8 _ (fit_cons32 _ (fit_cons32 _
      (fit_cons16 _ (fit_cons8 _ (fit_cons8 _ (fit_cons8 _ (fit_cons8 _ (fit_cons8 _ (fit_cons8 _ .nil)))))))))))))
    (fun e old => by simp only [UInt8.ofNat_toNat, UInt16.ofNat_toNat, UInt32.ofNat_toNat])
    (fun _ _ => rfl)
    (Nat.le_add_left 29 ptrSize)

def dataPtrFormat : BlockFormat BlkHdr CellDataPtrBlkEntry :=
  shortFormat 9 true [4, 2, 2, 4, 2]
    (fun e => [e.bid.toNat, e.bent.toNat, e.nent.toNat, e.nextdptrbid.toNat, e.nextdptrbent.toNat])
    (fun
      | [bid, bent, nent, nextdptrbid, nextdptrbent], old =>
        ⟨old.parent, .ofNat bid, .ofNat bent, .ofNat nent, .ofNat nextdptrbid, .ofNat nextdptrbent, old.next⟩
      | _, old => old)
    (fun e old => { e with parent := old.parent, next := old.next }) (2 * ptrSize + 14)
    (fun _ => fit_cons32 _ (fit_cons16 _ (fit_cons16 _ (fit_cons32 _ (fit_cons16 _ .nil)))))
    (fun e old => by simp only [UInt16.ofNat_toNat, UInt32.ofNat_toNat])
    (fun _ _ => rfl)
    (Nat.le_add_left 14 _)

end Formats

inductive Kind
  | map
  | typedef
  | colTypedef
  | celldef
  | dataPtr
  deriving DecidableEq, Repr

abbrev Kind.Hdr : Kind → Type
  | .map => MapBlkHdr
  | .typedef | .colTypedef | .celldef | .dataPtr => BlkHdr

abbrev Kind.Entry : Kind → Type
  | .map => MapBlkEntry
  | .typedef => TypedefBlkEntry
  | .colTypedef => ColTypedefBlkEntry
  | .celldef => CelldefBlkEntry
  | .dataPtr => CellDataPtrBlkEntry

def Kind.format (ptrSize : ℕ) : (k : Kind) → BlockFormat k.Hdr k.Entry
  | .map => mapFormat
  | .typedef => typedefFormat
  | .colTypedef => colTypedefFormat
  | .celldef => celldefFormat ptrSize
  | .dataPtr => dataPtrFormat ptrSize

/-- What the packing reads of a handle. `bent` has one field for each kind in the source. -/
structure Handle where
  /-- The size of a pointer. -/
  ptrSize : ℕ
  crcType : UInt8
  blocksize : ℕ
  bent : Kind → ℕ
  blocksize_lt : blocksize < 2 ^ 16
  fits : ∀ k, (k.format ptrSize).hdrSize + bent k * (k.format ptrSize).stride ≤ blocksize

/-- A checksum is kept unless `crc_type` is `JDB_CRC_NONE`. -/
def Handle.crc (h : Handle) : Bool := h.crcType ≠ 0

def calcBlkNentry (blkSize hdrSize entrySize : ℕ) : ℕ := (blkSize - hdrSize) / entrySize

/-- The number of entries that `_jdb_calc_bentries` configures. -/
def calcBentries (ptrSize : ℕ) (crcType : UInt8) (blocksize : ℕ) (hlo : 8 ≤ blocksize)
    (hhi : blocksize < 2 ^ 16) : Handle where
  ptrSize := ptrSize
  crcType := crcType
  blocksize := blocksize
  bent k := calcBlkNentry blocksize (k.format ptrSize).hdrSize (k.format ptrSize).stride
  blocksize_lt := hhi
  fits k := by
    have hhdr : (k.format ptrSize).hdrSize ≤ 8 := by cases k <;> exact of_decide_eq_true rfl
    have hdiv := Nat.div_mul_le_self (blocksize - (k.format ptrSize).hdrSize) (k.format ptrSize).stride
    unfold calcBlkNentry
    omega

section Functions
variable (h : Handle)

def packMap (blk : Block MapBlkHdr MapBlkEntry (h.bent .map)) (buf : ℕ → UInt8) : ℕ → UInt8 :=
  mapFormat.pack h.blocksize h.crc blk buf

def unpackMap (blk : Block MapBlkHdr MapBlkEntry (h.bent .map)) (buf : ℕ → UInt8) :
    Except JErr Unit × Block MapBlkHdr MapBlkEntry (h.bent .map) :=
  mapFormat.unpack h.blocksize h.crc blk buf

def packTypedef (blk : Block BlkHdr TypedefBlkEntry (h.bent .typedef)) (buf : ℕ → UInt8) : ℕ → UInt8 :=
  typedefFormat.pack h.blocksize h.crc blk buf

def unpackTypedef (blk : Block BlkHdr TypedefBlkEntry (h.bent .typedef)) (buf : ℕ → UInt8) :
    Except JErr Unit × Block BlkHdr TypedefBlkEntry (h.bent .typedef) :=
  typedefFormat.unpack h.blocksize h.crc blk buf

def packColTypedef (blk : Block BlkHdr ColTypedefBlkEntry (h.bent .colTypedef)) (buf : ℕ → UInt8) : ℕ → UInt8 :=
  colTypedefFormat.pack h.blocksize h.crc blk buf

def unpackColTypedef (blk : Block BlkHdr ColTypedefBlkEntry (h.bent .colTypedef)) (buf : ℕ → UInt8) :
    Except JErr Unit × Block BlkHdr ColTypedefBlkEntry (h.bent .colTypedef) :=
  colTypedefFormat.unpack h.blocksize h.crc blk buf

def packCelldef (blk : Block BlkHdr CelldefBlkEntry (h.bent .celldef)) (buf : ℕ → UInt8) : ℕ → UInt8 :=
  (celldefFormat h.ptrSize).pack h.blocksize h.crc blk buf

def unpackCelldef (blk : Block BlkHdr CelldefBlkEntry (h.bent .celldef)) (buf : ℕ → UInt8) :
    Except JErr Unit × Block BlkHdr CelldefBlkEntry (h.bent .celldef) :=
  (celldefFormat h.ptrSize).unpack h.blocksize h.crc blk buf

def packDataPtr (blk : Block BlkHdr CellDataPtrBlkEntry (h.bent .dataPtr)) (buf : ℕ → UInt8) : ℕ → UInt8 :=
  (dataPtrFormat h.ptrSize).pack h.blocksize h.crc blk buf

def unpackDataPtr (blk : Block BlkHdr CellDataPtrBlkEntry (h.bent .dataPtr)) (buf : ℕ → UInt8) :
    Except JErr Unit × Block BlkHdr CellDataPtrBlkEntry (h.bent .dataPtr) :=
  (dataPtrFormat h.ptrSize).unpack h.blocksize h.crc blk buf

abbrev Kind.Blk (k : Kind) : Type := Block k.Hdr k.Entry (h.bent k)

def Kind.pack : (k : Kind) → k.Blk h → (ℕ → UInt8) → ℕ → UInt8
  | .map => packMap h
  | .typedef => packTypedef h
  | .colTypedef => packColTypedef h
  | .celldef => packCelldef h
  | .dataPtr => packDataPtr h

def Kind.unpack : (k : Kind) → k.Blk h → (ℕ → UInt8) → Except JErr Unit × k.Blk h
  | .map => unpackMap h
  | .typedef => unpackTypedef h
  | .colTypedef => unpackColTypedef h
  | .celldef => unpackCelldef h
  | .dataPtr => unpackDataPtr h

end Functions

section RoundTrip
variable {h : Handle} {k : Kind} {blk old : k.Blk h} {buf : ℕ → UInt8}

theorem Kind.pack_eq : k.pack h blk buf = (k.format h.ptrSize).pack h.blocksize h.crc blk buf := by
  cases k <;> rfl

theorem Kind.unpack_eq : k.unpack h blk buf = (k.format h.ptrSize).unpack h.blocksize h.crc blk buf := by
  cases k <;> rfl

/-- Unpacking a packed block into `old` returns 0 and gives back the header and the entries. The pointers
in the entries are not compared. -/
def RoundTrips (h : Handle) (k : Kind) (blk old : k.Blk h) (buf : ℕ → UInt8) : Prop :=
  let r := k.unpack h old (k.pack h blk buf)
  r.1 = .ok () ∧ r.2.hdr = blk.hdr ∧
    r.2.entry.map (k.format h.ptrSize).entryFields = blk.entry.map (k.format h.ptrSize).entryFields

def Kind.crcAfter (h : Handle) (k : Kind) (blk old : k.Blk h) (buf : ℕ → UInt8) : UInt32 :=
  if h.crc then (k.format h.ptrSize).checksum h.blocksize blk buf else (k.format h.ptrSize).crc32 old.hdr

theorem Kind.unpack_pack_eq : k.unpack h old (k.pack h blk buf) = (k.format h.ptrSize).unpackBody
    (if h.crc then some ((k.format h.ptrSize).checksum h.blocksize blk buf) else none) old
    ((k.format h.ptrSize).packBody h.blocksize blk buf) := by
  rw [Kind.unpack_eq, Kind.pack_eq, BlockFormat.unpack_pack]

theorem Kind.unpack_pack_of_type (htype : (k.format h.ptrSize).type blk.hdr = (k.format h.ptrSize).btype) :
    let r := k.unpack h old (k.pack h blk buf)
    r.1 = .ok () ∧ r.2.hdr = (k.format h.ptrSize).setCrc32 (k.crcAfter h blk old buf) blk.hdr ∧
      r.2.entry = List.zipWith (k.format h.ptrSize).withPointers blk.entry old.entry := by
  obtain ⟨hok, hhdr, hentry⟩ := BlockFormat.unpackBody_packBody_of_type htype
  rw [Kind.unpack_pack_eq]
  refine ⟨hok, hhdr.trans ?_, hentry⟩
  unfold Kind.crcAfter
  cases h.crc <;> rfl

theorem Kind.unpack_pack_of_type_ne (htype : (k.format h.ptrSize).type blk.hdr ≠ (k.format h.ptrSize).btype) :
    (k.unpack h old (k.pack h blk buf)).1 = .error .type := by
  rw [Kind.unpack_pack_eq]
  exact BlockFormat.unpackBody_packBody_of_type_ne htype

/-- A header of another type is refused. Otherwise all is given back but `crc32`, and the pointers of the
entries stay what they were. -/
theorem restored_unpack_pack (h : Handle) (k : Kind) (blk old : k.Blk h) (buf : ℕ → UInt8) :
    let fmt := k.format h.ptrSize
    let r := k.unpack h old (k.pack h blk buf)
    if fmt.type blk.hdr = fmt.btype then
      r.1 = .ok () ∧ r.2.hdr = fmt.setCrc32 (k.crcAfter h blk old buf) blk.hdr ∧
        r.2.entry = List.zipWith fmt.withPointers blk.entry old.entry ∧
        r.2.entry.map fmt.entryFields = blk.entry.map fmt.entryFields
    else r.1 = .error .type := by
  by_cases htype : (k.format h.ptrSize).type blk.hdr = (k.format h.ptrSize).btype
  · obtain ⟨hok, hhdr, hentry⟩ : _ ∧ _ ∧ (k.unpack h old (k.pack h blk buf)).2.entry = _ :=
      Kind.unpack_pack_of_type htype
    simp only [if_pos htype]
    refine ⟨hok, hhdr, hentry, ?_⟩
    rw [hentry, BlockFormat.map_entryFields_zipWith (by rw [blk.length_entry, old.length_entry])]
  · simp only [if_neg htype]
    exact Kind.unpack_pack_of_type_ne htype

def plainHandle : Handle := calcBentries 8 0 1024 (by decide) (by decide)

def mapBlk (type : UInt8) (crc32 : UInt32) : Kind.map.Blk plainHandle :=
  ⟨⟨type, 0, 0, crc32⟩, List.replicate _ ⟨0, 0, 0, 0⟩, List.length_replicate⟩

/-- A header of the type of another kind is refused, and `crc32` is not given back. -/
theorem not_roundTrips_map : ¬ RoundTrips plainHandle .map (mapBlk 2 0) (mapBlk 1 0) (fun _ => 0) ∧
    ¬ RoundTrips plainHandle .map (mapBlk 1 7) (mapBlk 1 0) (fun _ => 0) := by
  constructor
  · intro hround
    have hret := hround.1
    rw [Kind.unpack_pack_of_type_ne (by decide)] at hret
    cases hret
  · intro hround
    exact absurd (congrArg MapBlkHdr.crc32
      ((Kind.unpack_pack_of_type rfl).2.1.symm.trans hround.2.1)) (by decide)

end RoundTrip
end Prj.Jlib
