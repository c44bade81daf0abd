import Prj.Base.Records
import Prj.Jlib.Store

/-!
The blocks of a database file that are rows of entries, and their form in the buffer.

Maps, type definitions, column types, cell definitions and data pointers are packed by functions of one
shape. A `BlockFormat` is what they differ in. `pos` is a `uint16_t` in the source. It does not wrap, the
entries of a handle fit into its block.
-/
namespace Prj.Jlib
open Prj.Base List

/-- The one-at-a-time hash, which the code uses as its `crc32`. -/
def jdbHash (key : List UInt8) : UInt32 :=
  let step (hash : UInt32) (b : UInt8) : UInt32 :=
    let hash := hash + b.toUInt32
    let hash := hash + (hash <<< 10)
    hash ^^^ (hash >>> 6)
  let hash := key.foldl step 0
  let hash := hash + (hash <<< 3)
  let hash := hash ^^^ (hash >>> 11)
  hash + (hash <<< 15)

structure BlockFormat (H E : Type) where
  btype : UInt8
  type : H → UInt8
  crc32 : H → UInt32
  setCrc32 : UInt32 → H → H
  /-- The fields of the header before `crc32`. -/
  hdrWidths : List ℕ
  hdrFields : H → List ℕ
  setHdr : List ℕ → H → H
  entryWidths : List ℕ
  entryFields : E → List ℕ
  setEntry : List ℕ → E → E
  /-- An entry with the pointers of another one: they are not in the file. -/
  withPointers : E → E → E
  /-- The size of an entry, its pointers too. -/
  stride : ℕ
  /-- The unpacking sets `crc32` before it looks at the type. -/
  crcFirst : Bool
  hdr_fit : ∀ hdr, Fit hdrWidths (hdrFields hdr)
  entry_fit : ∀ entry, Fit entryWidths (entryFields entry)
  setHdr_hdrFields : ∀ hdr old, setHdr (hdrFields hdr) old = setCrc32 (crc32 old) hdr
  setEntry_entryFields : ∀ entry old, setEntry (entryFields entry) old = withPointers entry old
  entryFields_withPointers : ∀ entry old, entryFields (withPointers entry old) = entryFields entry
  type_setCrc32 : ∀ crc hdr, type (setCrc32 crc hdr) = type hdr
  setCrc32_setCrc32 : ∀ crc crc' hdr, setCrc32 crc (setCrc32 crc' hdr) = setCrc32 crc hdr
  widths_le : entryWidths.sum ≤ stride

structure Block (H E : Type) (bent : ℕ) where
  hdr : H
  entry : List E
  length_entry : entry.length = bent

namespace BlockFormat
variable {H E : Type} {bent : ℕ} (fmt : BlockFormat H E)

def crcPos : ℕ := fmt.hdrWidths.sum

def hdrSize : ℕ := fmt.crcPos + 4

def packEntry (entry : E) : List UInt8 := packFields fmt.entryWidths (fmt.entryFields entry)

def unpackEntry (buf : ℕ → UInt8) (pos : ℕ) (old : E) : E :=
  fmt.setEntry (unpackFields buf pos fmt.entryWidths) old

def packBody (blocksize : ℕ) (blk : Block H E bent) (buf : ℕ → UInt8) : ℕ → UInt8 :=
  let pos := fmt.hdrSize + bent * fmt.stride
  let buf := store buf pos (List.replicate (blocksize - pos) 0)
  let buf := store buf 0 (packFields fmt.hdrWidths (fmt.hdrFields blk.hdr) ++ bigEndian 4 0)
  storeRows fmt.stride fmt.packEntry fmt.hdrSize blk.entry buf

def pack (blocksize : ℕ) (crc : Bool) (blk : Block H E bent) (buf : ℕ → UInt8) : ℕ → UInt8 :=
  let buf := fmt.packBody blocksize blk buf
  if crc then store buf fmt.crcPos (bigEndian 4 (jdbHash (fetch buf 0 blocksize)).toNat) else buf

def unpackBody (crc32 : Option UInt32) (blk : Block H E bent) (buf : ℕ → UInt8) : Except JErr Unit × Block H E bent :=
  let hdr := fmt.setHdr (unpackFields buf 0 fmt.hdrWidths) blk.hdr
  let hdrCrc := match crc32 with
    | some crc32 => fmt.setCrc32 crc32 hdr
    | none => hdr
  if fmt.type hdr ≠ fmt.btype then
    (.error .type, { blk with hdr := if fmt.crcFirst then hdrCrc else hdr })
  else
    (.ok (), ⟨hdrCrc, loadRows fmt.stride fmt.unpackEntry buf fmt.hdrSize blk.entry,
      by rw [length_loadRows, blk.length_entry]⟩)

/-- The return value and the block; the buffer is left with a checksum of zero. -/
def unpack (blocksize : ℕ) (crc : Bool) (blk : Block H E bent) (buf : ℕ → UInt8) : Except JErr Unit × Block H E bent :=
  if crc then
    let crc32 := UInt32.ofNat (ofBigEndian (fetch buf fmt.crcPos 4))
    let buf := store buf fmt.crcPos (bigEndian 4 0)
    if crc32 ≠ jdbHash (fetch buf 0 blocksize) then (.error .crc, blk)
    else fmt.unpackBody (some crc32) blk buf
  else fmt.unpackBody none blk buf

section Lemmas
variable {fmt} {blocksize p : ℕ} {blk old : Block H E bent} {buf : ℕ → UInt8} {crc : Bool} {crc32 : Option UInt32}

theorem fetch_packBody_hdr : fetch (fmt.packBody blocksize blk buf) 0 fmt.hdrSize =
    packFields fmt.hdrWidths (fmt.hdrFields blk.hdr) ++ bigEndian 4 0 := by
  have hlen : (packFields fmt.hdrWidths (fmt.hdrFields blk.hdr) ++ bigEndian 4 0).length = fmt.hdrSize := by
    rw [length_append, length_packFields (fmt.hdr_fit _), length_bigEndian, hdrSize, crcPos]
  unfold packBody
  rw [fetch_congr fun i _ hi => storeRows_of_lt (by omega), ← hlen, fetch_store]

theorem fetch_packBody : fetch (fmt.packBody blocksize blk buf) 0 fmt.crcPos =
      packFields fmt.hdrWidths (fmt.hdrFields blk.hdr) ∧
    fetch (fmt.packBody blocksize blk buf) fmt.crcPos 4 = bigEndian 4 0 := by
  have h : fetch (fmt.packBody blocksize blk buf) 0 (fmt.crcPos + 4) =
      packFields fmt.hdrWidths (fmt.hdrFields blk.hdr) ++ bigEndian 4 0 := fetch_packBody_hdr
  rw [fetch_add, Nat.zero_add] at h
  apply append_inj h
  rw [length_fetch, length_packFields (fmt.hdr_fit _), crcPos]

theorem unpackFields_packBody : unpackFields (fmt.packBody blocksize blk buf) 0 fmt.hdrWidths = fmt.hdrFields blk.hdr :=
  unpackFields_of_fetch (fmt.hdr_fit _) fetch_packBody.1

theorem length_packEntry (entry : E) : (fmt.packEntry entry).length = fmt.entryWidths.sum :=
  length_packFields (fmt.entry_fit entry)

theorem loadRows_packBody : loadRows fmt.stride fmt.unpackEntry (fmt.packBody blocksize blk buf) fmt.hdrSize old.entry =
      List.zipWith fmt.withPointers blk.entry old.entry := by
  apply loadRows_storeRows (by rw [blk.length_entry, old.length_entry])
  · intro entry
    rw [length_packEntry]
    exact fmt.widths_le
  · intro mem p entry o h
    rw [length_packEntry] at h
    rw [unpackEntry, unpackFields_of_fetch (fmt.entry_fit entry) h, fmt.setEntry_entryFields]
  · intro i _
    rfl

def checksum (fmt : BlockFormat H E) (blocksize : ℕ) (blk : Block H E bent) (buf : ℕ → UInt8) : UInt32 :=
  jdbHash (fetch (fmt.packBody blocksize blk buf) 0 blocksize)

theorem pack_true : fmt.pack blocksize true blk buf = store (fmt.packBody blocksize blk buf) fmt.crcPos
    (bigEndian 4 (fmt.checksum blocksize blk buf).toNat) := rfl

theorem store_zero_pack : store (fmt.pack blocksize true blk buf) fmt.crcPos (bigEndian 4 0) =
    fmt.packBody blocksize blk buf := by
  rw [pack_true, store_store (by rw [length_bigEndian, length_bigEndian])]
  exact store_of_fetch fetch_packBody.2

theorem fetch_crc_pack : fetch (fmt.pack blocksize true blk buf) fmt.crcPos 4 =
    bigEndian 4 (fmt.checksum blocksize blk buf).toNat := by
  rw [pack_true]
  exact fetch_store

theorem unpack_pack : fmt.unpack blocksize crc old (fmt.pack blocksize crc blk buf) =
    fmt.unpackBody (if crc then some (fmt.checksum blocksize blk buf) else none) old
      (fmt.packBody blocksize blk buf) := by
  cases crc with
  | false => rfl
  | true =>
    have hread : ofBigEndian (fetch (fmt.pack blocksize true blk buf) fmt.crcPos 4) =
        (fmt.checksum blocksize blk buf).toNat := by
      rw [fetch_crc_pack, ofBigEndian_bigEndian_of_lt (UInt32.toNat_lt _)]
    have hcheck : fmt.checksum blocksize blk buf = jdbHash (fetch (fmt.packBody blocksize blk buf) 0 blocksize) := rfl
    unfold unpack
    simp only [if_true, hread, store_zero_pack, UInt32.ofNat_toNat]
    rw [if_neg (not_not.2 hcheck)]

theorem unpackBody_packBody_of_type (h : fmt.type blk.hdr = fmt.btype) :
    let r := fmt.unpackBody crc32 old (fmt.packBody blocksize blk buf)
    r.1 = .ok () ∧ r.2.hdr = fmt.setCrc32 (crc32.getD (fmt.crc32 old.hdr)) blk.hdr ∧
      r.2.entry = List.zipWith fmt.withPointers blk.entry old.entry := by
  have hhdr : fmt.setHdr (unpackFields (fmt.packBody blocksize blk buf) 0 fmt.hdrWidths) old.hdr =
      fmt.setCrc32 (fmt.crc32 old.hdr) blk.hdr := by
    rw [unpackFields_packBody, fmt.setHdr_hdrFields]
  unfold unpackBody
  simp only [hhdr, fmt.type_setCrc32]
  rw [if_neg (not_not.2 h)]
  refine ⟨rfl, ?_, loadRows_packBody⟩
  cases crc32 with
  | none => rfl
  | some crc32 => exact fmt.setCrc32_setCrc32 _ _ _

theorem unpackBody_packBody_of_type_ne (h : fmt.type blk.hdr ≠ fmt.btype) :
    (fmt.unpackBody crc32 old (fmt.packBody blocksize blk buf)).1 = .error .type := by
  unfold unpackBody
  simp only [unpackFields_packBody, fmt.setHdr_hdrFields, fmt.type_setCrc32]
  rw [if_pos h]

theorem map_entryFields_zipWith {as olds : List E} (h : as.length = olds.length) :
    (List.zipWith fmt.withPointers as olds).map fmt.entryFields = as.map fmt.entryFields := by
  induction as generalizing olds with
  | nil => rfl
  | cons a as ih =>
    obtain ⟨old, olds, rfl⟩ : ∃ old olds', olds = old :: olds' :=
      exists_cons_of_length_pos (by rw [← h]; simp)
    rw [zipWith_cons_cons, map_cons, fmt.entryFields_withPointers, ih (by simpa using h), map_cons]

end Lemmas
end BlockFormat
end Prj.Jlib
