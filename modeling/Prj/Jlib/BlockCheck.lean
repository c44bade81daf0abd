import Prj.Base.Mix
import Prj.Jlib.BlockRoundTrip

/-! A packed block with one changed byte is refused. -/
namespace Prj.Jlib
open Prj.Base Function

section Hash
def hashStep (hash : UInt32) (b : UInt8) : UInt32 :=
  let hash := hash + b.toUInt32
  let hash := hash + (hash <<< 10)
  hash ^^^ (hash >>> 6)

def hashEnd (hash : UInt32) : UInt32 :=
  let hash := hash + (hash <<< 3)
  let hash := hash ^^^ (hash >>> 11)
  hash + (hash <<< 15)

theorem mix_injective : Injective fun hash : UInt32 =>
    (hash + (hash <<< 10)) ^^^ ((hash + (hash <<< 10)) >>> 6) := by
  have hadd : Injective fun x : UInt32 => x + (x <<< 10) := uint32_add_shiftLeft_injective (by decide)
  have hxor : Injective fun x : UInt32 => x ^^^ (x >>> 6) := uint32_xor_shiftRight_injective (by decide)
  exact hxor.comp hadd

theorem hashStep_injective (b : UInt8) : Injective fun hash => hashStep hash b := by
  intro x y h
  exact (UInt32.add_left_inj b.toUInt32).1 (mix_injective h)

theorem hashStep_injective_byte (hash : UInt32) : Injective (hashStep hash) := by
  intro x y h
  have hsum : hash + x.toUInt32 = hash + y.toUInt32 := mix_injective h
  exact UInt8.toUInt32_inj.1 ((UInt32.add_right_inj hash).1 hsum)

theorem hashEnd_injective : Injective hashEnd := by
  have h3 : Injective fun x : UInt32 => x + (x <<< 3) := uint32_add_shiftLeft_injective (by decide)
  have h11 : Injective fun x : UInt32 => x ^^^ (x >>> 11) := uint32_xor_shiftRight_injective (by decide)
  have h15 : Injective fun x : UInt32 => x + (x <<< 15) := uint32_add_shiftLeft_injective (by decide)
  exact h15.comp (h11.comp h3)

end Hash

namespace BlockFormat
variable {H E : Type} {bent : ℕ} {fmt : BlockFormat H E} {blocksize : ℕ} {blk old : Block H E bent}
  {buf mem : ℕ → UInt8} {i : ℕ} {b : UInt8}

theorem unpack_of_ne (h : UInt32.ofNat (ofBigEndian (fetch mem fmt.crcPos 4)) ≠
    jdbHash (fetch (store mem fmt.crcPos (bigEndian 4 0)) 0 blocksize)) :
    (fmt.unpack blocksize true old mem).1 = .error .crc := by
  unfold unpack
  simp only [if_true]
  rw [if_pos h]

theorem unpack_update_crc (hlo : fmt.crcPos ≤ i) (hhi : i < fmt.crcPos + 4)
    (hb : b ≠ fmt.pack blocksize true blk buf i) :
    (fmt.unpack blocksize true old (update (fmt.pack blocksize true blk buf) i b)).1 = .error .crc := by
  apply unpack_of_ne
  rw [store_update_of_mem hlo (by simpa using hhi), store_zero_pack]
  intro h
  apply fetch_update_ne hlo hhi hb
  apply eq_of_ofBigEndian_eq (by simp)
  have hlt := ofBigEndian_lt (fetch (update (fmt.pack blocksize true blk buf) i b) fmt.crcPos 4)
  rw [length_fetch] at hlt
  have hread := congrArg UInt32.toNat h
  rw [UInt32.toNat_ofNat_of_lt' hlt] at hread
  rw [hread, fetch_crc_pack, ofBigEndian_bigEndian_of_lt (UInt32.toNat_lt _)]
  rfl

theorem unpack_update_body (hi : i < blocksize) (hout : i < fmt.crcPos ∨ fmt.crcPos + 4 ≤ i)
    (hb : b ≠ fmt.pack blocksize true blk buf i) :
    (fmt.unpack blocksize true old (update (fmt.pack blocksize true blk buf) i b)).1 = .error .crc := by
  apply unpack_of_ne
  have hbyte : fmt.pack blocksize true blk buf i = fmt.packBody blocksize blk buf i := by
    rcases hout with h | h
    · exact store_of_lt h
    · exact store_of_le (by exact h)
  rw [store_update_of_notMem (by exact hout), store_zero_pack, fetch_update_of_notMem hout,
    fetch_crc_pack, ofBigEndian_bigEndian_of_lt (UInt32.toNat_lt _), UInt32.ofNat_toNat,
    fetch_update_zero]
  have hlt : i < (fetch (fmt.packBody blocksize blk buf) 0 blocksize).length := by simpa using hi
  have hget : (fetch (fmt.packBody blocksize blk buf) 0 blocksize)[i] ≠ b := by
    simp only [fetch, List.getElem_map, List.getElem_range, Nat.zero_add, ← hbyte]
    exact hb.symm
  exact (hashEnd_injective.ne (foldl_set_ne hashStep_injective hashStep_injective_byte hlt hget)).symm

end BlockFormat

section Check
/-- With checksums, a packed block with one changed byte is refused. -/
theorem unpack_update_pack (h : Handle) (hcrc : h.crc = true) (k : Kind) (blk old : k.Blk h)
    (buf : ℕ → UInt8) (i : ℕ) (hi : i < h.blocksize) (b : UInt8) (hb : b ≠ k.pack h blk buf i) :
    (k.unpack h old (update (k.pack h blk buf) i b)).1 = .error .crc := by
  rw [Kind.pack_eq, hcrc] at hb
  rw [Kind.unpack_eq, Kind.pack_eq, hcrc]
  by_cases hin : (k.format h.ptrSize).crcPos ≤ i ∧ i < (k.format h.ptrSize).crcPos + 4
  · exact BlockFormat.unpack_update_crc hin.1 hin.2 hb
  · exact BlockFormat.unpack_update_body hi (by omega) hb

def crcHandle : Handle := calcBentries 8 1 64 (by decide) (by decide)

def usedMap : Kind.map.Blk crcHandle :=
  ⟨⟨1, 0, 0, 0⟩, List.replicate _ ⟨3, 2, 0x1234, 5⟩, List.length_replicate⟩

/-- The byte 20 of a map with entries in use is changed. -/
theorem unpack_update_pack_usedMap : crcHandle.crc = true ∧ 20 < crcHandle.blocksize ∧
    (7 : UInt8) ≠ Kind.map.pack crcHandle usedMap (fun _ => 0) 20 ∧ (Kind.map.unpack crcHandle usedMap
      (update (Kind.map.pack crcHandle usedMap fun _ => 0) 20 7)).1 = .error .crc := by
  have hcrc : crcHandle.crc = true := by decide
  have hi : 20 < crcHandle.blocksize := by decide
  have hb : (7 : UInt8) ≠ Kind.map.pack crcHandle usedMap (fun _ => 0) 20 := by decide +kernel
  exact ⟨hcrc, hi, hb, unpack_update_pack crcHandle hcrc .map usedMap usedMap _ 20 hi 7 hb⟩

end Check
end Prj.Jlib
