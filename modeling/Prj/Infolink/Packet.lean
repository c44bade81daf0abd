import Prj.Lib13.Crypt
import Prj.Lib13.Pack

/-!
Packets that are made for a link (`ilink_prepare_pkt` in `infolink/ilink_pkt.c`).

Sizes and `size_t` have 32 bits. Places in a buffer are counted from its first byte, and `mem` is what the
allocation and the bytes behind it hold.
-/
namespace Prj.Infolink.Packet
open Prj.Base Prj.Lib13 List

section Model
/-- `ILINK_PPKT_ASYM`, `ILINK_PPKT_NOPACK` and `ILINK_PPKT_NOCRC`. -/
structure Flags where
  asym : Bool
  nopack : Bool
  nocrc : Bool
  deriving DecidableEq, Repr

structure PktHdr where
  type : UInt16
  id : UInt32
  datalen : UInt32
  datacrc32 : UInt32
  deriving DecidableEq, Repr

/-- `ILINK_PKT_HDR_SIZE` -/
def pktHdrSize : ℕ := 2 + 4 + 4 + 4

/-- The payload of a packet, with its length of type `ilink_datalen_t`. -/
structure Data where
  bytes : List UInt8
  length_lt : bytes.length < 2 ^ 32

def Data.len (data : Data) : UInt32 := .ofNat data.bytes.length

def noFloat : Codec754 Unit := ⟨fun _ _ _ => 0, fun _ _ _ => ()⟩

/-- `_ilink_pack_pkt_hdr`, whose result is not checked. -/
def packPktHdr (hdr : PktHdr) : List UInt8 :=
  match pack13 noFloat pktHdrSize "HLLL".toList
    [.int hdr.type.toNat, .int hdr.id.toNat, .int hdr.datalen.toNat, .int hdr.datacrc32.toNat] with
  | .ok r => r.2
  | .error _ => []

structure Crypts where
  asymCrypt : Crypt13
  symCrypt : Crypt13

def Crypts.select (link : Crypts) (flags : Flags) : Crypt13 :=
  if flags.asym then link.asymCrypt else link.symCrypt

/-- `h13_crc32` is given. -/
def pktHdr (crc32 : List UInt8 → UInt32) (data : Data) (type : UInt16) (flags : Flags) : PktHdr :=
  let datacrc32 := if flags.nocrc = false ∧ data.len ≠ 0 then crc32 data.bytes else 0
  ⟨type, datacrc32, data.len, datacrc32⟩

def plainWrites (crc32 : List UInt8 → UInt32) (data : Data) (type : UInt16) (flags : Flags) : List (ℕ × List UInt8) :=
  (if flags.nopack then [] else [(0, packPktHdr (pktHdr crc32 data type flags))]) ++
    if data.len ≠ 0 then [(pktHdrSize, data.bytes)] else []

def Data.pktSize (data : Data) : UInt32 := data.len + .ofNat pktHdrSize

inductive PrepareError
  | nomem
  | crypt (e : CryptError)
  deriving DecidableEq, Repr

/-- What a call allocates and writes, and `bufsize` or the error. -/
structure Prepared where
  size : UInt32
  writes : List (ℕ × List UInt8)
  bufsize : Except PrepareError UInt32

/-- `ilink_prepare_pkt` up to the send list. `malloc` finds memory, but `m13_malloc` gives none for the size 0. The
packet is encrypted in its place. -/
def ilinkPreparePkt (crc32 : List UInt8 → UInt32) (link : Crypts) (data : Data) (type : UInt16) (flags : Flags)
    (mem : ℕ → UInt8) : Prepared :=
  let plain := plainWrites crc32 data type flags
  if data.pktSize = 0 then ⟨data.pktSize, [], .error .nomem⟩
  else
    match (link.select flags).encryptInPlace (storeAll mem plain) data.pktSize.toNat with
    | .error e => ⟨data.pktSize, plain, .error (.crypt e)⟩
    | .ok (outsize, bytes) => ⟨data.pktSize, plain ++ [(0, bytes)], .ok (.ofNat outsize)⟩

def Prepared.bytes (p : Prepared) (mem : ℕ → UInt8) (bufsize : UInt32) : List UInt8 :=
  fetch (storeAll mem p.writes) 0 bufsize.toNat

end Model

section Bounds
variable {crc32 : List UInt8 → UInt32} {link : Crypts} {data : Data} {type : UInt16} {flags : Flags} {mem : ℕ → UInt8}
  {insize : ℕ} {c : Crypt13}

def Prepared.WritesInside (p : Prepared) : Prop := ∀ w ∈ p.writes, w.1 + w.2.length ≤ p.size.toNat

instance (p : Prepared) : Decidable p.WritesInside :=
  inferInstanceAs (Decidable (∀ w ∈ p.writes, w.1 + w.2.length ≤ p.size.toNat))

/-- The output of the cipher is not longer than the packet, or there is none. -/
def NoPadding (c : Crypt13) (insize : ℕ) (msg : List UInt8) : Prop :=
  c.magic = true → match c.alg with
    | .aes | .des3 => insize % c.alg.blocksize = 0 ∨ sizeTop - c.alg.blocksize < insize
    | .ntru => c.keyed.ntruEncrypt msg = none ∨ c.keyed.ntruEncLen ≤ insize
    | .none | .des | .rc4 | .xtea => True

theorem Data.toNat_len (data : Data) : data.len.toNat = data.bytes.length :=
  UInt32.toNat_ofNat_of_lt' data.length_lt

theorem Data.toNat_pktSize (data : Data) (h : data.bytes.length + 14 < 2 ^ 32) :
    data.pktSize.toNat = data.bytes.length + 14 := by
  have h14 : (UInt32.ofNat pktHdrSize).toNat = 14 := rfl
  rw [pktSize, UInt32.toNat_add, h14, data.toNat_len, Nat.mod_eq_of_lt h]

theorem Data.pktSize_ne_zero (data : Data) (h : data.bytes.length + 14 < 2 ^ 32) : data.pktSize ≠ 0 := by
  intro h0
  have hsize := data.toNat_pktSize h
  rw [h0, UInt32.toNat_zero] at hsize
  omega

theorem Data.pktSize_eq_zero (data : Data) (h : data.bytes.length + 14 = 2 ^ 32) : data.pktSize = 0 := by
  have h14 : (UInt32.ofNat pktHdrSize).toNat = 14 := rfl
  rw [← UInt32.toNat_inj, pktSize, UInt32.toNat_add, h14, data.toNat_len, h]
  rfl

theorem packPktHdr_eq (hdr : PktHdr) : packPktHdr hdr = packFields [2, 4, 4, 4]
    [hdr.type.toNat, hdr.id.toNat, hdr.datalen.toNat, hdr.datacrc32.toNat] := by
  simp [packPktHdr, pack13, packLoop, packStep, dirOf, emit, packFields, pktHdrSize, bind, Except.bind, pure,
    Except.pure]

theorem PktHdr.fit (hdr : PktHdr) :
    Fit [2, 4, 4, 4] [hdr.type.toNat, hdr.id.toNat, hdr.datalen.toNat, hdr.datacrc32.toNat] :=
  fit_cons16 _ (fit_cons32 _ (fit_cons32 _ (fit_cons32 _ .nil)))

theorem length_packPktHdr (hdr : PktHdr) : (packPktHdr hdr).length = 14 := by
  rfl

theorem plainWrites_inside_iff (crc32 : List UInt8 → UInt32) (data : Data) (type : UInt16) (flags : Flags) :
    (∀ w ∈ plainWrites crc32 data type flags, w.1 + w.2.length ≤ data.pktSize.toNat) ↔
    data.bytes.length + 14 < 2 ^ 32 := by
  constructor
  · intro h
    by_contra hlt
    have hlen := data.length_lt
    have hne : data.len ≠ 0 := by
      intro hz
      have hlen' := data.toNat_len
      rw [hz, UInt32.toNat_zero] at hlen'
      omega
    have hmem : (pktHdrSize, data.bytes) ∈ plainWrites crc32 data type flags := by
      simp [plainWrites, hne]
    have hsize : data.pktSize.toNat = data.bytes.length + 14 - 2 ^ 32 := by
      have h14 : (UInt32.ofNat pktHdrSize).toNat = 14 := rfl
      rw [Data.pktSize, UInt32.toNat_add, data.toNat_len]
      omega
    have hle := h _ hmem
    simp only [hsize] at hle
    omega
  · intro hlt w hw
    rw [data.toNat_pktSize hlt]
    rw [plainWrites, mem_append] at hw
    rcases hw with hw | hw
    · split_ifs at hw with hpack
      · cases hw
      · rw [mem_singleton.1 hw, length_packPktHdr]
        omega
    · split_ifs at hw with hdata
      · rw [mem_singleton.1 hw, Nat.add_comm]
        exact Nat.le_refl _
      · cases hw

theorem length_enc_total (mem : ℕ → UInt8) (insize : ℕ) (halg : c.alg = .aes ∨ c.alg = .des3) :
    (c.enc (fetch mem 0 (c.alg.blocksize * cryptblocks c.alg.blocksize insize % sizeTop))).length =
      c.alg.blocksize * cryptblocks c.alg.blocksize insize % sizeTop := by
  have hdvd : c.alg.blocksize ∣ sizeTop := by
    rcases halg with h | h <;> rw [h] <;> decide
  obtain ⟨k, hk⟩ : c.alg.blocksize ∣ c.alg.blocksize * cryptblocks c.alg.blocksize insize % sizeTop :=
    (Nat.dvd_mod_iff hdvd).2 (Nat.dvd_mul_right _ _)
  rw [c.length_enc (by rw [length_fetch, hk, Nat.mul_comm]), length_fetch]

/-- The output of a block cipher is longer than its input, unless it needs no padding or its length wraps around
to 0. -/
theorem length_enc_le_iff (mem : ℕ → UInt8) (halg : c.alg = .aes ∨ c.alg = .des3) (hinsize : insize < sizeTop) :
    (c.enc (fetch mem 0 (c.alg.blocksize * cryptblocks c.alg.blocksize insize % sizeTop))).length ≤ insize ↔
      insize % c.alg.blocksize = 0 ∨ sizeTop - c.alg.blocksize < insize := by
  rw [length_enc_total mem insize halg]
  unfold cryptblocks sizeTop at *
  rcases halg with h | h
  all_goals
    rw [h, Alg.blocksize]
    split_ifs <;> omega

theorem encryptInPlace_cases (c : Crypt13) (mem : ℕ → UInt8) (hinsize : insize < sizeTop) :
    (∃ e, c.encryptInPlace mem insize = .error e ∧ NoPadding c insize (fetch mem 0 insize)) ∨
      ∃ r, c.encryptInPlace mem insize = .ok r ∧ (r.2.length ≤ insize ↔ NoPadding c insize (fetch mem 0 insize)) := by
  unfold Crypt13.encryptInPlace NoPadding
  by_cases hmagic : c.magic = false
  · exact .inl ⟨.misuse, by simp [hmagic], by simp [hmagic]⟩
  cases halg : c.alg with
  | none => exact .inr ⟨(insize, []), by simp [hmagic], by simp⟩
  | aes =>
    have hle := length_enc_le_iff mem (.inl halg) hinsize
    rw [halg] at hle
    simp only [hmagic, Bool.true_eq_false, if_false, forall_const]
    exact .inr ⟨_, rfl, hle⟩
  | des3 =>
    have hle := length_enc_le_iff mem (.inr halg) hinsize
    rw [halg] at hle
    simp only [hmagic, Bool.true_eq_false, if_false, forall_const]
    exact .inr ⟨_, rfl, hle⟩
  | ntru =>
    cases hntru : c.keyed.ntruEncrypt (fetch mem 0 insize) with
    | none => exact .inl ⟨.internal, by simp [hmagic], by simp⟩
    | some enc =>
      refine .inr ⟨(c.keyed.ntruEncLen, enc), by simp [hmagic], ?_⟩
      simp [hmagic, c.keyed.length_ntruEncrypt _ _ hntru]
  | des | rc4 | xtea => exact .inl ⟨.implement, by simp [hmagic], by simp⟩

theorem size_ilinkPreparePkt : (ilinkPreparePkt crc32 link data type flags mem).size = data.pktSize := by
  simp only [ilinkPreparePkt]
  split_ifs
  · rfl
  · split <;> rfl

variable (crc32 link data type flags mem)

/-- The size of the packet does not wrap around and the cipher adds nothing. A size that wraps around to 0 is never
allocated. -/
def Contained : Prop := data.bytes.length + 14 = 2 ^ 32 ∨ data.bytes.length + 14 < 2 ^ 32 ∧
  NoPadding (link.select flags) (data.bytes.length + 14)
    (fetch (storeAll mem (plainWrites crc32 data type flags)) 0 (data.bytes.length + 14))

/-- A call writes only to what it allocates if and only if the packet is contained in its size. -/
theorem writesInside_iff : (ilinkPreparePkt crc32 link data type flags mem).WritesInside ↔
    Contained crc32 link data type flags mem := by
  have hplain := plainWrites_inside_iff crc32 data type flags
  have hcases := encryptInPlace_cases (link.select flags) (storeAll mem (plainWrites crc32 data type flags))
    data.pktSize.toNat_lt
  unfold Prepared.WritesInside Contained
  rw [size_ilinkPreparePkt]
  rcases Nat.lt_trichotomy (data.bytes.length + 14) (2 ^ 32) with hlt | heq | hgt
  · have hne := data.pktSize_ne_zero hlt
    rw [data.toNat_pktSize hlt] at hcases
    simp only [hlt, hlt.ne, iff_true, true_and, false_or, data.toNat_pktSize hlt] at hplain ⊢
    rcases hcases with ⟨e, herr, hpad⟩ | ⟨r, hok, hiff⟩
    · simp only [ilinkPreparePkt, if_neg hne, data.toNat_pktSize hlt, herr]
      exact iff_of_true hplain hpad
    · simp only [ilinkPreparePkt, if_neg hne, data.toNat_pktSize hlt, hok, forall_mem_append, forall_mem_singleton,
        Nat.zero_add]
      rw [← hiff]
      exact and_iff_right hplain
  · simp [ilinkPreparePkt, data.pktSize_eq_zero heq, heq]
  · have hne : data.pktSize ≠ 0 := by
      intro h0
      have hsize := congrArg UInt32.toNat h0
      have h14 : (UInt32.ofNat pktHdrSize).toNat = 14 := rfl
      rw [Data.pktSize, UInt32.toNat_add, h14, data.toNat_len, UInt32.toNat_zero] at hsize
      have hlen := data.length_lt
      omega
    refine iff_of_false (fun h => hgt.not_gt (hplain.1 fun w hw => h w ?_)) (by omega)
    simp only [ilinkPreparePkt, if_neg hne]
    split
    · exact hw
    · exact mem_append_left _ hw

/-- A link whose ciphers are AES, with blocks turned around for a cipher. -/
def aesLink : Crypts := ⟨⟨true, .aes, reverseKeyed⟩, ⟨true, .aes, reverseKeyed⟩⟩

/-- 14 bytes are allocated for a packet without data, and 16 are written. -/
theorem not_writesInside_noData : ¬ (ilinkPreparePkt (fun _ => 0) aesLink ⟨[], by decide⟩ 256 ⟨false, false, false⟩
    fun _ => 0).WritesInside := by
  decide +kernel

end Bounds
end Prj.Infolink.Packet
