import Prj.Infolink.RecvPkt

/-! Packets that are taken from the received list (`ilink_explode_pkt` in `infolink/ilink_pkt.c`). -/
namespace Prj.Infolink.Packet
open Prj.Base Prj.Lib13 List

/-- The result, with what the call has put to the places that it is given. -/
inductive ExplodeRet
  | ok (data : List UInt8) (datalen : UInt32) (type : UInt16)
  | empty
  | corrupt (data : List UInt8) (datalen : UInt32)
  | crypt (e : CryptError)
  deriving DecidableEq, Repr

/-- `ilink_explode_pkt` with successful allocations, the list and its count after it. A result `none` is a call that
uses the header before it is set, or reads behind the buffer. -/
def ilinkExplodePkt (crc32 : List UInt8 → UInt32) (link : Crypts) (flags : Flags) (rcvd : List IBuf) (n : UInt32) :
    Option (ExplodeRet × List IBuf × UInt32) :=
  match rcvd with
  | [] => some (.empty, rcvd, n)
  | first :: rest =>
    match decryptApart (link.select flags) first.buf first.bufsize.toNat with
    | .error e => some (.crypt e, rcvd, n)
    | .ok bytes =>
      let buf := bytes ++ first.buf.drop bytes.length
      if flags.nopack then none
      else do
        let hdr ← unpackPktHdr fun i => buf.getD i 0
        let data := (buf.drop pktHdrSize).take hdr.datalen.toNat
        if buf.length < pktHdrSize + hdr.datalen.toNat then none
        else if flags.nocrc = false ∧ (if hdr.datalen ≠ 0 then crc32 data else 0) ≠ hdr.datacrc32 then
          some (.corrupt data hdr.datalen, { first with buf, bufsize := .ofNat bytes.length } :: rest, n)
        else some (.ok data hdr.datalen hdr.type, rest, n - 1)

section
variable {crc32 : List UInt8 → UInt32} {link : Crypts} {data : Data} {type : UInt16} {flags : Flags} {mem : ℕ → UInt8}
  {bufsize : UInt32} {first : IBuf} {rest : List IBuf} {n : UInt32}

variable (crc32 link data type flags mem bufsize) in
/-- A buffer that holds the packet, as it was put to the send list, is exploded to what the packet was made of. -/
def Explodes : Prop :=
  ∀ (first : IBuf) (rest : List IBuf) (n : UInt32), first.bufsize = bufsize →
    first.buf = (ilinkPreparePkt crc32 link data type flags mem).bytes mem bufsize →
    ilinkExplodePkt crc32 link flags (first :: rest) n = some (.ok data.bytes data.len type, rest, n - 1)

/-- The cipher is inverted, and no size of its output wraps around. -/
structure Inverts (c : Crypt13) (insize : ℕ) : Prop where
  insize_lt : insize < 2 ^ 32
  padded_lt : c.padded insize < 2 ^ 32
  ntruEncLen_lt : c.keyed.ntruEncLen < 2 ^ 32
  ntruDecrypt : ∀ msg enc, c.keyed.ntruEncrypt msg = some enc → c.keyed.ntruDecrypt enc = msg

theorem ilinkExplodePkt_of_plain (hdr : PktHdr) {junk : List UInt8} (hpack : flags.nopack = false)
    (hlen : hdr.datalen = data.len)
    (hcrc : flags.nocrc = false → (if data.len ≠ 0 then crc32 data.bytes else 0) = hdr.datacrc32)
    (hdecrypt : decryptApart (link.select flags) first.buf first.bufsize.toNat =
      .ok (packPktHdr hdr ++ data.bytes ++ junk)) :
    ilinkExplodePkt crc32 link flags (first :: rest) n = some (.ok data.bytes data.len hdr.type, rest, n - 1) := by
  have hhdr : (packPktHdr hdr).length = pktHdrSize := length_packPktHdr hdr
  simp only [ilinkExplodePkt, hdecrypt, append_assoc, hpack, Bool.false_eq_true, if_false]
  -- what is behind the data does not matter
  generalize junk ++ first.buf.drop _ = tail
  have hfetch : fetch (fun i => (packPktHdr hdr ++ (data.bytes ++ tail)).getD i 0) 0 pktHdrSize = packPktHdr hdr := by
    rw [fetch_eq_take (n := (packPktHdr hdr ++ (data.bytes ++ tail)).length) (by simp [hhdr]), fetch_getD,
      take_left' hhdr]
  rw [unpackPktHdr_of_fetch hfetch]
  simp only [hlen, drop_left' hhdr, data.toNat_len, take_left, Option.bind_eq_bind, Option.bind_some]
  rw [if_neg (by simp [hhdr]), if_neg fun h => h.2 (hcrc h.1)]

theorem exists_decryptApart {c : Crypt13} {insize : ℕ} {r : ℕ × List UInt8} (h : Inverts c insize)
    (henc : c.encryptInPlace mem insize = .ok r) : r.1 < 2 ^ 32 ∧ ∃ k, insize ≤ k ∧
      decryptApart c (fetch (store mem 0 r.2) 0 r.1) r.1 = .ok (fetch mem 0 k) := by
  have htotal : c.alg.blocksize * cryptblocks c.alg.blocksize insize % sizeTop = c.padded insize := by
    rw [Nat.mul_comm]
    exact Nat.mod_eq_of_lt h.padded_lt
  have hfetch : (fetch mem 0 (c.padded insize)).length = _ * c.alg.blocksize := length_fetch ..
  have hlen := (c.length_enc hfetch).trans (length_fetch ..)
  have hblock (halg : c.alg = .aes ∨ c.alg = .des3) : insize ≤ c.padded insize ∧
      c.dec ((c.enc (fetch mem 0 (c.padded insize))).take (cryptblocks c.alg.blocksize (c.padded insize) *
        c.alg.blocksize)) = fetch mem 0 (c.padded insize) := by
    have hpos := Alg.Plain.blocksize_pos (.inr halg)
    refine ⟨le_cryptblocks_mul hpos, ?_⟩
    rw [Crypt13.padded, cryptblocks_mul hpos, ← Crypt13.padded, take_of_length_le hlen.le, c.dec_enc hfetch]
  unfold Crypt13.encryptInPlace at henc
  rw [htotal] at henc
  unfold decryptApart
  split_ifs at henc ⊢
  cases halg : c.alg with
  | none =>
    simp only [halg] at henc ⊢
    cases henc
    exact ⟨h.insize_lt, insize, le_rfl, by simp [store_nil, take_of_length_le]⟩
  | aes | des3 =>
    obtain ⟨hle, hdec⟩ := hblock (by simp [halg])
    simp only [halg] at henc hdec ⊢
    cases henc
    exact ⟨h.padded_lt, _, hle, by simp only [fetch_store_of_length hlen, hdec]⟩
  | ntru =>
    simp only [halg] at henc ⊢
    split at henc
    · cases henc
    next enc hntru =>
      cases henc
      have hlen := c.keyed.length_ntruEncrypt _ _ hntru
      refine ⟨h.ntruEncLen_lt, insize, le_rfl, ?_⟩
      simp only [fetch_store_of_length hlen, take_of_length_le hlen.le, h.ntruDecrypt _ _ hntru]
  | des | rc4 | xtea =>
    simp only [halg] at henc
    cases henc

variable (crc32 link data type flags mem bufsize) in
/-- A queued packet is exploded to what it was made of if and only if its header is packed. -/
theorem explodes_iff (hinv : Inverts (link.select flags) (data.bytes.length + 14))
    (hok : (ilinkPreparePkt crc32 link data type flags mem).bufsize = .ok bufsize) :
    Explodes crc32 link data type flags mem bufsize ↔ flags.nopack = false := by
  constructor
  · intro h
    have hrun := h ⟨0, bufsize, bufsize, _⟩ [] 0 rfl rfl
    rw [ilinkExplodePkt] at hrun
    split at hrun
    · cases hrun
    · by_contra hno
      simp [hno] at hrun
  · intro hpack first rest n hsize hbuf
    simp only [ilinkPreparePkt, if_neg (data.pktSize_ne_zero hinv.insize_lt),
      data.toNat_pktSize hinv.insize_lt] at hok hbuf
    cases henc : (link.select flags).encryptInPlace (storeAll mem (plainWrites crc32 data type flags))
        (data.bytes.length + 14) with
    | error e => simp [henc] at hok
    | ok r =>
      simp only [henc] at hok hbuf
      cases hok
      obtain ⟨hlt, k, hk, hdecrypt⟩ := exists_decryptApart hinv henc
      obtain ⟨j, rfl⟩ := Nat.exists_eq_add_of_le hk
      have hnat : first.bufsize.toNat = r.1 := by rw [hsize, UInt32.toNat_ofNat_of_lt' hlt]
      have hlen : (packPktHdr (pktHdr crc32 data type flags) ++ data.bytes).length = data.bytes.length + 14 := by
        rw [length_append, length_packPktHdr, Nat.add_comm]
      simp only [Prepared.bytes, storeAll_concat, UInt32.toNat_ofNat_of_lt' hlt] at hbuf
      rw [← hbuf, ← hnat, storeAll_plainWrites hpack, fetch_add, fetch_store_of_length hlen] at hdecrypt
      exact ilinkExplodePkt_of_plain _ hpack rfl (fun hnocrc => by simp [pktHdr, hnocrc]) hdecrypt

theorem explodes_iff_aes : Explodes (fun _ => 0) aesLink oneByte.data 256 ⟨false, false, false⟩ (fun _ => 0) 16 :=
  (explodes_iff _ _ _ _ _ _ _ ⟨by decide, by decide, by decide, fun _ _ h => by cases h⟩ (by rfl)).2 rfl

/-- With `ILINK_PPKT_NOPACK` nothing sets the header that is used. -/
theorem not_explodes_nopack : (ilinkPreparePkt (fun _ => 0) aesLink oneByte.data 256 ⟨false, true, false⟩
      fun _ => 0).bufsize = .ok 16 ∧
    ¬ Explodes (fun _ => 0) aesLink oneByte.data 256 ⟨false, true, false⟩ (fun _ => 0) 16 := by
  refine ⟨by rfl, fun h => ?_⟩
  have hrun := h ⟨0, 16, 16, _⟩ [] 0 rfl rfl
  cases hrun

end
end Prj.Infolink.Packet
