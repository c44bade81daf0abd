import Prj.Base.Arena
import Prj.Base.Mix
import Prj.Jlib.Jpack

/-!
Packets of a connection and the buffer that they are found in (`_jn_prepare_pkt` in `jlib/src/jn.c`, `_jn_assm_hdr` and
`_jn_disassm_hdr` in `jlib/src/jn_assm.c`, `_jn_conn_proc_buf` in `jlib/src/jn_conn.c`).

The functions `pearson` (`jlib/src/jhash.c`, modelled last) and `_jn_crc` of the checksums are given. A result `none` is
a call that touches a byte outside of its buffers, or does not return. Every allocation succeeds.
-/
namespace Prj.Jlib.JnConn
open Prj.Base Prj.Jlib.Jpack List Option

section Header
/-- `pearson` and `_jn_crc`. -/
structure Checksums where
  pearson : List UInt8 → UInt8
  crc : List UInt8 → UInt16

/-- `AES_BSIZE`, which is also the size of a header. -/
def bsize : ℕ := 16

/-- `JN_MAX_PKT` -/
def maxPkt : ℕ := 4096

/-- `JN_PKT_MAGIC` -/
def pktMagic : ℕ := 0xd1e4

/-- `JNT_DC` -/
def typeDc : UInt8 := 0x12

structure Hdr where
  magic : UInt16
  ver : Fin 16
  flags : Fin 16
  type : UInt8
  dataLen : UInt16
  comodId : UInt16
  transId : UInt8
  rs : UInt32
  dataCrc : UInt16
  hdrCrc : UInt8
  deriving DecidableEq, Repr

structure Pkt where
  flags : Fin 16
  type : UInt8
  comodId : UInt16
  transId : UInt8
  rs : UInt32
  data : List UInt8
  deriving DecidableEq, Repr

def noFloat : Machine Unit := ⟨fun _ => 0, fun _ => (), fun _ _ => 0⟩

variable (sums : Checksums)

/-- `pack` in `_jn_assm_hdr`, with `JN_VER`, which is 0. -/
def packHdr (p : Pkt) : List UInt8 :=
  match pack noFloat "hcchhclhc".toList
    [.int pktMagic, .int p.flags.val, .int p.type.toNat, .int (UInt16.ofNat p.data.length).toNat, .int p.comodId.toNat,
      .int p.transId.toNat, .int p.rs.toNat, .int (if p.data = [] then 0 else sums.crc p.data).toNat, .int 0] with
  | some r => r.2
  | none => []

def jnAssmHdr (p : Pkt) : List UInt8 :=
  let buf := packHdr sums p
  buf.set (bsize - 1) (sums.pearson buf)

/-- `none` for `-JE_HCRC`. The version is shifted out of its four bits. -/
def jnDisassmHdr (buf : List UInt8) : Option Hdr :=
  let hcrc := buf.getD (bsize - 1) 0
  let buf := buf.set (bsize - 1) 0
  if sums.pearson buf ≠ hcrc then none
  else
    match unpack noFloat (fun i => buf.getD (3 + i) 0) "chhclh".toList with
    | (_, [.int type, .int dataLen, .int comodId, .int transId, .int rs, .int dataCrc]) =>
      some
        { magic := .ofNat (unpacki (buf.take 2))
          ver := 0
          flags := Fin.ofNat 16 (buf.getD 2 0).toNat
          type := .ofInt type
          dataLen := .ofInt dataLen
          comodId := .ofInt comodId
          transId := .ofInt transId
          rs := .ofInt rs
          dataCrc := .ofInt dataCrc
          hdrCrc := hcrc }
    | _ => none

def encPktSize (dataLen : ℕ) : ℕ :=
  if (dataLen + bsize) % 16 ≠ 0 then (dataLen + bsize) / 16 * 16 + 16 else dataLen + bsize

end Header

section Prepare
/-- `_jn_prepare_pkt`; `none` for `-JE_SIZE`. `behind` are the bytes behind the data. -/
def jnPreparePkt (sums : Checksums) (aes : BlockPair 16) (p : Pkt) (behind : ℕ → UInt8) : Option (List UInt8) :=
  let len := encPktSize p.data.length
  if len > maxPkt then none
  else
    let rest := len - bsize
    some (aes.enc (jnAssmHdr sums p) ++
      mapBlocks 16 aes.enc (rest / 16) (p.data ++ fetch behind 0 (rest - p.data.length)))

end Prepare

section Receive
/-- `aes`, `prev`, which is an array of `JN_MAX_PKT` bytes, `prev_len`, and whether `JN_CF_SVR` is set. -/
structure Conn where
  svr : Bool
  aes : BlockPair 16
  prev : ℕ → UInt8
  prevLen : UInt32

structure Received where
  hdr : Hdr
  data : List UInt8
  deriving DecidableEq, Repr

def blockAt (buf : List UInt8) (p : ℕ) : Option (List UInt8) :=
  if p + bsize ≤ buf.length then some ((buf.drop p).take bsize) else none

def decryptBlocks (dec : List UInt8 → List UInt8) (buf : List UInt8) : ℕ → ℕ → Option (List UInt8)
  | 0, _ => some []
  | n + 1, p => do
    let b ← blockAt buf p
    let rest ← decryptBlocks dec buf n (p + bsize)
    some (dec b ++ rest)

/-- The return values 0, `-JE_LOWBUF` and `-JE_NOTFOUND`, with `*pos`. -/
inductive Extract
  | ok (pos : UInt16) (pkt : Received)
  | lowbuf (pos : UInt16)
  | notfound

/-- `pkt->hdr.flags &= ~JNF_LOST` on a server. -/
def Conn.dropLost (conn : Conn) (flags : Fin 16) : Fin 16 :=
  if conn.svr then Fin.ofNat 16 (flags.val &&& 13) else flags

/-- `_jn_conn_extract_pkt_from_buf0`. The header is looked for at `buf + *pos`. -/
def extractPkt (sums : Checksums) (conn : Conn) (buf : List UInt8) (bufsize pos : UInt16) : Option Extract := do
  let hbuf := conn.aes.dec (← blockAt buf pos.toNat)
  if unpacki (hbuf.take 2) = pktMagic then
    match jnDisassmHdr sums hbuf with
    | none => some .notfound
    | some hdr =>
      let esize : UInt16 := .ofNat (encPktSize hdr.dataLen.toNat)
      if esize ≤ bufsize then do
        let data ← decryptBlocks conn.aes.dec buf ((esize - 16).toNat / 16) (pos.toNat + bsize)
        some (.ok (pos + esize) ⟨{ hdr with flags := conn.dropLost hdr.flags }, data⟩)
      else some (.lowbuf (esize - bufsize))
  else some .notfound

/-- The loop of `_jn_conn_proc_buf`: the packets, and `pos` if the buffer ends before a packet. The buffer that is
searched begins at `total_buf + pos`, and so `pos` counts twice. -/
def procLoop (sums : Checksums) (conn : Conn) (total : List UInt8) (totalSize : UInt32) :
    ℕ → UInt16 → List Received → Option (List Received × Option UInt16)
  | 0, _, _ => none
  | fuel + 1, pos, list =>
    if pos.toNat < totalSize.toNat - bsize + 1 then do
      match ← extractPkt sums conn (total.drop pos.toNat) (.ofNat (totalSize.toNat - pos.toNat)) pos with
      | .ok pos pkt =>
        if pkt.hdr.type = typeDc then some (list ++ [pkt], none)
        else procLoop sums conn total totalSize fuel pos (list ++ [pkt])
      | .lowbuf pos => some (list, some pos)
      | .notfound => procLoop sums conn total totalSize fuel (pos + 1) list
    else some (list, none)

def Conn.keep (conn : Conn) (p : ℕ) (bs : List UInt8) (prevLen : UInt32) : Option Conn :=
  if p + bs.length ≤ maxPkt then some { conn with prev := store conn.prev p bs, prevLen := prevLen } else none

/-- What `recv` has returned, and what `malloc` finds. -/
structure Chunk where
  bytes : List UInt8
  heap : ℕ → UInt8
  length_lt : bytes.length < 2 ^ 16

/-- `total_buf`, `total_size` and the connection before the search. If the bytes do not fit behind the old ones,
`total_buf` is allocated, and nothing is copied to it. -/
def joinPrev (conn : Conn) (chunk : Chunk) : Option (List UInt8 × UInt32 × Conn) :=
  let bufsize : UInt32 := .ofNat chunk.bytes.length
  if conn.prevLen ≠ 0 then
    if bufsize ≤ .ofNat maxPkt - conn.prevLen then do
      let conn ← conn.keep conn.prevLen.toNat chunk.bytes (conn.prevLen + bufsize)
      some (fetch conn.prev 0 maxPkt, conn.prevLen, conn)
    else some (fetch chunk.heap 0 chunk.bytes.length, conn.prevLen + bufsize, conn)
  else some (chunk.bytes, bufsize, conn)

/-- The return values 0, with the packets, and `-JE_LOWBUF`, which sets none. -/
inductive Ret
  | ok (list : List Received)
  | lowbuf

def Ret.list : Ret → List Received
  | ok list => list
  | lowbuf => []

/-- `_jn_conn_proc_buf`. There are no more values of `pos` than rounds. -/
def jnConnProcBuf (sums : Checksums) (conn : Conn) (chunk : Chunk) : Option (Ret × Conn) := do
  let (total, totalSize, conn) ← joinPrev conn chunk
  if totalSize.toNat < bsize then
    if conn.prevLen = 0 then
      let conn ← conn.keep 0 (total.take totalSize.toNat) totalSize
      some (.lowbuf, conn)
    else some (.lowbuf, conn)
  else
    match ← procLoop sums conn total totalSize (2 ^ 16 + 1) 0 [] with
    | (list, none) => some (.ok list, conn)
    | (list, some pos) =>
      if pos ≠ 0 then
        let rest : UInt32 := totalSize - .ofNat pos.toNat
        if pos.toNat + rest.toNat ≤ total.length then
          let conn ← conn.keep 0 ((total.drop pos.toNat).take rest.toNat) rest
          some (.ok list, conn)
        else none
      else some (.ok list, conn)

end Receive

section HeaderRoundTrip
variable {sums : Checksums} {p : Pkt}

theorem toNat_bmod_emod (n m : ℕ) : (Int.bmod n m % m).toNat = n % m := by
  rw [Int.bmod_emod, ← Int.natCast_mod, Int.toNat_natCast]

theorem ofInt8_bmod (n : ℕ) : UInt8.ofInt (Int.bmod n (256 ^ 1)) = .ofNat n :=
  (congrArg UInt8.ofNat (toNat_bmod_emod n (256 ^ 1))).trans UInt8.ofNat_mod_size

theorem ofInt16_bmod (n : ℕ) : UInt16.ofInt (Int.bmod n (256 ^ 2)) = .ofNat n :=
  (congrArg UInt16.ofNat (toNat_bmod_emod n (256 ^ 2))).trans UInt16.ofNat_mod_size

theorem ofInt32_bmod (n : ℕ) : UInt32.ofInt (Int.bmod n (256 ^ 4)) = .ofNat n :=
  (congrArg UInt32.ofNat (toNat_bmod_emod n (256 ^ 4))).trans UInt32.ofNat_mod_size

def hdrWidths : List ℕ := [2, 1, 1, 2, 2, 1, 4, 2, 1]

def Pkt.crc (sums : Checksums) (p : Pkt) : UInt16 := if p.data = [] then 0 else sums.crc p.data

def Pkt.fields (sums : Checksums) (p : Pkt) : List ℕ :=
  [pktMagic, p.flags.val, p.type.toNat, (UInt16.ofNat p.data.length).toNat, p.comodId.toNat, p.transId.toNat,
    p.rs.toNat, (p.crc sums).toNat, 0]

section
variable (sums : Checksums) (p : Pkt)

theorem Pkt.fit : Fit hdrWidths (p.fields sums) := by
  have hflags : p.flags.val < 256 ^ 1 := by omega
  have htail : Fit [4, 2, 1] [p.rs.toNat, (p.crc sums).toNat, 0] :=
    fit_cons32 _ (fit_cons16 _ (.cons (by decide) .nil))
  have hmiddle : Fit [1, 2, 2, 1]
      [p.type.toNat, (UInt16.ofNat p.data.length).toNat, p.comodId.toNat, p.transId.toNat] :=
    fit_cons8 _ (fit_cons16 _ (fit_cons16 _ (fit_cons8 _ .nil)))
  exact .cons (by decide) (.cons hflags (rel_append hmiddle htail))

theorem packHdr_eq : packHdr sums p = packFields hdrWidths (p.fields sums) := by
  simp [packHdr, pack, packLoop, packStep, caseOf, PackState.emit, PackState.next, packFields, hdrWidths, Pkt.fields,
    Pkt.crc]

theorem length_packHdr : (packHdr sums p).length = 16 := by
  rfl

theorem fetch_packHdr : fetch (fun i => (packHdr sums p).getD i 0) 0 16 = packHdr sums p := by
  have hfetch := fetch_getD (packHdr sums p)
  rwa [length_packHdr] at hfetch

end

def Pkt.hdr (sums : Checksums) (p : Pkt) : Hdr where
  magic := .ofNat pktMagic
  ver := 0
  flags := p.flags
  type := p.type
  dataLen := .ofNat p.data.length
  comodId := p.comodId
  transId := p.transId
  rs := p.rs
  dataCrc := p.crc sums
  hdrCrc := sums.pearson (packHdr sums p)

theorem unpackFields_packHdr (sums : Checksums) (p : Pkt) :
    unpackFields (fun i => (packHdr sums p).getD i 0) 0 hdrWidths = p.fields sums := by
  exact unpackFields_of_fetch (p.fit sums) ((fetch_packHdr sums p).trans (packHdr_eq sums p))

theorem ofBigEndian_fetch_one (mem : ℕ → UInt8) (i : ℕ) : ofBigEndian (fetch mem i 1) = (mem i).toNat := by
  simp [fetch_one, ofBigEndian]

theorem set_packHdr (sums : Checksums) (p : Pkt) : (packHdr sums p).set 15 0 = packHdr sums p := by
  have hlen := length_packHdr sums p
  have hfields := unpackFields_packHdr sums p
  simp only [hdrWidths, unpackFields, Pkt.fields, List.cons.injEq, and_true, ofBigEndian_fetch_one] at hfields
  obtain ⟨-, -, -, -, -, -, -, -, hzero⟩ := hfields
  have hlast : (packHdr sums p).getD 15 0 = 0 := UInt8.toNat_inj.1 hzero
  have hget : (packHdr sums p)[15] = 0 := by
    rw [← hlast, getD_eq_getElem _ _ (by omega)]
  conv_lhs => rw [← hget, set_getElem_self]

theorem unpack_hdr (mem : ℕ → UInt8) : unpack noFloat mem "chhclh".toList =
    (12, [.int (Int.bmod (unpacki (fetch mem 0 1)) (256 ^ 1)), .int (Int.bmod (unpacki (fetch mem 1 2)) (256 ^ 2)),
      .int (Int.bmod (unpacki (fetch mem 3 2)) (256 ^ 2)), .int (Int.bmod (unpacki (fetch mem 5 1)) (256 ^ 1)),
      .int (Int.bmod (unpacki (fetch mem 6 4)) (256 ^ 4)), .int (Int.bmod (unpacki (fetch mem 10 2)) (256 ^ 2))]) := by
  simp [unpack, unpackLoop, unpackStep, caseOf, UnpackState.store, UnpackState.next]

section
variable (sums : Checksums) (p : Pkt)

theorem magic_packHdr : unpacki ((packHdr sums p).take 2) = pktMagic := by
  have hfields := unpackFields_packHdr sums p
  simp only [hdrWidths, unpackFields, Pkt.fields, List.cons.injEq] at hfields
  rw [← hfields.1, unpacki, fetch_eq_take (n := 16) (by decide), fetch_packHdr]

theorem jnDisassmHdr_jnAssmHdr : jnDisassmHdr sums (jnAssmHdr sums p) = some (p.hdr sums) := by
  have hlen := length_packHdr sums p
  have hfields := unpackFields_packHdr sums p
  simp only [hdrWidths, unpackFields, Pkt.fields, List.cons.injEq, and_true, Nat.reduceAdd] at hfields
  obtain ⟨-, hflags, htype, hdataLen, hcomodId, htransId, hrs, hcrc, -⟩ := hfields
  rw [ofBigEndian_fetch_one] at hflags
  have hlast : ((packHdr sums p).set (bsize - 1) (sums.pearson (packHdr sums p))).getD (bsize - 1) 0 =
      sums.pearson (packHdr sums p) := by
    rw [getD_eq_getElem _ _ (by rw [length_set, hlen]; decide), getElem_set_self]
  have hset : ((packHdr sums p).set (bsize - 1) (sums.pearson (packHdr sums p))).set (bsize - 1) 0 =
      packHdr sums p := by
    exact set_packHdr sums p
  have hshift (i n : ℕ) : fetch (fun i => (packHdr sums p).getD (3 + i) 0) i n =
      fetch (fun i => (packHdr sums p).getD i 0) (3 + i) n := by
    simp only [fetch, Nat.add_assoc]
  have hmagic := magic_packHdr sums p
  rw [unpacki] at hmagic
  simp only [jnDisassmHdr, jnAssmHdr, hlast, hset, ne_eq, not_true_eq_false, if_false, unpack_hdr, hshift, unpacki,
    ofInt8_bmod, ofInt16_bmod, ofInt32_bmod, Nat.reduceAdd, htype, hdataLen, hcomodId, htransId, hrs, hcrc, hflags,
    hmagic, UInt8.ofNat_toNat, UInt16.ofNat_toNat, UInt32.ofNat_toNat, Pkt.hdr, Fin.ofNat_val_eq_self]

theorem length_jnAssmHdr : (jnAssmHdr sums p).length = 16 := by
  rw [jnAssmHdr, length_set, length_packHdr]

theorem magic_jnAssmHdr : unpacki ((jnAssmHdr sums p).take 2) = pktMagic := by
  rw [jnAssmHdr, take_set_of_le (by decide), magic_packHdr]

end
end HeaderRoundTrip

section Whole
variable {sums : Checksums} {conn : Conn} {p : Pkt} {behind : ℕ → UInt8} {wire buf : List UInt8}

theorem encPktSize_eq (n : ℕ) : encPktSize n = (n + 15) / 16 * 16 + 16 := by
  unfold encPktSize bsize
  split_ifs <;> omega

theorem decryptBlocks_eq (dec : List UInt8 → List UInt8) {n p : ℕ} (h : p + n * 16 ≤ buf.length) :
    decryptBlocks dec buf n p = some (mapBlocks 16 dec n (buf.drop p)) := by
  induction n generalizing p with
  | zero => rfl
  | succ n ih =>
    have hblock : blockAt buf p = some ((buf.drop p).take 16) := if_pos (by rw [bsize]; omega)
    rw [decryptBlocks, hblock, bind_eq_bind, ih (by rw [bsize]; omega), mapBlocks, drop_drop]
    rfl

/-- The data with the bytes behind it, up to the next multiple of the block size. -/
def Pkt.padded (p : Pkt) (behind : ℕ → UInt8) : List UInt8 :=
  p.data ++ fetch behind 0 ((p.data.length + 15) / 16 * 16 - p.data.length)

theorem Pkt.length_padded (p : Pkt) (behind : ℕ → UInt8) :
    (p.padded behind).length = (p.data.length + 15) / 16 * 16 := by
  rw [padded, length_append, length_fetch]
  omega

theorem jnPreparePkt_eq_some_iff : jnPreparePkt sums conn.aes p behind = some wire ↔
    (p.data.length + 15) / 16 * 16 + 16 ≤ 4096 ∧ wire = conn.aes.enc (jnAssmHdr sums p) ++
        mapBlocks 16 conn.aes.enc ((p.data.length + 15) / 16) (p.padded behind) := by
  have hrest : (p.data.length + 15) / 16 * 16 + 16 - bsize = (p.data.length + 15) / 16 * 16 := by
    rw [bsize]
    omega
  simp only [jnPreparePkt, encPktSize_eq, hrest, Nat.mul_div_cancel _ (show 0 < 16 by decide), maxPkt]
  split_ifs with hsize
  · exact iff_of_false (by simp) fun h => by omega
  · rw [some_inj, eq_comm]
    exact (and_iff_right (by omega)).symm

section
variable (h : jnPreparePkt sums conn.aes p behind = some wire)
include h

theorem length_wire : wire.length = (p.data.length + 15) / 16 * 16 + 16 := by
  obtain ⟨-, rfl⟩ := jnPreparePkt_eq_some_iff.1 h
  rw [length_append, conn.aes.length_enc _ (length_jnAssmHdr sums p),
    length_mapBlocks conn.aes.length_enc (p.length_padded behind), Nat.add_comm]

theorem toNat_length_wire : (UInt16.ofNat wire.length).toNat = wire.length := by
  have hlen := length_wire h
  obtain ⟨hsize, -⟩ := jnPreparePkt_eq_some_iff.1 h
  refine UInt16.toNat_ofNat_of_lt' ?_
  rw [UInt16.size]
  omega

theorem toNat_dataLen : (p.hdr sums).dataLen.toNat = p.data.length := by
  obtain ⟨hsize, -⟩ := jnPreparePkt_eq_some_iff.1 h
  refine UInt16.toNat_ofNat_of_lt' ?_
  rw [UInt16.size]
  omega

end

def Pkt.received (sums : Checksums) (conn : Conn) (p : Pkt) (behind : ℕ → UInt8) : Received :=
  ⟨{ p.hdr sums with flags := conn.dropLost p.flags }, p.padded behind⟩

theorem extractPkt_wire (h : jnPreparePkt sums conn.aes p behind = some wire) :
    extractPkt sums conn wire (.ofNat wire.length) 0 =
      some (.ok (.ofNat wire.length) (p.received sums conn behind)) := by
  have hlen := length_wire h
  obtain ⟨hsize, hwire⟩ := jnPreparePkt_eq_some_iff.1 h
  have henc := conn.aes.length_enc _ (length_jnAssmHdr sums p)
  have hblock : blockAt wire (0 : UInt16).toNat = some (conn.aes.enc (jnAssmHdr sums p)) := by
    rw [blockAt, if_pos (by rw [hlen, bsize]; simp), hwire]
    simp [bsize, take_left' henc]
  have hesize : UInt16.ofNat (encPktSize (p.hdr sums).dataLen.toNat) = .ofNat wire.length := by
    rw [toNat_dataLen h, encPktSize_eq, hlen]
  have hdata : decryptBlocks conn.aes.dec wire ((UInt16.ofNat wire.length - 16).toNat / 16)
      ((0 : UInt16).toNat + bsize) = some (p.padded behind) := by
    have hblocks : (UInt16.ofNat wire.length - 16).toNat / 16 = (p.data.length + 15) / 16 := by
      rw [UInt16.toNat_sub, toNat_length_wire h]
      simp only [UInt16.reduceToNat]
      omega
    have hdrop : wire.drop ((0 : UInt16).toNat + bsize) =
        mapBlocks 16 conn.aes.enc ((p.data.length + 15) / 16) (p.padded behind) := by
      rw [hwire]
      exact drop_left' henc
    rw [hblocks, decryptBlocks_eq _ (by rw [bsize]; simp; omega), hdrop,
      conn.aes.mapBlocks_dec_enc (p.length_padded behind)]
  rw [extractPkt, hblock, bind_eq_bind, bind_some, conn.aes.dec_enc _ (length_jnAssmHdr sums p)]
  simp only [magic_jnAssmHdr, jnDisassmHdr_jnAssmHdr, if_true, hesize, UInt16.le_refl, hdata, bind_some,
    UInt16.zero_add]
  rfl

theorem toNat_ofNat_length (chunk : Chunk) : (UInt32.ofNat chunk.bytes.length).toNat = chunk.bytes.length := by
  have hlt := chunk.length_lt
  refine UInt32.toNat_ofNat_of_lt' ?_
  rw [UInt32.size]
  omega

theorem joinPrev_of_zero (hprev : conn.prevLen = 0) (chunk : Chunk) :
    joinPrev conn chunk = some (chunk.bytes, .ofNat chunk.bytes.length, conn) := by
  simp [joinPrev, hprev]

theorem procLoop_wire (h : jnPreparePkt sums conn.aes p behind = some wire) (fuel : ℕ) :
    procLoop sums conn wire (.ofNat wire.length) (fuel + 2) 0 [] = some ([p.received sums conn behind], none) := by
  have hlen := length_wire h
  obtain ⟨hsize, -⟩ := jnPreparePkt_eq_some_iff.1 h
  have h32 : (UInt32.ofNat wire.length).toNat = wire.length := UInt32.toNat_ofNat_of_lt' (by rw [UInt32.size]; omega)
  have hstart : (0 : UInt16).toNat < wire.length - bsize + 1 := Nat.succ_pos _
  have hend : ¬ wire.length < wire.length - bsize + 1 := by
    rw [bsize]
    omega
  have hextract : extractPkt sums conn (wire.drop (0 : UInt16).toNat) (.ofNat (wire.length - (0 : UInt16).toNat)) 0 =
      some (.ok (.ofNat wire.length) (p.received sums conn behind)) := extractPkt_wire h
  rw [procLoop, h32, hextract, bind_eq_bind, bind_some]
  simp only
  split_ifs
  · rfl
  · rw [procLoop, h32, toNat_length_wire h, if_neg hend]
    rfl

theorem jnConnProcBuf_wire (hprev : conn.prevLen = 0) {chunk : Chunk}
    (h : jnPreparePkt sums conn.aes p behind = some chunk.bytes) :
    jnConnProcBuf sums conn chunk = some (.ok [p.received sums conn behind], conn) := by
  have hlen := length_wire h
  have h32 := toNat_ofNat_length chunk
  have hsize : ¬ chunk.bytes.length < bsize := by
    rw [bsize]
    omega
  rw [jnConnProcBuf, joinPrev_of_zero hprev, bind_eq_bind, bind_some]
  have hloop := procLoop_wire h (2 ^ 16 - 1)
  simp only [h32, hsize, if_false]
  rw [show 2 ^ 16 + 1 = 2 ^ 16 - 1 + 2 by norm_num, hloop]
  rfl

def Received.content (r : Received) : Pkt where
  flags := r.hdr.flags
  type := r.hdr.type
  comodId := r.hdr.comodId
  transId := r.hdr.transId
  rs := r.hdr.rs
  data := r.data.take r.hdr.dataLen.toNat

/-- A server does not see `JNF_LOST`. -/
def Conn.Sees (conn : Conn) (p : Pkt) : Prop := conn.svr = true → p.flags.val &&& 2 = 0

theorem dropLost_of_sees (h : conn.Sees p) : conn.dropLost p.flags = p.flags := by
  have hclear : ∀ flags : Fin 16, flags.val &&& 2 = 0 → Fin.ofNat 16 (flags.val &&& 13) = flags := by decide
  unfold Conn.dropLost
  split_ifs with hsvr
  · exact hclear _ (h hsvr)
  · rfl

theorem content_received (h : jnPreparePkt sums conn.aes p behind = some wire) (hsees : conn.Sees p) :
    (p.received sums conn behind).content = p := by
  have hdataLen : (UInt16.ofNat p.data.length).toNat = p.data.length := toNat_dataLen h
  have htake : (p.padded behind).take p.data.length = p.data := take_left' rfl
  simp only [Received.content, Pkt.received, Pkt.hdr, dropLost_of_sees hsees, hdataLen, htake]

end Whole

section Pieces
variable {conn : Conn} {chunk : Chunk}

def Conn.grow (conn : Conn) (bytes : List UInt8) : Conn :=
  { conn with
    prev := store conn.prev conn.prevLen.toNat bytes
    prevLen := conn.prevLen + .ofNat bytes.length }

theorem toNat_prevLen_grow (h : conn.prevLen.toNat + chunk.bytes.length < 16) :
    (conn.grow chunk.bytes).prevLen.toNat = conn.prevLen.toNat + chunk.bytes.length := by
  rw [Conn.grow, UInt32.toNat_add, toNat_ofNat_length]
  omega

theorem fetch_grow (h : conn.prevLen.toNat + chunk.bytes.length < 16) :
    fetch (conn.grow chunk.bytes).prev 0 (conn.grow chunk.bytes).prevLen.toNat =
      fetch conn.prev 0 conn.prevLen.toNat ++ chunk.bytes := by
  have hold : fetch (conn.grow chunk.bytes).prev 0 conn.prevLen.toNat = fetch conn.prev 0 conn.prevLen.toNat :=
    fetch_congr fun i _ hi => store_of_lt (by omega)
  rw [toNat_prevLen_grow h, fetch_add, hold, Nat.zero_add]
  exact congrArg _ fetch_store

theorem jnConnProcBuf_short (sums : Checksums) (h : conn.prevLen.toNat + chunk.bytes.length < 16) :
    jnConnProcBuf sums conn chunk = some (.lowbuf, conn.grow chunk.bytes) := by
  have h32 := toNat_ofNat_length chunk
  by_cases hprev : conn.prevLen = 0
  · have hshort : chunk.bytes.length < bsize := by
      rw [bsize]
      omega
    have hkeep : conn.keep 0 (chunk.bytes.take chunk.bytes.length) (.ofNat chunk.bytes.length) =
        some (conn.grow chunk.bytes) := by
      rw [take_length, Conn.keep, if_pos (by rw [maxPkt]; omega), Conn.grow, hprev, UInt32.zero_add]
      rfl
    rw [jnConnProcBuf, joinPrev_of_zero hprev, bind_eq_bind, bind_some]
    simp only [h32, hshort, if_true, hprev, hkeep]
    rfl
  · have hroom : UInt32.ofNat chunk.bytes.length ≤ .ofNat maxPkt - conn.prevLen := by
      have hmax : (UInt32.ofNat maxPkt).toNat = 4096 := rfl
      rw [UInt32.le_iff_toNat_le, UInt32.toNat_sub_of_le _ _ (UInt32.le_iff_toNat_le.2 (by omega))]
      omega
    have hkeep : conn.keep conn.prevLen.toNat chunk.bytes (conn.prevLen + .ofNat chunk.bytes.length) =
        some (conn.grow chunk.bytes) := if_pos (by rw [maxPkt]; omega)
    have hjoin : joinPrev conn chunk = some (fetch (conn.grow chunk.bytes).prev 0 maxPkt,
        (conn.grow chunk.bytes).prevLen, conn.grow chunk.bytes) := by
      simp only [joinPrev, hprev, hroom, if_true, hkeep, ne_eq, not_false_eq_true]
      rfl
    have hshort : (conn.grow chunk.bytes).prevLen.toNat < bsize := by
      rw [toNat_prevLen_grow h]
      exact h
    have hne : (conn.grow chunk.bytes).prevLen ≠ 0 := by
      intro hzero
      have hsum := toNat_prevLen_grow h
      rw [hzero, UInt32.toNat_zero] at hsum
      exact hprev (UInt32.toNat_inj.1 (by rw [UInt32.toNat_zero]; omega))
    rw [jnConnProcBuf, hjoin, bind_eq_bind, bind_some]
    simp only [hshort, if_true, hne, if_false]

end Pieces

section Spec
/-- How many packets are complete in the first `n` bytes. -/
def complete : List (List UInt8) → ℕ → ℕ
  | [], _ => 0
  | w :: ws, n => if w.length ≤ n then complete ws (n - w.length) + 1 else 0

/-- After `bytes`, the complete packets have been delivered, and the bytes behind them are kept. -/
structure Good (ps : List Pkt) (wires : List (List UInt8)) (bytes : List UInt8) (list : List Received) (conn : Conn) :
    Prop where
  delivered : list.map Received.content = ps.take (complete wires bytes.length)
  tail : fetch conn.prev 0 conn.prevLen.toNat = bytes.drop (wires.take (complete wires bytes.length)).flatten.length

def RunsWell (sums : Checksums) (ps : List Pkt) (wires : List (List UInt8)) :
    List UInt8 → List Received → Conn → List Chunk → Prop
  | bytes, list, conn, [] => Good ps wires bytes list conn
  | bytes, list, conn, c :: cs => Good ps wires bytes list conn ∧ ∃ r, jnConnProcBuf sums conn c = some r ∧
      RunsWell sums ps wires (bytes ++ c.bytes) (list ++ r.1.list) r.2 cs

/-- The packets are prepared by a peer with the same key. -/
def Sends (sums : Checksums) (aes : BlockPair 16) (ps : List Pkt) (wires : List (List UInt8)) : Prop :=
  List.Forall₂ (fun p wire => ∃ behind, jnPreparePkt sums aes p behind = some wire) ps wires

end Spec

section Runs
variable {sums : Checksums} {conn : Conn} {ps : List Pkt} {wires pieces : List (List UInt8)} {list : List Received}
  {bytes kept : List UInt8} {k : ℕ}

theorem complete_of_short (hwires : ∀ w ∈ wires, 16 ≤ w.length) {n : ℕ} (hn : n < 16) (k : ℕ) :
    complete wires ((wires.take k).flatten.length + n) = min k wires.length := by
  induction wires generalizing k with
  | nil => simp [complete]
  | cons w ws ih =>
    cases k with
    | zero =>
      have hw := hwires w mem_cons_self
      rw [complete, if_neg (by simp; omega), Nat.zero_min]
    | succ k =>
      have hsum : ((w :: ws).take (k + 1)).flatten.length + n = w.length + ((ws.take k).flatten.length + n) := by
        rw [take_succ_cons, flatten_cons, length_append, Nat.add_assoc]
      rw [hsum, complete, if_pos (Nat.le_add_right _ _), Nat.add_sub_cancel_left,
        ih (fun w hw => hwires w (mem_cons_of_mem _ hw)), length_cons]
      omega

theorem Sends.length_eq (h : Sends sums conn.aes ps wires) : ps.length = wires.length := List.Forall₂.length_eq h

theorem Sends.le_length (h : Sends sums conn.aes ps wires) : ∀ w ∈ wires, 16 ≤ w.length := by
  intro w hw
  obtain ⟨i, hi, rfl⟩ := getElem_of_mem hw
  obtain ⟨behind, hwire⟩ := (List.forall₂_iff_get.1 h).2 i (h.length_eq ▸ hi) hi
  rw [get_eq_getElem, get_eq_getElem] at hwire
  rw [length_wire hwire]
  omega

/-- The first `k` packets are delivered, and fewer bytes than a header has are kept. -/
structure Between (ps : List Pkt) (wires : List (List UInt8)) (k : ℕ) (kept bytes : List UInt8) (list : List Received)
    (conn : Conn) : Prop where
  bytes_eq : bytes = (wires.take k).flatten ++ kept
  delivered : list.map Received.content = ps.take k
  kept_eq : fetch conn.prev 0 conn.prevLen.toNat = kept

theorem Between.good (h : Between ps wires k kept bytes list conn) (hsends : Sends sums conn.aes ps wires)
    (hshort : kept.length < 16) : Good ps wires bytes list conn := by
  have hcomplete : complete wires bytes.length = min k wires.length := by
    rw [h.bytes_eq, length_append, complete_of_short hsends.le_length hshort]
  constructor
  · rw [h.delivered, hcomplete, ← hsends.length_eq, take_eq_take_min]
  · rw [h.kept_eq, hcomplete, ← take_eq_take_min, h.bytes_eq, drop_left]

theorem runsWell_pieces (chunks : List Chunk) (h : Between ps wires k kept bytes list conn)
    (hsends : Sends sums conn.aes ps wires) (hshort : kept.length + (chunks.map Chunk.bytes).flatten.length < 16) :
    RunsWell sums ps wires bytes list conn chunks := by
  induction chunks generalizing kept bytes list conn with
  | nil => exact h.good hsends (by simpa using hshort)
  | cons c cs ih =>
    rw [map_cons, flatten_cons, length_append] at hshort
    have hlen : conn.prevLen.toNat = kept.length := by rw [← h.kept_eq, length_fetch]
    have hsum : conn.prevLen.toNat + c.bytes.length < 16 := by omega
    have hnext : Between ps wires k (kept ++ c.bytes) (bytes ++ c.bytes) (list ++ Ret.lowbuf.list)
        (conn.grow c.bytes) := by
      refine ⟨?_, ?_, ?_⟩
      · rw [h.bytes_eq, append_assoc]
      · rw [Ret.list, append_nil, h.delivered]
      · rw [fetch_grow hsum, h.kept_eq]
    refine ⟨h.good hsends (by omega), _, jnConnProcBuf_short sums hsum, ih hnext hsends ?_⟩
    rw [length_append]
    omega

theorem runsWell_wires (m : ℕ) (chunks : List Chunk) (h : Between ps wires k [] bytes list conn)
    (hprev : conn.prevLen = 0) (hsends : Sends sums conn.aes ps wires) (hsees : ∀ p ∈ ps, conn.Sees p)
    (hchunks : chunks.map Chunk.bytes = (wires.drop k).take m ++ pieces)
    (hpieces : pieces.flatten.length < 16) : RunsWell sums ps wires bytes list conn chunks := by
  induction m generalizing k chunks bytes list with
  | zero =>
    exact runsWell_pieces chunks h hsends (by rw [hchunks, length_nil, Nat.zero_add]; exact hpieces)
  | succ m ih =>
    by_cases hk : k < wires.length
    · have hkp : k < ps.length := hsends.length_eq ▸ hk
      obtain ⟨behind, hwire⟩ := (List.forall₂_iff_get.1 hsends).2 k hkp hk
      rw [get_eq_getElem, get_eq_getElem] at hwire
      rw [drop_eq_getElem_cons hk, take_succ_cons, cons_append, map_eq_cons_iff] at hchunks
      obtain ⟨c, cs, rfl, hc, hcs⟩ := hchunks
      rw [← hc] at hwire
      refine ⟨h.good hsends (by decide), _, jnConnProcBuf_wire hprev hwire, ih cs ?_ hcs⟩
      refine ⟨?_, ?_, h.kept_eq⟩
      · rw [h.bytes_eq, append_nil, append_nil, hc, take_succ_eq_append_getElem hk, flatten_append, flatten_singleton]
      · rw [Ret.list, map_append, h.delivered, take_succ_eq_append_getElem hkp, map_singleton,
          content_received hwire (hsees _ (getElem_mem hkp))]
    · rw [drop_eq_nil_of_le (Nat.le_of_not_lt hk), take_nil] at hchunks
      exact runsWell_pieces chunks h hsends (by rw [hchunks, length_nil, Nat.zero_add]; exact hpieces)

/-- `_jn_conn_proc_buf` delivers the packets and keeps the rest if every chunk is one packet, up to a packet of which
fewer bytes than a header has come in pieces, and if a server gets no packet with `JNF_LOST`. -/
theorem jnConnProcBuf_runsWell (sums : Checksums) (conn : Conn) (hprev : conn.prevLen = 0) (ps : List Pkt)
    (wires : List (List UInt8)) (hsends : Sends sums conn.aes ps wires) (hsees : ∀ p ∈ ps, conn.Sees p)
    (chunks : List Chunk) (k : ℕ) (pieces : List (List UInt8))
    (hchunks : chunks.map Chunk.bytes = wires.take k ++ pieces) (hpieces : pieces.flatten.length < 16) :
    RunsWell sums ps wires [] [] conn chunks := by
  refine runsWell_wires k chunks (k := 0) ⟨rfl, rfl, ?_⟩ hprev hsends hsees hchunks hpieces
  rw [hprev]
  rfl

def zeroSums : Checksums := ⟨fun _ => 0, fun _ => 0⟩

def client : Conn := ⟨false, .reversal _, fun _ => 0, 0⟩

def oneByte : Pkt := ⟨0, 1, 0, 0, 0, [7]⟩

def oneByteWire : List UInt8 := (jnPreparePkt zeroSums client.aes oneByte fun _ => 0).getD []

theorem sends_oneByte (n : ℕ) : Sends zeroSums client.aes (replicate n oneByte) (replicate n oneByteWire) := by
  induction n with
  | zero => exact .nil
  | succ n ih => exact .cons ⟨fun _ => 0, rfl⟩ ih

def wholeChunk : Chunk := ⟨oneByteWire, fun _ => 0, by decide +kernel⟩

/-- Two packets of three, and the first bytes of the last one in two pieces. -/
theorem jnConnProcBuf_runsWell_pieces :
    RunsWell zeroSums (replicate 3 oneByte) (replicate 3 oneByteWire) [] [] client [wholeChunk, wholeChunk,
      ⟨oneByteWire.take 8, fun _ => 0, by decide +kernel⟩,
      ⟨(oneByteWire.drop 8).take 4, fun _ => 0, by decide +kernel⟩] :=
  jnConnProcBuf_runsWell zeroSums client rfl _ _ (sends_oneByte 3) (fun _ _ h => absurd h (by decide)) _ 2
    [oneByteWire.take 8, (oneByteWire.drop 8).take 4] rfl (by decide +kernel)

def firstChunk : Chunk := ⟨oneByteWire.take 24, fun _ => 0, by decide +kernel⟩

def lastChunk : Chunk := ⟨oneByteWire.drop 24, fun _ => 0, by decide +kernel⟩

/-- A packet of 32 bytes of which 24 come first: 16 of them are kept. -/
theorem not_runsWell_twoChunks : Sends zeroSums client.aes [oneByte] [oneByteWire] ∧
    firstChunk.bytes ++ lastChunk.bytes = oneByteWire ∧
    ¬ RunsWell zeroSums [oneByte] [oneByteWire] [] [] client [firstChunk, lastChunk] := by
  refine ⟨sends_oneByte 1, take_append_drop _ _, ?_⟩
  rintro ⟨-, r, hr, hgood, -⟩
  have hkept : (jnConnProcBuf zeroSums client firstChunk).map (fun r => r.2.prevLen.toNat) = some 16 := by
    decide +kernel
  rw [hr, map_some, some_inj] at hkept
  have htail := congrArg List.length hgood.tail
  rw [length_fetch, hkept] at htail
  exact absurd htail (by decide +kernel)

end Runs

def pearsontab : List UInt8 := (List.range 256).map UInt8.ofNat

def pearson (key : List UInt8) : UInt8 :=
  key.foldl (fun hash b => pearsontab.getD (hash ^^^ b).toNat 0) (.ofNat key.length)

theorem pearsontab_getD (b : UInt8) : pearsontab.getD b.toNat 0 = b := by
  have hlt := b.toNat_lt
  simp [pearsontab, hlt]

/-- The table is the identity, so that the hash is the exclusive or of the bytes. -/
theorem pearson_eq (key : List UInt8) : pearson key = key.foldl (· ^^^ ·) (.ofNat key.length) := by
  simp only [pearson, pearsontab_getD]

theorem pearson_set_ne {key : List UInt8} {i : ℕ} {b : UInt8} (hi : i < key.length) (hb : b ≠ key.getD i 0) :
    pearson (key.set i b) ≠ pearson key := by
  rw [getD_eq_getElem _ _ hi] at hb
  rw [pearson_eq, pearson_eq, length_set]
  exact foldl_set_ne (fun a _ _ => (UInt8.xor_left_inj a).1) (fun b _ _ => (UInt8.xor_right_inj b).1) hi hb.symm

/-- A header is read back as it was made, and no byte of it can be replaced by another without being found. -/
theorem jnDisassmHdr_pearson (crc : List UInt8 → UInt16) (p : Pkt) :
    jnDisassmHdr ⟨pearson, crc⟩ (jnAssmHdr ⟨pearson, crc⟩ p) = some (p.hdr ⟨pearson, crc⟩) ∧
      (jnAssmHdr ⟨pearson, crc⟩ p).length = 16 ∧ ∀ i < 16, ∀ b ≠ (jnAssmHdr ⟨pearson, crc⟩ p).getD i 0,
        jnDisassmHdr ⟨pearson, crc⟩ ((jnAssmHdr ⟨pearson, crc⟩ p).set i b) = none := by
  refine ⟨jnDisassmHdr_jnAssmHdr _ p, length_jnAssmHdr _ p, fun i hi b hb => if_pos ?_⟩
  have hlen := length_packHdr ⟨pearson, crc⟩ p
  have hzero := set_packHdr ⟨pearson, crc⟩ p
  change b ≠ ((packHdr _ p).set 15 (pearson (packHdr _ p))).getD i 0 at hb
  change pearson ((((packHdr _ p).set 15 (pearson (packHdr _ p))).set i b).set 15 0) ≠
    (((packHdr _ p).set 15 (pearson (packHdr _ p))).set i b).getD 15 0
  generalize packHdr ⟨pearson, crc⟩ p = buf at *
  rcases Nat.lt_or_ge i 15 with hlt | hge
  · -- the hash was made of the old byte
    have hne : i ≠ 15 := Nat.ne_of_lt hlt
    have hset : ((buf.set 15 (pearson buf)).set i b).set 15 0 = buf.set i b := by
      rw [set_comm _ _ hne, set_set, hzero]
    have hget : ((buf.set 15 (pearson buf)).set i b).getD 15 0 = pearson buf := by simp [hne, hlen]
    rw [hset, hget]
    exact pearson_set_ne (by omega) (by simpa [hne.symm] using hb)
  · obtain rfl : i = 15 := by omega
    have hget : (buf.set 15 (pearson buf)).getD 15 0 = pearson buf := by simp [hlen]
    rw [set_set, set_set, hzero]
    simpa [hlen] using hb.symm

end Prj.Jlib.JnConn
