import Prj.Infolink.SendPkt

/-!
The received list of a link (`ilink_pkt_hdr` in `infolink/ilink_pkt.c` and `_ilink_recv_pkt` in `infolink/ilink_io.c`),
over runs with any answers of `select` and `recv`.

A result `none` is a call that writes outside of an array or reads a variable before it is set. Every allocation
succeeds.
-/
namespace Prj.Infolink.Packet
open Prj.Base Prj.Lib13 List Option

section Header
/-- What `crypt13_decrypt` writes to a place apart from its input. -/
def decryptApart (s : Crypt13) (bs : List UInt8) (insize : ℕ) : Except CryptError (List UInt8) :=
  if s.magic = false then .error .misuse
  else
    match s.alg with
    | .none => .ok (bs.take insize)
    | .aes | .des3 => .ok (s.dec (bs.take (cryptblocks s.alg.blocksize insize * s.alg.blocksize)))
    | .ntru => .ok (s.keyed.ntruDecrypt (bs.take s.keyed.ntruEncLen))
    | .des | .rc4 | .xtea => .error .implement

theorem crypt13Decrypt_apart {s : Crypt13} {a : Arena sizeTop} {p q n : ℕ} (halg : s.alg.Plain)
    (hin : a.Covers p (n * s.alg.blocksize)) (hout : a.Covers q (n * s.alg.blocksize))
    (hplaces : SameOrApart p q (n * s.alg.blocksize)) : crypt13Decrypt s a p (n * s.alg.blocksize) q =
      some ((decryptApart s (fetch a.bytes p (n * s.alg.blocksize)) (n * s.alg.blocksize)).map fun bs =>
        (n * s.alg.blocksize, a.put q bs)) := by
  by_cases hmagic : s.magic = false
  · simp [crypt13Decrypt, decryptApart, hmagic, Except.map]
  have htake : (fetch a.bytes p (n * s.alg.blocksize)).take (n * s.alg.blocksize) =
      fetch a.bytes p (n * s.alg.blocksize) := take_of_length_le (by rw [length_fetch])
  rw [crypt13Decrypt_eq (by simpa using hmagic) halg hin hout hplaces, decryptApart, if_neg hmagic,
    cryptblocks_mul halg.blocksize_pos, htake]
  rcases halg with h | h | h <;> simp only [h, Crypt13.dec] <;> rfl

theorem crypt13Decrypt_apart_oneBlock : crypt13Decrypt ⟨true, .aes, reverseKeyed⟩ oneBlock 16 (1 * 16) 16 =
    some ((decryptApart ⟨true, .aes, reverseKeyed⟩ (fetch oneBlock.bytes 16 (1 * 16)) (1 * 16)).map fun bs =>
      (1 * 16, oneBlock.put 16 bs)) :=
  crypt13Decrypt_apart (.inr (.inl rfl)) (by decide) (by decide) (.inl rfl)

/-- `_ilink_unpack_pkt_hdr`, whose result is not checked. -/
def unpackPktHdr (mem : ℕ → UInt8) : Option PktHdr :=
  match unpack13 mem pktHdrSize noFloat (fun _ => 0) "HLLL".toList with
  | .error _ => none
  | .ok st =>
    match (st.out.map Prod.snd : List (Store Unit)) with
    | [.int type, .int id, .int datalen, .int datacrc32] =>
      some ⟨.ofNat type.toNat, .ofNat id.toNat, .ofNat datalen.toNat, .ofNat datacrc32.toNat⟩
    | _ => none

inductive RecvRet
  | ok
  | done
  | continue
  | syse
  | timeout
  | dc
  | toosmall
  | toobig
  deriving DecidableEq, Repr

/-- `ilink_pkt_hdr`. The header is decrypted to an array of `ILINK_PKT_HDR_SIZE` bytes. -/
def ilinkPktHdr (crypts : Crypts) (flags : Flags) (data : List UInt8) : Option (Except RecvRet PktHdr) :=
  let c := crypts.select flags
  let hlen := crypt13EncSize c pktHdrSize
  if data.length < hlen then some (.error .toosmall)
  else
    match decryptApart c data hlen with
    | .error _ => none
    | .ok hbuf =>
      if hbuf.length = pktHdrSize ∧ flags.nopack = false then (unpackPktHdr fun i => hbuf.getD i 0).map .ok
      else none

end Header

section Model
/-- `struct ilink_io` -/
structure Ios where
  recvTime : UInt32
  maxpayload : UInt32
  deriving DecidableEq, Repr

structure RecvLink where
  crypts : Crypts
  /-- `_ilink_flags_to_ppkt(link->flags)` -/
  flags : Flags
  /-- `ILINK_FLAG_TIMEOUT` -/
  timeout : Bool
  /-- `ILINK_FLAG_INTR` -/
  intr : Bool
  recvTv : Timeval
  recvRemainTv : Timeval
  rcvdCallback : Bool

/-- A link with its received list, the packets that the callback has got, and the bytes that are to come. -/
structure Receiver where
  link : RecvLink
  rcvd : List IBuf
  n : UInt32
  called : List (List UInt8)
  stream : List UInt8

/-- The answers of `select`, if there is a timeout, and of `recv`. `tv` is the time that `select` leaves. -/
inductive Answer
  | selectFailed (intr : Bool)
  | expired
  | notSet
  | recvFailed (tv : Timeval) (intr : Bool)
  | got (tv : Timeval) (n : ℕ)

def recvTimeout (link : RecvLink) (ios : Option Ios) : HasTimeout :=
  if ios.any (·.recvTime ≠ 0) then .call
  else if link.timeout = true ∧ link.recvTv ≠ ⟨0, 0⟩ then .link
  else .no

def keepTime (link : RecvLink) (ios : Option Ios) (tv : Timeval) : RecvLink × Option Ios :=
  match recvTimeout link ios with
  | .no => (link, ios)
  | .call => (link, ios.map fun x => { x with recvTime := sendTime tv })
  | .link => ({ link with recvRemainTv := tv }, ios)

def maxpayload (ios : Option Ios) : UInt32 := ios.elim 0 (·.maxpayload)

def unfinished (rcvd : List IBuf) : Option IBuf := rcvd.getLast?.filter fun b => b.pos < b.bufsize

/-- How many bytes `recv` is asked for. A new buffer is begun with `ILINK_RECV_PKT_TMP_BUF_SIZE` bytes. -/
def room (rcvd : List IBuf) : ℕ := (unfinished rcvd).elim 2048 fun b => b.bufsize.toNat - b.pos.toNat

def TooBig (ios : Option Ios) (hdr : PktHdr) : Prop :=
  hdr.datalen + .ofNat pktHdrSize > 65000 ∨ maxpayload ios ≠ 0 ∧ hdr.datalen > maxpayload ios

instance (ios : Option Ios) (hdr : PktHdr) : Decidable (TooBig ios hdr) := inferInstanceAs (Decidable (_ ∨ _ ∧ _))

def IBuf.fill (bufsize : UInt32) (chunk : List UInt8) : IBuf where
  pos := .ofNat (min chunk.length bufsize.toNat)
  bufsize := bufsize
  size := bufsize
  buf := chunk.take bufsize.toNat

/-- The buffer for a packet that begins with the bytes of `chunk`. -/
def newBuf (crypts : Crypts) (flags : Flags) (ios : Option Ios) (chunk : List UInt8) :
    Option (Except RecvRet IBuf) := do
  match ← ilinkPktHdr crypts flags chunk with
  | .error r => some (.error r)
  | .ok hdr =>
    if TooBig ios hdr then some (.error .toobig)
    else
      let size := crypt13EncSize (crypts.select flags) (hdr.datalen + .ofNat pktHdrSize).toNat
      some (.ok (.fill (.ofNat size) chunk))

def Receiver.add (w : Receiver) (b : IBuf) : RecvRet × Receiver :=
  let w := { w with
    rcvd := w.rcvd ++ [b]
    n := if w.rcvd = [] then 1 else w.n + 1 }
  if b.pos = b.bufsize then
    (.done, { w with called := if w.link.rcvdCallback then w.called ++ [b.buf] else w.called })
  else (.ok, w)

/-- `recv` has returned `n` bytes. If they belong to the last buffer, `ibuf` is used before it is set. -/
def Receiver.receive (w : Receiver) (ios : Option Ios) (n : ℕ) : Option (RecvRet × Receiver) :=
  let chunk := w.stream.take n
  let w := { w with stream := w.stream.drop n }
  match unfinished w.rcvd with
  | some _ => none
  | none => do
    match ← newBuf w.link.crypts w.link.flags ios chunk with
    | .error r => some (r, w)
    | .ok b => some (w.add b)

/-- `_ilink_recv_pkt`, with `ios` as the call leaves it. -/
def ilinkRecvPkt (ios : Option Ios) (answer : Answer) (w : Receiver) : Option (RecvRet × Option Ios × Receiver) :=
  match answer with
  | .selectFailed true => some (.continue, ios, { w with link := { w.link with intr := true } })
  | .selectFailed false => some (.syse, ios, w)
  | .expired | .notSet => some (.timeout, ios, w)
  | .recvFailed tv intr =>
    let kept := keepTime w.link ios tv
    some (if intr then .continue else .dc, kept.2, { w with link := kept.1 })
  | .got tv n => do
    let kept := keepTime w.link ios tv
    let r ← Receiver.receive { w with link := kept.1 } ios n
    some (r.1, kept.2, r.2)

structure RecvCall where
  ios : Option Ios
  answer : Answer

def recvRun : List RecvCall → Receiver → Option Receiver
  | [], w => some w
  | c :: cs, w => do
    let r ← ilinkRecvPkt c.ios c.answer w
    recvRun cs r.2.2

/-- What the environment can do: `select` is asked only if there is a timeout, and `recv` gives at least one byte and
at most those that it is asked for. -/
def RecvCall.Possible (w : Receiver) (c : RecvCall) : Prop :=
  match c.answer with
  | .selectFailed _ | .expired | .notSet => recvTimeout w.link c.ios ≠ .no
  | .recvFailed _ _ => True
  | .got _ n => 0 < n ∧ n ≤ room w.rcvd ∧ n ≤ w.stream.length

def ReceivesAll : Receiver → List RecvCall → Prop
  | w, [] => w.stream = []
  | w, c :: cs => c.Possible w ∧ ∀ r, ilinkRecvPkt c.ios c.answer w = some r → ReceivesAll r.2.2 cs

def Receiver.start (link : RecvLink) (n : UInt32) (stream : List UInt8) : Receiver := ⟨link, [], n, [], stream⟩

/-- What the peer gives to `ilink_prepare_pkt`, and what `malloc` finds for it. -/
structure Sent where
  data : Data
  type : UInt16
  nocrc : Bool
  mem : ℕ → UInt8

/-- The bytes that the peer puts to its send list. It has the same ciphers and flags. -/
def Sent.wire (crc32 : List UInt8 → UInt32) (link : RecvLink) (p : Sent) : List UInt8 :=
  let prepared := ilinkPreparePkt crc32 link.crypts p.data p.type { link.flags with nocrc := p.nocrc } p.mem
  match prepared.bufsize with
  | .ok bufsize => prepared.bytes p.mem bufsize
  | .error _ => []

def wires (crc32 : List UInt8 → UInt32) (link : RecvLink) (ps : List Sent) : List (List UInt8) :=
  ps.map (Sent.wire crc32 link)

/-- The list holds the packets, and every one is complete. -/
structure Receiver.Holds (w : Receiver) (packets : List (List UInt8)) : Prop where
  bytes_eq : w.rcvd.map IBuf.buf = packets
  complete : ∀ b ∈ w.rcvd, b.pos = b.bufsize

end Model

section Chunks
variable {crypts : Crypts} {flags : Flags} {w w' : Receiver} {rcvd : List IBuf} {stream : List UInt8} {b : IBuf}

def RecvCall.chunk (c : RecvCall) : Option (Option Ios × ℕ) :=
  match c.answer with
  | .got _ n => some (c.ios, n)
  | .selectFailed _ | .expired | .notSet | .recvFailed _ _ => none

def chunks (cs : List RecvCall) : List (Option Ios × ℕ) := cs.filterMap RecvCall.chunk

/-- The received list and the bytes to come, after the calls that receive bytes. -/
def readChunks (crypts : Crypts) (flags : Flags) :
    List (Option Ios × ℕ) → List IBuf → List UInt8 → Option (List IBuf × List UInt8)
  | [], rcvd, stream => some (rcvd, stream)
  | c :: cs, rcvd, stream =>
    if (unfinished rcvd).isSome then none
    else do
      let r ← newBuf crypts flags c.1 (stream.take c.2)
      readChunks crypts flags cs (rcvd ++ r.toOption.toList) (stream.drop c.2)

section
variable (link : RecvLink) (ios : Option Ios) (tv : Timeval)

@[simp] theorem crypts_keepTime : (keepTime link ios tv).1.crypts = link.crypts := by
  unfold keepTime
  cases recvTimeout link ios <;> rfl

@[simp] theorem flags_keepTime : (keepTime link ios tv).1.flags = link.flags := by
  unfold keepTime
  cases recvTimeout link ios <;> rfl

end

def Receiver.core (w : Receiver) : Crypts × Flags × List IBuf × List UInt8 :=
  (w.link.crypts, w.link.flags, w.rcvd, w.stream)

theorem core_add (w : Receiver) (b : IBuf) :
    (w.add b).2.core = (w.link.crypts, w.link.flags, w.rcvd ++ [b], w.stream) := by
  unfold Receiver.add Receiver.core
  split_ifs <;> rfl

theorem core_receive (w : Receiver) (ios : Option Ios) (n : ℕ) :
    (w.receive ios n).map (fun r => r.2.core) = if (unfinished w.rcvd).isSome then none
      else (newBuf w.link.crypts w.link.flags ios (w.stream.take n)).map fun r =>
        (w.link.crypts, w.link.flags, w.rcvd ++ r.toOption.toList, w.stream.drop n) := by
  unfold Receiver.receive
  cases hun : unfinished w.rcvd with
  | some b => simp [hun]
  | none =>
    cases hnew : newBuf w.link.crypts w.link.flags ios (w.stream.take n) with
    | none => simp [hun, hnew]
    | some r =>
      cases r with
      | error r => simp [hun, hnew, Except.toOption, Receiver.core]
      | ok b => simp [hun, hnew, Except.toOption, core_add]

variable {c : RecvCall} {x : Option Ios × ℕ}

theorem core_ilinkRecvPkt (c : RecvCall) (w : Receiver) : (ilinkRecvPkt c.ios c.answer w).map (fun r => r.2.2.core) =
    c.chunk.elim (some w.core) fun x => if (unfinished w.rcvd).isSome then none
      else (newBuf w.link.crypts w.link.flags x.1 (w.stream.take x.2)).map fun r =>
        (w.link.crypts, w.link.flags, w.rcvd ++ r.toOption.toList, w.stream.drop x.2) := by
  obtain ⟨ios, answer⟩ := c
  cases answer with
  | selectFailed intr =>
    cases intr with
    | false | true => rfl
  | expired | notSet => rfl
  | recvFailed tv intr => simp [ilinkRecvPkt, RecvCall.chunk, Receiver.core]
  | got tv n =>
    have hcore := core_receive { w with link := (keepTime w.link ios tv).1 } ios n
    rw [crypts_keepTime, flags_keepTime] at hcore
    rw [RecvCall.chunk, elim_some, ← hcore]
    simp only [ilinkRecvPkt]
    cases Receiver.receive { w with link := (keepTime w.link ios tv).1 } ios n with
    | none | some => rfl

theorem chunks_cons_none (h : c.chunk = none) (cs : List RecvCall) : chunks (c :: cs) = chunks cs :=
  filterMap_cons_none h

theorem chunks_cons_some (h : c.chunk = some x) (cs : List RecvCall) : chunks (c :: cs) = x :: chunks cs :=
  filterMap_cons_some h

theorem recvRun_eq (cs : List RecvCall) (w : Receiver) : (recvRun cs w).map (fun w' => (w'.rcvd, w'.stream)) =
    readChunks w.link.crypts w.link.flags (chunks cs) w.rcvd w.stream := by
  induction cs generalizing w with
  | nil => rfl
  | cons c cs ih =>
    have hcore := congrArg (·.bind fun k => readChunks k.1 k.2.1 (chunks cs) k.2.2.1 k.2.2.2) (core_ilinkRecvPkt c w)
    simp only [bind_map] at hcore
    rw [recvRun, bind_eq_bind, map_bind]
    simp only [Function.comp_def, ih]
    refine hcore.trans ?_
    cases hchunk : c.chunk with
    | none => rw [chunks_cons_none hchunk]; rfl
    | some x =>
      rw [chunks_cons_some hchunk, readChunks, elim_some]
      split_ifs
      · rfl
      · rw [bind_map]; rfl

theorem stream_of_got (h : c.chunk = some x)
    {r : RecvRet × Option Ios × Receiver} (hr : ilinkRecvPkt c.ios c.answer w = some r) :
    r.2.2.stream = w.stream.drop x.2 := by
  have hcore := core_ilinkRecvPkt c w
  rw [hr, h, map_some, elim_some] at hcore
  split_ifs at hcore
  obtain ⟨y, -, hcore⟩ := map_eq_some_iff.1 hcore.symm
  exact (congrArg (·.2.2.2) hcore).symm

def CutFrom : List (Option Ios × ℕ) → ℕ → Prop
  | [], m => m = 0
  | c :: cs, m => 0 < c.2 ∧ c.2 ≤ m ∧ CutFrom cs (m - c.2)

theorem RecvCall.Possible.cut (h : c.Possible w) (hchunk : c.chunk = some x) : 0 < x.2 ∧ x.2 ≤ w.stream.length := by
  obtain ⟨ios, answer⟩ := c
  cases answer with
  | selectFailed | expired | notSet | recvFailed => cases hchunk
  | got tv n =>
    cases hchunk
    exact ⟨h.1, h.2.2⟩

theorem cutFrom_of_receivesAll {cs : List RecvCall} (h : ReceivesAll w cs) (hrun : recvRun cs w = some w') :
    CutFrom (chunks cs) w.stream.length := by
  induction cs generalizing w with
  | nil =>
    have hnil : w.stream = [] := h
    rw [hnil]
    rfl
  | cons c cs ih =>
    obtain ⟨hpossible, hrest⟩ := h
    rw [recvRun, bind_eq_bind, bind_eq_some_iff] at hrun
    obtain ⟨r, hr, hrun⟩ := hrun
    have hcut := ih (hrest r hr) hrun
    cases hchunk : c.chunk with
    | none =>
      have hcore := core_ilinkRecvPkt c w
      rw [hr, hchunk] at hcore
      have hstream : r.2.2.stream = w.stream := congrArg (·.2.2.2) (some.inj hcore)
      rwa [chunks_cons_none hchunk, ← hstream]
    | some x =>
      rw [stream_of_got hchunk hr, length_drop] at hcut
      obtain ⟨hpos, hle⟩ := hpossible.cut hchunk
      rw [chunks_cons_some hchunk]
      exact ⟨hpos, hle, hcut⟩

end Chunks

section Count
variable {crypts : Crypts} {flags : Flags} {ios : Option Ios} {cs : List (Option Ios × ℕ)} {rcvd rcvd' : List IBuf}
  {stream stream' chunk : List UInt8} {b : IBuf} {packets : List (List UInt8)}

def held (rcvd : List IBuf) : ℕ := (rcvd.map fun b => b.buf.length).sum

theorem newBuf_eq_ok_iff : newBuf crypts flags ios chunk = some (.ok b) ↔
    ∃ hdr, ilinkPktHdr crypts flags chunk = some (.ok hdr) ∧ ¬ TooBig ios hdr ∧
      b = .fill (.ofNat (crypt13EncSize (crypts.select flags) (hdr.datalen + .ofNat pktHdrSize).toNat)) chunk := by
  unfold newBuf
  cases hhdr : ilinkPktHdr crypts flags chunk with
  | none => simp
  | some r =>
    cases r with
    | error r => simp
    | ok hdr =>
      by_cases hbig : TooBig ios hdr
      · simp [hbig]
      · simp [hbig, eq_comm]

theorem IBuf.toNat_pos_fill (bufsize : UInt32) (chunk : List UInt8) :
    (IBuf.fill bufsize chunk).pos.toNat = (IBuf.fill bufsize chunk).buf.length := by
  have hlt : min chunk.length bufsize.toNat < 2 ^ 32 := lt_of_le_of_lt (Nat.min_le_right _ _) bufsize.toNat_lt
  rw [fill, UInt32.toNat_ofNat_of_lt' hlt, length_take, Nat.min_comm]

theorem held_newBuf {r : Except RecvRet IBuf} (h : newBuf crypts flags ios chunk = some r) :
    held r.toOption.toList ≤ chunk.length := by
  cases r with
  | error r => exact Nat.zero_le _
  | ok b =>
    obtain ⟨hdr, -, -, rfl⟩ := newBuf_eq_ok_iff.1 h
    exact length_take_le' _ _

theorem held_append (xs ys : List IBuf) : held (xs ++ ys) = held xs + held ys := by
  rw [held, map_append, sum_append]
  rfl

theorem held_readChunks (h : readChunks crypts flags cs rcvd stream = some (rcvd', stream')) :
    rcvd <+: rcvd' ∧ held rcvd' + stream'.length ≤ held rcvd + stream.length := by
  induction cs generalizing rcvd stream with
  | nil =>
    cases h
    exact ⟨prefix_refl _, le_rfl⟩
  | cons c cs ih =>
    rw [readChunks] at h
    split_ifs at h with hun
    rw [bind_eq_bind, bind_eq_some_iff] at h
    obtain ⟨r, hr, h⟩ := h
    obtain ⟨hfirst, hle⟩ := ih h
    have hadd := held_newBuf hr
    refine ⟨(prefix_append _ _).trans hfirst, hle.trans ?_⟩
    rw [length_take] at hadd
    rw [held_append, length_drop]
    omega

def IBuf.whole (packet : List UInt8) : IBuf :=
  ⟨.ofNat packet.length, .ofNat packet.length, .ofNat packet.length, packet⟩

theorem IBuf.fill_eq_whole {bufsize : UInt32} (h : (IBuf.fill bufsize chunk).pos = bufsize) :
    IBuf.fill bufsize chunk = .whole (IBuf.fill bufsize chunk).buf := by
  have hsize : UInt32.ofNat (IBuf.fill bufsize chunk).buf.length = bufsize := by
    rw [← toNat_pos_fill, h, UInt32.ofNat_toNat]
  rw [whole, hsize]
  exact congrArg (fun pos => IBuf.mk pos bufsize bufsize _) h

theorem unfinished_whole (rcvd : List IBuf) (packet : List UInt8) : unfinished (rcvd ++ [.whole packet]) = none := by
  rw [unfinished, getLast?_concat]
  simp [IBuf.whole]

/-- A chunk that is taken for a packet, with all of its bytes. -/
def Accepted (crypts : Crypts) (flags : Flags) (c : Option Ios × ℕ) (packet : List UInt8) : Prop :=
  packet.length = c.2 ∧ newBuf crypts flags c.1 packet = some (.ok (.whole packet))

/-- If no byte is lost and all buffers are complete, the chunks are the packets. -/
theorem accepted_of_readChunks (hcut : CutFrom cs stream.length)
    (h : readChunks crypts flags cs rcvd stream = some (rcvd', stream'))
    (hheld : held rcvd + stream.length ≤ held rcvd') (hcomplete : ∀ b ∈ rcvd', b.pos = b.bufsize) :
    ∃ bs, rcvd' = rcvd ++ bs ∧ List.Forall₂ (Accepted crypts flags) cs (bs.map IBuf.buf) := by
  induction cs generalizing rcvd stream with
  | nil =>
    cases h
    exact ⟨[], by simp, .nil⟩
  | cons c cs ih =>
    obtain ⟨hpos, hlen, hcut⟩ := hcut
    rw [readChunks] at h
    split_ifs at h with hun
    rw [bind_eq_bind, bind_eq_some_iff] at h
    obtain ⟨r, hr, h⟩ := h
    obtain ⟨hfirst, hle⟩ := held_readChunks h
    have hadd := held_newBuf hr
    have htake : (stream.take c.2).length = c.2 := by rw [length_take]; omega
    rw [held_append, length_drop] at hle
    cases r with
    | error r =>
      have hzero : held (Except.error r : Except RecvRet IBuf).toOption.toList = 0 := rfl
      omega
    | ok b =>
      have hb : held (Except.ok b : Except RecvRet IBuf).toOption.toList = b.buf.length := Nat.add_zero _
      obtain ⟨bs, hbs, haccepted⟩ := ih (by rw [length_drop]; exact hcut) h (by rw [held_append, length_drop]; omega)
      have hbuf : b.buf.length = c.2 := by omega
      have hmem : b ∈ rcvd' := by
        rw [hbs]
        simp [Except.toOption]
      refine ⟨b :: bs, by rw [hbs]; simp [Except.toOption], .cons ⟨hbuf, ?_⟩ haccepted⟩
      obtain ⟨hdr, -, -, rfl⟩ := newBuf_eq_ok_iff.1 hr
      rw [IBuf.fill_eq_whole (hcomplete _ hmem)] at hr
      have hchunk : stream.take c.2 = (IBuf.fill _ (stream.take c.2)).buf :=
        ((List.take_prefix _ _).eq_of_length (hbuf.trans htake.symm)).symm
      rwa [← hchunk] at hr ⊢

theorem readChunks_of_accepted (rcvd : List IBuf) (hrcvd : unfinished rcvd = none)
    (h : List.Forall₂ (Accepted crypts flags) cs packets) :
    readChunks crypts flags cs rcvd packets.flatten = some (rcvd ++ packets.map .whole, []) := by
  induction h generalizing rcvd with
  | nil => simp [readChunks]
  | @cons c packet cs packets hhead _ ih =>
    obtain ⟨hlen, hnew⟩ := hhead
    rw [readChunks, hrcvd, flatten_cons, take_left' hlen, drop_left' hlen, hnew, bind_eq_bind]
    have hrest := ih _ (unfinished_whole rcvd packet)
    rw [append_assoc] at hrest
    exact hrest

theorem holds_iff_accepted {link : RecvLink} {n : UInt32} {calls : List RecvCall}
    (hall : ReceivesAll (.start link n packets.flatten) calls) :
    (∃ w', recvRun calls (.start link n packets.flatten) = some w' ∧ w'.Holds packets) ↔
      List.Forall₂ (Accepted link.crypts link.flags) (chunks calls) packets := by
  have hrun := recvRun_eq calls (.start link n packets.flatten)
  constructor
  · rintro ⟨w', hw', hbytes, hcomplete⟩
    rw [hw'] at hrun
    obtain ⟨bs, hbs, haccepted⟩ := accepted_of_readChunks (cutFrom_of_receivesAll hall hw') hrun.symm
      (by simp [Receiver.start, held, ← hbytes, Function.comp_def]) hcomplete
    rw [hbs] at hbytes
    rwa [← hbytes]
  · intro h
    have hread := readChunks_of_accepted [] rfl h
    rw [show readChunks link.crypts link.flags (chunks calls) [] packets.flatten = _ from hrun.symm] at hread
    obtain ⟨w', hw', heq⟩ := map_eq_some_iff.1 hread
    obtain ⟨hrcvd, -⟩ := Prod.mk.inj heq
    refine ⟨w', hw', ?_, ?_⟩
    · rw [hrcvd, nil_append, List.map_map]
      exact map_id _
    · rw [hrcvd]
      intro b hb
      obtain ⟨packet, -, rfl⟩ := mem_map.1 hb
      rfl

end Count

section Wire
variable {crc32 : List UInt8 → UInt32} {link : RecvLink} {p : Sent} {flags : Flags} {mem : ℕ → UInt8}
  {data packet : List UInt8} {crypts : Crypts}

theorem unpackPktHdr_of_fetch {hdr : PktHdr} (h : fetch mem 0 pktHdrSize = packPktHdr hdr) :
    unpackPktHdr mem = some hdr := by
  have hfields := unpackFields_of_fetch hdr.fit ((show _ from h).trans (packPktHdr_eq hdr))
  simp only [unpackFields, List.cons.injEq, and_true] at hfields
  obtain ⟨htype, hid, hdatalen, hcrc⟩ := hfields
  simp [unpackPktHdr, unpack13, unpackLoop, unpackStep, dirOf, unpackFixed, unpacku, UState.init, UState.read,
    UState.store, UState.next, pktHdrSize, bind, Except.bind, htype, hid, hdatalen, hcrc]

theorem storeAll_plainWrites {data : Data} {type : UInt16}
    (hpack : flags.nopack = false) : storeAll mem (plainWrites crc32 data type flags) =
      store mem 0 (packPktHdr (pktHdr crc32 data type flags) ++ data.bytes) := by
  have hlen := length_packPktHdr (pktHdr crc32 data type flags)
  simp only [plainWrites, hpack, Bool.false_eq_true, if_false]
  by_cases hdata : data.len = 0
  · have hnil : data.bytes = [] := by
      rw [← length_eq_zero_iff, ← data.toNat_len, hdata, UInt32.toNat_zero]
    rw [if_neg (not_not.2 hdata), hnil]
    rfl
  · rw [if_pos hdata, ← store_append hlen]
    rfl

def Sent.hdr (crc32 : List UInt8 → UInt32) (link : RecvLink) (p : Sent) : PktHdr :=
  pktHdr crc32 p.data p.type { link.flags with nocrc := p.nocrc }

section
variable (hmagic : (link.crypts.select link.flags).magic = true) (halg : (link.crypts.select link.flags).alg = .none)
include hmagic halg

theorem wire_of_none : p.wire crc32 link =
      fetch (storeAll p.mem (plainWrites crc32 p.data p.type { link.flags with nocrc := p.nocrc })) 0
        p.data.pktSize.toNat := by
  have hselect : link.crypts.select { link.flags with nocrc := p.nocrc } = link.crypts.select link.flags := rfl
  by_cases hzero : p.data.pktSize = 0
  · simp [Sent.wire, ilinkPreparePkt, hzero, fetch]
  · simp [Sent.wire, ilinkPreparePkt, hzero, Crypt13.encryptInPlace, hselect, hmagic, halg, Prepared.bytes,
      storeAll_concat, store_nil]

theorem wire_eq (hpack : link.flags.nopack = false) (hlt : p.data.bytes.length + 14 < 2 ^ 32) :
    p.wire crc32 link = packPktHdr (p.hdr crc32 link) ++ p.data.bytes := by
  rw [wire_of_none hmagic halg, storeAll_plainWrites (by exact hpack), p.data.toNat_pktSize hlt, fetch_store_of_length]
  · rfl
  · rw [length_append, length_packPktHdr, Nat.add_comm]

theorem ilinkPktHdr_of_none (hpack : link.flags.nopack = false) (hdr : PktHdr)
    (rest : List UInt8) : ilinkPktHdr link.crypts link.flags (packPktHdr hdr ++ rest) = some (.ok hdr) := by
  have hlen := length_packPktHdr hdr
  have hsize : crypt13EncSize (link.crypts.select link.flags) pktHdrSize = pktHdrSize := by
    simp [crypt13EncSize, hmagic, halg]
  have hbuf : decryptApart (link.crypts.select link.flags) (packPktHdr hdr ++ rest) pktHdrSize =
      .ok (packPktHdr hdr) := by
    simp [decryptApart, hmagic, halg, take_left' hlen, pktHdrSize]
  have hunpack : unpackPktHdr (fun i => (packPktHdr hdr).getD i 0) = some hdr :=
    unpackPktHdr_of_fetch (by rfl)
  rw [ilinkPktHdr, hsize, hbuf]
  simp only [hpack, hlen, hunpack]
  rfl

end

theorem ilinkPktHdr_ok {hdr : PktHdr} (h : ilinkPktHdr crypts flags data = some (.ok hdr)) :
    crypt13EncSize (crypts.select flags) pktHdrSize ≤ data.length ∧ flags.nopack = false ∧
      ∃ hbuf, decryptApart (crypts.select flags) data (crypt13EncSize (crypts.select flags) pktHdrSize) = .ok hbuf ∧
        hbuf.length = pktHdrSize := by
  unfold ilinkPktHdr at h
  dsimp only at h
  split_ifs at h with hsmall
  · cases h
  split at h
  · cases h
  next hbuf hdecrypt =>
    split_ifs at h with hlen
    exact ⟨Nat.le_of_not_lt hsmall, hlen.2, hbuf, hdecrypt, hlen.1⟩

theorem cryptblocks_hdr {alg : Alg} (h : alg = .aes ∨ alg = .des3) :
    cryptblocks alg.blocksize pktHdrSize * alg.blocksize % sizeTop = 16 ∧
      cryptblocks alg.blocksize 16 * alg.blocksize = 16 ∧ 16 = 16 / alg.blocksize * alg.blocksize := by
  rcases h with rfl | rfl <;> decide

/-- A header that is decrypted by blocks is written over the end of its array. -/
theorem alg_of_ilinkPktHdr {hdr : PktHdr}
    (hmagic : (crypts.select flags).magic = true) (halg : (crypts.select flags).alg.Plain)
    (h : ilinkPktHdr crypts flags data = some (.ok hdr)) : (crypts.select flags).alg = .none := by
  obtain ⟨hsize, -, hbuf, hdecrypt, hlen⟩ := ilinkPktHdr_ok h
  by_contra hne
  have hblock : (crypts.select flags).alg = .aes ∨ (crypts.select flags).alg = .des3 := halg.resolve_left hne
  obtain ⟨hhdr, htotal, hmul⟩ := cryptblocks_hdr hblock
  have hencsize : crypt13EncSize (crypts.select flags) pktHdrSize = 16 := by
    rw [crypt13EncSize, if_neg (by simp [hmagic])]
    rcases hblock with h | h <;> rw [h] at hhdr ⊢ <;> exact hhdr
  have hdec : decryptApart (crypts.select flags) data 16 = .ok ((crypts.select flags).dec (data.take 16)) := by
    rw [decryptApart, if_neg (by simp [hmagic]), htotal]
    rcases hblock with h | h <;> simp only [h]
  rw [hencsize] at hsize hdecrypt
  rw [hdec] at hdecrypt
  have htake : (data.take 16).length = 16 := by rw [length_take]; omega
  rw [← Except.ok.inj hdecrypt, Crypt13.length_dec (htake.trans hmul), htake] at hlen
  exact absurd hlen (by decide)

/-- A chunk that is a packet, on a link without a cipher and with packed headers. -/
structure Takes (link : RecvLink) (c : Option Ios × ℕ) (p : Sent) : Prop where
  alg : (link.crypts.select link.flags).alg = .none
  pack : link.flags.nopack = false
  size : p.data.bytes.length + 14 = c.2
  max : c.2 ≤ 65000
  payload : maxpayload c.1 ≠ 0 → p.data.bytes.length ≤ (maxpayload c.1).toNat

theorem not_tooBig_iff (ios : Option Ios) {hdr : PktHdr} (h : hdr.datalen = p.data.len)
    (hlt : p.data.bytes.length + 14 < 2 ^ 32) : ¬ TooBig ios hdr ↔ p.data.bytes.length + 14 ≤ 65000 ∧
      (maxpayload ios ≠ 0 → p.data.bytes.length ≤ (maxpayload ios).toNat) := by
  rw [TooBig, h, not_or, not_and, UInt32.not_lt, UInt32.not_lt, UInt32.le_iff_toNat_le,
    UInt32.le_iff_toNat_le, p.data.toNat_len]
  exact and_congr_left' (iff_of_eq (congrArg (· ≤ 65000) (p.data.toNat_pktSize hlt)))

theorem accepted_iff_takes (hmagic : (link.crypts.select link.flags).magic = true)
    (halg : (link.crypts.select link.flags).alg.Plain) (c : Option Ios × ℕ) :
    Accepted link.crypts link.flags c (p.wire crc32 link) ↔ Takes link c p := by
  have hencsize (hnone : (link.crypts.select link.flags).alg = .none) (n : ℕ) :
      crypt13EncSize (link.crypts.select link.flags) n = n := by
    simp [crypt13EncSize, hmagic, hnone]
  constructor
  · rintro ⟨hlen, hnew⟩
    obtain ⟨hdr, hhdr, hbig, -⟩ := newBuf_eq_ok_iff.1 hnew
    have hnone := alg_of_ilinkPktHdr hmagic halg hhdr
    obtain ⟨hsize, hpack, -⟩ := ilinkPktHdr_ok hhdr
    -- the header would be longer than the packet if the size had wrapped around
    have hlt : p.data.bytes.length + 14 < 2 ^ 32 := by
      have h14 : (UInt32.ofNat pktHdrSize).toNat = 14 := rfl
      have hdata := p.data.length_lt
      rw [hencsize hnone, wire_of_none hmagic hnone, length_fetch, Data.pktSize, UInt32.toNat_add, h14,
        p.data.toNat_len] at hsize
      unfold pktHdrSize at hsize
      omega
    rw [wire_eq hmagic hnone hpack hlt] at hlen hhdr
    rw [ilinkPktHdr_of_none hmagic hnone hpack] at hhdr
    cases hhdr
    obtain ⟨hmax, hpayload⟩ := (not_tooBig_iff c.1 rfl hlt).1 hbig
    have hsum : p.data.bytes.length + 14 = c.2 := by
      rw [← hlen, length_append, length_packPktHdr, Nat.add_comm]
    exact ⟨hnone, hpack, hsum, hsum ▸ hmax, hpayload⟩
  · rintro ⟨hnone, hpack, hsize, hmax, hpayload⟩
    have hlt : p.data.bytes.length + 14 < 2 ^ 32 := by omega
    have hwire : p.wire crc32 link = packPktHdr (p.hdr crc32 link) ++ p.data.bytes :=
      wire_eq hmagic hnone hpack hlt
    have hlen : (p.wire crc32 link).length = p.data.bytes.length + 14 := by
      rw [hwire, length_append, length_packPktHdr, Nat.add_comm]
    refine ⟨hlen.trans hsize, newBuf_eq_ok_iff.2 ⟨p.hdr crc32 link, ?_, ?_, ?_⟩⟩
    · rw [hwire, ilinkPktHdr_of_none hmagic hnone hpack]
    · exact (not_tooBig_iff c.1 rfl hlt).2 ⟨hsize ▸ hmax, hpayload⟩
    · have hpkt : ((p.hdr crc32 link).datalen + .ofNat pktHdrSize).toNat = (p.wire crc32 link).length :=
        (p.data.toNat_pktSize hlt).trans hlen.symm
      rw [hencsize hnone, hpkt, IBuf.fill, IBuf.whole,
        UInt32.toNat_ofNat_of_lt' (show (p.wire crc32 link).length < 2 ^ 32 by omega), Nat.min_self, take_length]

end Wire

section Main
/-- `_ilink_recv_pkt` builds the list of the packets if and only if there is no cipher, headers are packed, and every
`recv` returns exactly one packet that is not too big. -/
theorem recvRun_holds_iff (crc32 : List UInt8 → UInt32) (link : RecvLink) (n : UInt32)
    (hmagic : (link.crypts.select link.flags).magic = true) (halg : (link.crypts.select link.flags).alg.Plain)
    (packets : List Sent) (calls : List RecvCall)
    (hall : ReceivesAll (.start link n (wires crc32 link packets).flatten) calls) :
    (∃ w, recvRun calls (.start link n (wires crc32 link packets).flatten) = some w ∧
      w.Holds (wires crc32 link packets)) ↔ List.Forall₂ (Takes link) (chunks calls) packets := by
  rw [holds_iff_accepted hall, wires, List.forall₂_map_right_iff]
  constructor
  · exact fun h => h.imp fun c p => (accepted_iff_takes hmagic halg c).1
  · exact fun h => h.imp fun c p => (accepted_iff_takes hmagic halg c).2

def plainLink : RecvLink where
  crypts := ⟨⟨true, .none, reverseKeyed⟩, ⟨true, .none, reverseKeyed⟩⟩
  flags := ⟨false, false, false⟩
  timeout := false
  intr := false
  recvTv := ⟨0, 0⟩
  recvRemainTv := ⟨0, 0⟩
  rcvdCallback := false

theorem length_seven_lt : ([7] : List UInt8).length < 2 ^ 32 := by decide

def oneByte : Sent := ⟨⟨[7], length_seven_lt⟩, 256, false, fun _ => 0⟩

def recvBytes (n : ℕ) : RecvCall := ⟨none, .got ⟨0, 0⟩ n⟩

theorem receivesAll_once (link : RecvLink) (n : UInt32) {stream : List UInt8} (hpos : 0 < stream.length)
    (hle : stream.length ≤ 2048) : ReceivesAll (.start link n stream) [recvBytes stream.length] := by
  refine ⟨⟨hpos, hle, le_rfl⟩, fun r hr => ?_⟩
  have hstream : r.2.2.stream = stream.drop stream.length := stream_of_got rfl hr
  exact hstream.trans drop_length

/-- Two packets, each of which is received at once. -/
theorem recvRun_holds_twoCalls : ∃ w, recvRun [recvBytes 15, recvBytes 15]
      (.start plainLink 0 (wires (fun _ => 0) plainLink [oneByte, oneByte]).flatten) = some w ∧
      w.Holds (wires (fun _ => 0) plainLink [oneByte, oneByte]) := by
  have htakes : Takes plainLink (none, 15) oneByte := ⟨rfl, rfl, rfl, by decide, fun h => absurd rfl h⟩
  refine (recvRun_holds_iff _ plainLink 0 rfl (.inl rfl) [oneByte, oneByte] _ ?_).2 (.cons htakes (.cons htakes .nil))
  refine ⟨⟨by decide, by decide, by decide +kernel⟩, fun r hr => ?_⟩
  have hstream := stream_of_got (x := (none, 15)) rfl hr
  have hroom : (ilinkRecvPkt (recvBytes 15).ios (recvBytes 15).answer (.start plainLink 0
      (wires (fun _ => 0) plainLink [oneByte, oneByte]).flatten)).map (room ·.2.2.rcvd) = some 2048 := by decide +kernel
  rw [hr, map_some, some_inj] at hroom
  refine ⟨⟨by decide, by rw [hroom]; decide, ?_⟩, fun r' hr' => ?_⟩
  · rw [hstream]
    decide +kernel
  · rw [ReceivesAll, stream_of_got (x := (none, 15)) rfl hr', hstream]
    decide +kernel

/-- Two packets that are received at once: the bytes of the second one are lost. -/
theorem not_holds_twoAtOnce :
    ReceivesAll (.start plainLink 0 (wires (fun _ => 0) plainLink [oneByte, oneByte]).flatten) [recvBytes 30] ∧
    ¬ ∃ w, recvRun [recvBytes 30] (.start plainLink 0 (wires (fun _ => 0) plainLink [oneByte, oneByte]).flatten) =
      some w ∧ w.Holds (wires (fun _ => 0) plainLink [oneByte, oneByte]) := by
  refine ⟨receivesAll_once plainLink 0 (by decide +kernel) (by decide +kernel), ?_⟩
  rintro ⟨w, hw, hbytes, -⟩
  have hone : (recvRun [recvBytes 30]
      (.start plainLink 0 (wires (fun _ => 0) plainLink [oneByte, oneByte]).flatten)).map (·.rcvd.length) = some 1 := by
    decide +kernel
  rw [hw, map_some, some_inj] at hone
  have htwo := congrArg List.length hbytes
  rw [length_map, hone] at htwo
  exact absurd htwo (by decide)

end Main
end Prj.Infolink.Packet
