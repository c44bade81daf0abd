import Prj.Base.Disk
import Prj.Jlib.BlockPack
import Prj.Jlib.Jcs

/-!
The store of records `jss` (`jlib/src/jss.c`): what is added, written on closing and read on opening.

The cipher is any that can be undone. Memory that is not initialised holds arbitrary bytes. The file has room for all
that is written.
-/
namespace Prj.Jlib.Jss
open Prj.Base

inductive Err
  | read
  | write
  | crc
  | pass
  | exists
  | notfound
  | forbid
  /-- What the language leaves undefined, such as an access outside of a buffer. -/
  | undefined
  deriving DecidableEq, Repr

def wrap (n : ℕ) : ℕ := n % 2 ^ 32

def jssSize (n : ℕ) : ℕ := if n % 16 = 0 then n else (n / 16 + 1) * 16

inductive Arch
  | lp64
  | ilp32
  deriving DecidableEq

/-- What `_jss_seek_read` and `_jss_seek_write` can do. `hard_read` and `hard_write` are declared with `int` for the
count and the result, which is not `len` from `2 ^ 31` on if `len` has 64 bits; `off_t` is signed and has 32 bits on
`ilp32`, as has the position in the file. -/
def Arch.Takes : Arch → ℕ → ℕ → Prop
  | lp64, _, len => len < 2 ^ 31
  | ilp32, offset, len => offset + len < 2 ^ 31

instance (arch : Arch) (offset len : ℕ) : Decidable (arch.Takes offset len) := by
  cases arch <;> exact Nat.decLt _ _

def Arch.seekRead (arch : Arch) (f : Disk) (offset len : ℕ) : Option (List UInt8) :=
  if arch.Takes offset len then f.read offset len else none

def Arch.seekWrite (arch : Arch) (f : Disk) (offset : ℕ) (bytes : List UInt8) : Except Err Disk :=
  if arch.Takes offset bytes.length then .ok (f.write (offset, bytes)) else .error .write

/-- The SHA-256 of the key, and the cipher that it is the key of. -/
structure Key where
  pwhash : Fin 32 → UInt8
  aes : BlockCipher 16

def Key.encrypt (key : Key) (total : ℕ) (bs : List UInt8) : List UInt8 :=
  mapBlocks 16 key.aes.enc (total / 16) bs

def Key.decrypt (key : Key) (total : ℕ) (bs : List UInt8) : List UInt8 :=
  mapBlocks 16 key.aes.dec (total / 16) bs

/-- What is in memory before anything is written there: in the header, in the buffer of the record with an id,
and in the buffer for the headers of the records. -/
structure Junk where
  flags : UInt8
  pad : Fin 3 → UInt8
  buf : UInt32 → ℕ → UInt8
  hdrs : ℕ → UInt8

section Headers
/-- `struct jss_file_hdr` -/
structure FileHdr where
  magic : UInt16
  type : UInt8
  ver : UInt8
  flags : UInt8
  crc32 : UInt32
  nrec : UInt32
  pwhash : Fin 32 → UInt8
  pad : Fin 3 → UInt8

def fileHdrWidths : List ℕ := [2, 1, 1, 1, 4, 4]

def FileHdr.fields (h : FileHdr) : List ℕ :=
  [h.magic.toNat, h.type.toNat, h.ver.toNat, h.flags.toNat, h.crc32.toNat, h.nrec.toNat]

def FileHdr.bytes (h : FileHdr) : List UInt8 :=
  packStruct fileHdrWidths h.fields ++ (List.ofFn h.pwhash ++ List.ofFn h.pad)

def FileHdr.ofBytes (bs : List UInt8) : FileHdr :=
  let f (i : ℕ) : ℕ := (unpackStruct fileHdrWidths (bs.take 13)).getD i 0
  { magic := .ofNat (f 0), type := .ofNat (f 1), ver := .ofNat (f 2), flags := .ofNat (f 3)
    crc32 := .ofNat (f 4), nrec := .ofNat (f 5)
    pwhash := fun i => (bs.drop 13).getD i 0
    pad := fun i => (bs.drop 45).getD i 0 }

/-- `struct jss_rec_hdr` -/
structure RecHdr where
  flags : UInt8
  crc32 : UInt32
  offset : UInt32
  datalen : UInt32
  id : UInt32
  type : UInt16
  namelen : UInt16
  deriving DecidableEq

def recHdrWidths : List ℕ := [1, 4, 4, 4, 4, 2, 2]

def RecHdr.fields (h : RecHdr) : List ℕ :=
  [h.flags.toNat, h.crc32.toNat, h.offset.toNat, h.datalen.toNat, h.id.toNat, h.type.toNat, h.namelen.toNat]

def RecHdr.bytes (h : RecHdr) : List UInt8 := packStruct recHdrWidths h.fields

def RecHdr.ofBytes (bs : List UInt8) : RecHdr :=
  let f (i : ℕ) : ℕ := (unpackStruct recHdrWidths bs).getD i 0
  { flags := .ofNat (f 0), crc32 := .ofNat (f 1), offset := .ofNat (f 2), datalen := .ofNat (f 3)
    id := .ofNat (f 4), type := .ofNat (f 5), namelen := .ofNat (f 6) }

/-- The flag `JSS_REC_DONTLOAD`. -/
def RecHdr.dontload (h : RecHdr) : Bool := h.flags &&& 0x01 ≠ 0

def RecHdr.len (h : RecHdr) : ℕ := wrap (h.namelen.toNat + 1 + h.datalen.toNat)

def RecHdr.total (h : RecHdr) : ℕ := wrap (jssSize h.len)

/-- A record; without `data` the pointer is `NULL` or was never set. -/
structure Rec where
  hdr : RecHdr
  data : Option (List UInt8)

structure Handle where
  hdr : FileHdr
  recs : List Rec
  modified : Bool

end Headers

section Add
/-- What `jss_add` is called with. -/
structure Item where
  id : UInt32
  type : UInt16
  flags : UInt8
  name : Option WStr
  data : List UInt8
  datalen_lt : data.length < 2 ^ 32

/-- The value `(size_t)-1` is cut to 16 bits. -/
def Item.namelen (it : Item) : UInt16 :=
  match it.name with
  | none => 0
  | some s =>
    match wtojcsLen s 2048 with
    | none => 0xffff
    | some n => .ofNat n

def Item.nameBytes (it : Item) : List UInt8 :=
  match it.name with
  | none => []
  | some s => (wtojcs s it.namelen.toNat).2

def Item.size (it : Item) : ℕ := wrap (jssSize (wrap (it.data.length + it.namelen.toNat + 1)))

def Item.plain (junk : ℕ → UInt8) (it : Item) : List UInt8 :=
  fetch (store (store junk 0 it.nameBytes) (it.namelen.toNat + 1) it.data) 0 it.size

/-- `crc32` and `offset` are set before they are read. -/
def Item.hdr (it : Item) : RecHdr where
  flags := it.flags
  crc32 := 0
  offset := 0
  datalen := .ofNat it.data.length
  id := it.id
  type := it.type
  namelen := it.namelen

def jssAdd (junk : Junk) (h : Handle) (it : Item) : Except Err Handle :=
  if ∃ r ∈ h.recs, r.hdr.id = it.id then .error .exists
  else if it.size < it.nameBytes.length ∨ it.size < it.namelen.toNat + 1 + it.data.length then
    .error .undefined
  else .ok
    { hdr := { h.hdr with nrec := if h.recs.isEmpty then 1 else h.hdr.nrec + 1 }
      recs := h.recs ++ [⟨it.hdr, some (it.plain (junk.buf it.id))⟩]
      modified := true }

def addAll (junk : Junk) : Handle → List Item → Except Err Handle
  | h, [] => .ok h
  | h, it :: its =>
    match jssAdd junk h it with
    | .error e => .error e
    | .ok h => addAll junk h its

end Add

section Read
variable (arch : Arch) (key : Key)

def readHdr (f : Disk) : Except Err FileHdr :=
  match arch.seekRead f 0 48 with
  | none => .error .read
  | some bs =>
    let hdr := FileHdr.ofBytes (key.decrypt 48 bs)
    if hdr.crc32 = jdbHash { hdr with crc32 := 0 }.bytes then .ok hdr else .error .crc

def readHeaders (nrec : UInt32) (f : Disk) : Except Err (List Rec) :=
  let total := wrap (jssSize (nrec.toNat * 21))
  match arch.seekRead f 48 total with
  | none => .error .read
  | some bs =>
    if total < nrec.toNat * 21 then .error .undefined
    else .ok ((List.range nrec.toNat).map fun i =>
      ⟨.ofBytes (((key.decrypt total bs).drop (i * 21)).take 21), none⟩)

/-- The name is decoded in place. The buffer for it has room for `namelen + 1` characters; what does not fit
is written behind it. -/
def decodeName (hdr : RecHdr) (buf : List UInt8) : Option (List UInt8) :=
  if hdr.namelen = 0 then some buf
  else
    match jcstow buf hdr.total with
    | none => none
    | some d => if hdr.namelen.toNat + 1 < d.dst.length then none else some d.src

/-- What `_jss_read_rec` does with the bytes of a record: the checksum is taken after the name was decoded. -/
def load (hdr : RecHdr) (buf : List UInt8) : Except Err (Option (List UInt8)) :=
  match decodeName hdr buf with
  | none => .error .undefined
  | some buf =>
    if hdr.datalen = 0 then .ok none
    else if hdr.crc32 = jdbHash (buf.take hdr.len) then .ok (some buf) else .error .crc

def readRec (f : Disk) (r : Rec) : Except Err Rec :=
  match arch.seekRead f r.hdr.offset.toNat r.hdr.total with
  | none => .error .read
  | some bs =>
    match load r.hdr (key.decrypt r.hdr.total bs) with
    | .error e => .error e
    | .ok none => .ok r
    | .ok (some buf) => .ok { r with data := some buf }

def readRecs (f : Disk) : List Rec → Except Err (List Rec)
  | [] => .ok []
  | r :: rs =>
    match if r.hdr.dontload then .ok r else readRec arch key f r with
    | .error e => .error e
    | .ok r => (readRecs f rs).map (r :: ·)

/-- `_jss_just_open` -/
def justOpen (f : Disk) : Except Err Handle :=
  match readHdr arch key f with
  | .error e => .error e
  | .ok hdr =>
    if hdr.pwhash ≠ key.pwhash then .error .pass
    else
      match readHeaders arch key hdr.nrec f with
      | .error e => .error e
      | .ok recs => (readRecs arch key f recs).map fun recs => ⟨hdr, recs, false⟩

end Read

section Write
variable (arch : Arch) (key : Key)

/-- `_jss_create`; the file has no bytes yet. -/
def create (junk : Junk) : Handle where
  hdr :=
    { magic := 0x1bcd, type := 0x03, ver := 0x01, flags := junk.flags, crc32 := 0, nrec := 0
      pwhash := key.pwhash, pad := junk.pad }
  recs := []
  modified := false

/-- The flag `JSS_BE` is set on every host: `defined JN_BIG_ENDIAN == 1` asks whether the name is defined. -/
def sealHdr (hdr : FileHdr) : FileHdr :=
  let hdr := { hdr with flags := hdr.flags ||| 0x01, crc32 := 0 }
  { hdr with crc32 := jdbHash hdr.bytes }

def writeHdr (hdr : FileHdr) (f : Disk) : Except Err Disk := arch.seekWrite f 0 (key.encrypt 48 hdr.bytes)

def Rec.checksum (r : Rec) : Except Err UInt32 :=
  if r.hdr.datalen = 0 then .ok 0
  else
    match r.data with
    | none => .error .undefined
    | some data => if data.length < r.hdr.len then .error .undefined else .ok (jdbHash (data.take r.hdr.len))

/-- The loop of `_jss_calc_offset`. -/
def calcOffset (total : ℕ) : ℕ → List Rec → Except Err (List Rec)
  | _, [] => .ok []
  | next, r :: rs =>
    let offset := wrap (total + next)
    match r.checksum with
    | .error e => .error e
    | .ok crc =>
      let next := wrap (jssSize (wrap (offset + r.hdr.datalen.toNat + r.hdr.namelen.toNat + 1)))
      (calcOffset total next rs).map
        ({ r with hdr := { r.hdr with offset := .ofNat offset, crc32 := crc } } :: ·)

def writeHeaders (junk : Junk) (nrec : UInt32) (recs : List Rec) (f : Disk) : Except Err Disk :=
  let total := wrap (jssSize (nrec.toNat * 21))
  let bytes := recs.flatMap fun r => r.hdr.bytes
  if total < bytes.length then .error .undefined
  else arch.seekWrite f 48 (key.encrypt total (fetch (store junk.hdrs 0 bytes) 0 total))

def writeRec (f : Disk) (r : Rec) : Except Err Disk :=
  match r.data with
  | none => .error (if r.hdr.dontload then .forbid else .undefined)
  | some data =>
    if data.length < r.hdr.total then .error .undefined
    else arch.seekWrite f r.hdr.offset.toNat (key.encrypt r.hdr.total data)

/-- The loop of `jss_sync`. A record that was not loaded is read from its new place before it is written. -/
def syncRecs : Disk → List Rec → Except Err Disk
  | f, [] => .ok f
  | f, r :: rs =>
    match if r.hdr.dontload ∧ r.data = none then readRec arch key f r else .ok r with
    | .error e => .error e
    | .ok r =>
      match writeRec arch key f r with
      | .error e => .error e
      | .ok f => syncRecs f rs

def sync (junk : Junk) (h : Handle) (f : Disk) : Except Err Disk :=
  if h.modified then
    match writeHdr arch key (sealHdr h.hdr) f with
    | .error e => .error e
    | .ok f =>
      match calcOffset (wrap (wrap (jssSize (h.hdr.nrec.toNat * 21)) + 48)) 0 h.recs with
      | .error e => .error e
      | .ok recs =>
        match writeHeaders arch key junk h.hdr.nrec recs f with
        | .error e => .error e
        | .ok f => syncRecs arch key f recs
  else .ok f

end Write

section Get
variable (arch : Arch) (key : Key)

/-- What `jss_get_rec` hands out; the name has its terminator. -/
structure Found where
  type : UInt16
  name : Option (List ℤ)
  data : List UInt8
  deriving DecidableEq

/-- The name is decoded in place, so that the bytes of the record change with each call. -/
def extract (r : Rec) : Except Err (Found × Rec) :=
  if r.hdr.namelen = 0 then
    match r.data with
    | none => if r.hdr.datalen = 0 then .ok (⟨r.hdr.type, none, []⟩, r) else .error .undefined
    | some buf => .ok (⟨r.hdr.type, none, (buf.drop 1).take r.hdr.datalen.toNat⟩, r)
  else
    match r.data with
    | none => .error .undefined
    | some buf =>
      match jcstow buf r.hdr.namelen.toNat with
      | none => .error .undefined
      | some ⟨none, _, _⟩ => .error .forbid
      | some ⟨some _, dst, src⟩ =>
        .ok (⟨r.hdr.type, some dst, (src.drop (r.hdr.namelen.toNat + 1)).take r.hdr.datalen.toNat⟩,
          { r with data := some src })

/-- The search of `jss_get_rec`, with the records after it. -/
def getRec (f : Disk) (id : UInt32) : List Rec → Except Err (Found × List Rec)
  | [] => .error .notfound
  | r :: rs =>
    if r.hdr.id = id then
      match if r.hdr.dontload ∧ r.data = none then readRec arch key f r else .ok r with
      | .error e => .error e
      | .ok r => (extract r).map fun out => (out.1, out.2 :: rs)
    else (getRec f id rs).map fun out => (out.1, r :: out.2)

def getAll (f : Disk) : List Rec → List UInt32 → Except Err (List Found)
  | _, [] => .ok []
  | recs, id :: ids =>
    match getRec arch key f id recs with
    | .error e => .error e
    | .ok (found, recs) => (getAll f recs ids).map (found :: ·)

end Get

section Specification
variable (arch : Arch) (key : Key) (junk : Junk)

def Item.found (it : Item) : Found := ⟨it.type, it.name.map fun s => s.chars ++ [0], it.data⟩

/-- The records are added to a new store, which is closed and opened again. -/
def reopen (items : List Item) : Except Err (Handle × Disk) :=
  match addAll junk (create key junk) items with
  | .error e => .error e
  | .ok h =>
    match sync arch key junk h .empty with
    | .error e => .error e
    | .ok f => (justOpen arch key f).map fun h => (h, f)

def Persists (items : List Item) : Prop :=
  ∃ h f, reopen arch key junk items = .ok (h, f) ∧
    ∀ its : List Item, (∀ it ∈ its, it ∈ items) →
      getAll arch key f h.recs (its.map Item.id) = .ok (its.map Item.found)

end Specification
end Prj.Jlib.Jss
