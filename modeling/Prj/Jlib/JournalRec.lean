import Prj.Base.Image

/-!
The records of the journal (`jlib/src/jdb_jrnl.c`): how they are assembled, written and read.

The cipher is a stream that is at the same place for writing and reading. The queue hands the bytes of a record
to the file as they are. A result `none` is an error or an access outside of what is allocated.
-/
namespace Prj.Jlib.Journal
open Prj.Base List Option

/-- `struct jdb_jrnl_hdr`; `ret` is the bits of an `int`. -/
structure Hdr where
  argbufsize : UInt32
  chid : UInt64
  cmd : UInt8
  ret : UInt32
  nargs : UInt8
  deriving DecidableEq

def hdrWidths : List ℕ := [4, 8, 1, 4, 1]

def Hdr.fields (h : Hdr) : List ℕ :=
  [h.argbufsize.toNat, h.chid.toNat, h.cmd.toNat, h.ret.toNat, h.nargs.toNat]

def Hdr.ofFields (f : ℕ → ℕ) : Hdr where
  argbufsize := .ofNat (f 0)
  chid := .ofNat (f 1)
  cmd := .ofNat (f 2)
  ret := .ofNat (f 3)
  nargs := .ofNat (f 4)

def Hdr.bytes (h : Hdr) : List UInt8 := packStruct hdrWidths h.fields

def Hdr.ofBytes (bs : List UInt8) : Hdr := .ofFields fun i => (unpackStruct hdrWidths bs).getD i 0

/-- What `_jdb_jrnl_assm_rec` is called with. -/
structure Command where
  chid : UInt64
  cmd : UInt8
  ret : UInt32
  args : List (List UInt8)
  nargs_lt : args.length < 256

section Write
variable (c : Command)

def Command.weight : ℕ := (c.args.map List.length).sum

def Command.argbufsize : ℕ := 4 * c.args.length + c.weight

/-- What is copied of `argsize`: four bytes for each argument, from an array of `size_t`. -/
def Command.sizeBytes : List UInt8 :=
  (c.args.flatMap fun a => littleEndian 8 a.length).take (4 * c.args.length)

/-- Of the header only `argbufsize` is set, the rest is what the record held before. The size is a number of 32
bits; where it wraps around, the copies go beyond the buffer. -/
def assmRec (old : Hdr) : Option (Hdr × List UInt8) :=
  if c.argbufsize < 2 ^ 32 then
    some ({ old with argbufsize := .ofNat c.argbufsize }, c.sizeBytes ++ c.args.flatten)
  else none

/-- `_jdb_jrnl_reg`: the bytes of the file. -/
def reg (ks : ℕ → UInt8) (hdr : Hdr) (argbuf : List UInt8) : List UInt8 :=
  mask ks 0 hdr.bytes ++ mask ks 18 argbuf

end Write

section Read
/-- A record that was read; without `argbuf` its pointers are `NULL`. -/
structure Rec where
  hdr : Hdr
  argbuf : Option (List UInt8)

/-- The second call of `rc4` in `_jdb_jrnl_get_rec` is for the bytes at `&rec->argbuf`, not for the buffer: it
changes the pointer itself, the two pointers after it, which are set again, and what comes behind the record. -/
def PointerKept (ks : ℕ → UInt8) (argbufsize : ℕ) : Prop :=
  ∀ i < argbufsize, i < 8 ∨ 24 ≤ i → ks (18 + i) = 0

instance (ks : ℕ → UInt8) (argbufsize : ℕ) : Decidable (PointerKept ks argbufsize) :=
  inferInstanceAs (Decidable (∀ i < argbufsize, i < 8 ∨ 24 ≤ i → ks (18 + i) = 0))

def getRec (ks : ℕ → UInt8) (file : List UInt8) : Option Rec :=
  let hdr := Hdr.ofBytes (mask ks 0 (file.take 18))
  if file.length < 18 then none
  else if hdr.argbufsize = 0 then some ⟨hdr, none⟩
  else if file.length < 18 + hdr.argbufsize.toNat then none
  else if PointerKept ks hdr.argbufsize.toNat then
    some ⟨hdr, some ((file.drop 18).take hdr.argbufsize.toNat)⟩
  else none

/-- `rec->argsize[n]`. -/
def argSize (buf : List UInt8) (n : ℕ) : ℕ := ofLittleEndian ((buf.drop (4 * n)).take 4)

/-- The arguments that `_jdb_jrnl_get_arg` finds, with `pos` as the sum of the sizes before. -/
def splitArgs (buf : List UInt8) (base : ℕ) : ℕ → List ℕ → Option (List (List UInt8))
  | _, [] => some []
  | pos, n :: ns =>
    if n ≠ 0 ∧ buf.length < base + pos + n then none
    else (splitArgs buf base ((pos + n) % 2 ^ 32) ns).map fun as => (buf.drop (base + pos)).take n :: as

/-- `rec->arg` is `nargs * sizeof(uint32_t)` numbers of 32 bits behind `rec->argsize`. -/
def getArgs (r : Rec) : Option (List (List UInt8)) :=
  let nargs := r.hdr.nargs.toNat
  match r.argbuf with
  | none => if nargs = 0 then some [] else none
  | some buf =>
    if buf.length < 4 * nargs then none
    else splitArgs buf (4 * (nargs * 4)) 0 ((List.range nargs).map (argSize buf))

end Read

/-- The record that is read has the command, its return value, its change id and its arguments. -/
def Rereads (ks : ℕ → UInt8) (old : Hdr) (c : Command) : Prop :=
  ∃ hdr argbuf r, assmRec c old = some (hdr, argbuf) ∧ getRec ks (reg ks hdr argbuf) = some r ∧
    r.hdr.cmd = c.cmd ∧ r.hdr.ret = c.ret ∧ r.hdr.chid = c.chid ∧ getArgs r = some c.args

section Header
variable {ks : ℕ → UInt8} {hdr : Hdr} {argbuf : List UInt8}

theorem Hdr.fit (h : Hdr) : Fit hdrWidths h.fields :=
  fit_cons32 _ (fit_cons64 _ (fit_cons8 _ (fit_cons32 _ (fit_cons8 _ .nil))))

theorem Hdr.length_bytes (h : Hdr) : h.bytes.length = 18 := length_packStruct h.fit

theorem Hdr.ofBytes_bytes (h : Hdr) : ofBytes h.bytes = h := by
  rw [ofBytes, bytes, unpackStruct_packStruct h.fit]
  simp [ofFields, fields]

theorem getRec_reg (h : argbuf.length = hdr.argbufsize.toNat) : getRec ks (reg ks hdr argbuf) =
    if hdr.argbufsize = 0 then some ⟨hdr, none⟩
    else if PointerKept ks argbuf.length then some ⟨hdr, some (mask ks 18 argbuf)⟩ else none := by
  have hlen : (mask ks 0 hdr.bytes).length = 18 := by rw [length_mask, hdr.length_bytes]
  have hfile : (reg ks hdr argbuf).length = 18 + argbuf.length := by
    rw [reg, length_append, hlen, length_mask]
  have hhdr : Hdr.ofBytes (mask ks 0 ((reg ks hdr argbuf).take 18)) = hdr := by
    rw [reg, take_left' hlen, mask_mask, Hdr.ofBytes_bytes]
  have hbuf : ((reg ks hdr argbuf).drop 18).take argbuf.length = mask ks 18 argbuf := by
    rw [reg, drop_left' hlen, take_of_length_le (by rw [length_mask])]
  simp only [getRec, hhdr, hfile, ← h, hbuf, Nat.lt_irrefl, if_false, Nat.not_lt.2 (Nat.le_add_right _ _)]

end Header

section Args
variable {buf : List UInt8} {base pos : ℕ} {ns : List ℕ} {as : List (List UInt8)}

theorem length_splitArgs (h : splitArgs buf base pos ns = some as) : as.map List.length = ns := by
  induction ns generalizing pos as with
  | nil =>
    rw [← some.inj h]
    rfl
  | cons n ns ih =>
    rw [splitArgs] at h
    split_ifs at h with hout
    obtain ⟨as', hrest, rfl⟩ := map_eq_some_iff.1 h
    rw [map_cons, ih hrest, length_take, length_drop]
    congr 1
    omega

theorem splitArgs_le (h : splitArgs buf base pos ns = some as) (hlt : pos + ns.sum < 2 ^ 32)
    (hne : ns.sum ≠ 0) : base + pos + ns.sum ≤ buf.length := by
  induction ns generalizing pos as with
  | nil => exact absurd rfl hne
  | cons n ns ih =>
    rw [splitArgs] at h
    split_ifs at h with hout
    obtain ⟨as', hrest, -⟩ := map_eq_some_iff.1 h
    rw [sum_cons] at hlt hne ⊢
    by_cases hzero : ns.sum = 0
    · omega
    · have hle := ih hrest (by omega) hzero
      omega

theorem splitArgs_replicate_zero (n : ℕ) : splitArgs buf base pos (List.replicate n 0) =
    some (List.replicate n []) := by
  induction n generalizing pos with
  | zero => rfl
  | succ n ih =>
    rw [replicate_succ, splitArgs, ih]
    rfl

theorem length_getArgs {r : Rec} (h : getArgs r = some as) : as.length = r.hdr.nargs.toNat := by
  obtain ⟨hdr, argbuf⟩ := r
  cases argbuf with
  | none =>
    simp only [getArgs] at h
    split_ifs at h with hzero
    rw [← some.inj h]
    exact hzero.symm
  | some buf =>
    simp only [getArgs] at h
    split_ifs at h
    have hlen := congrArg List.length (length_splitArgs h)
    rwa [length_map, length_map, length_range] at hlen

end Args

section Zero
variable {bs : List UInt8}

theorem ofBigEndian_eq_zero (h : ofBigEndian bs = 0) : ∀ b ∈ bs, b = 0 := by
  induction bs with
  | nil => intro b hb; cases hb
  | cons a bs ih =>
    rw [ofBigEndian, Nat.add_eq_zero_iff, Nat.mul_eq_zero] at h
    have ha : a = 0 := UInt8.toNat_inj.1 (h.1.resolve_right (by positivity))
    rw [forall_mem_cons]
    exact ⟨ha, ih h.2⟩

theorem eq_zero_of_argSize {buf : List UInt8} {n i : ℕ} (h : ∀ k < n, argSize buf k = 0) (hi : i < 4 * n)
    (hlen : buf.length = 4 * n) : buf.getD i 0 = 0 := by
  have hk : i / 4 < n := by omega
  have hmem : buf.getD i 0 ∈ (buf.drop (4 * (i / 4))).take 4 := by
    rw [getD_eq_getElem _ _ (by omega), mem_iff_getElem]
    refine ⟨i % 4, ?_, ?_⟩
    · rw [length_take, length_drop]
      omega
    · rw [getElem_take, getElem_drop]
      congr 1
      omega
  exact ofBigEndian_eq_zero (h _ hk) _ (mem_reverse.2 hmem)

end Zero

section Main
variable {ks mem : ℕ → UInt8} {old hdr : Hdr} {c : Command}

theorem length_sizeBytes (c : Command) : c.sizeBytes.length = 4 * c.args.length := by
  have hlen : (c.args.flatMap fun a => littleEndian 8 a.length).length = 8 * c.args.length := by
    simp [Nat.mul_comm]
  rw [Command.sizeBytes, length_take]
  omega

theorem length_argbuf (c : Command) : (c.sizeBytes ++ c.args.flatten).length = c.argbufsize := by
  rw [length_append, length_sizeBytes, length_flatten, Command.argbufsize, Command.weight]

theorem argbuf_of_empty (h : ∀ a ∈ c.args, a = []) :
    c.sizeBytes ++ c.args.flatten = List.replicate (4 * c.args.length) 0 := by
  have hargs : c.args = List.replicate c.args.length [] := eq_replicate_iff.2 ⟨rfl, h⟩
  have hflat : c.args.flatten = [] := flatten_eq_nil_iff.2 h
  have hsizes : (c.args.flatMap fun a => littleEndian 8 a.length) = List.replicate (c.args.length * 8) 0 := by
    have hzero : littleEndian 8 (([] : List UInt8).length : ℤ) = List.replicate 8 0 := by decide
    rw [hargs, flatMap_def, map_replicate, hzero, flatten_replicate_replicate, length_replicate]
  rw [hflat, append_nil, Command.sizeBytes, hsizes, take_replicate]
  congr 1
  omega

theorem argSize_replicate_zero {n k : ℕ} (hk : k < n) : argSize (List.replicate (4 * n) 0) k = 0 := by
  have hfour : ofLittleEndian (List.replicate 4 0) = 0 := by decide
  rw [argSize, drop_replicate, take_replicate, Nat.min_eq_left (by omega), hfour]

def SizesKept (ks : ℕ → UInt8) (c : Command) : Prop := ∀ i < 4 * c.args.length, ks (18 + i) = 0

def HeaderSet (old : Hdr) (c : Command) : Prop :=
  old.cmd = c.cmd ∧ old.ret = c.ret ∧ old.chid = c.chid ∧ old.nargs.toNat = c.args.length

theorem assmRec_eq_some {argbuf : List UInt8} (h : assmRec c old = some (hdr, argbuf)) :
    c.argbufsize < 2 ^ 32 ∧ hdr = { old with argbufsize := .ofNat c.argbufsize } ∧
      argbuf = c.sizeBytes ++ c.args.flatten := by
  unfold assmRec at h
  split_ifs at h with hlt
  cases h
  exact ⟨hlt, rfl, rfl⟩

theorem args_eq_nil_of_splitArgs {buf : List UInt8} (hlt : c.argbufsize < 2 ^ 32) (hlen : buf.length = c.argbufsize)
    (h : splitArgs buf (4 * (c.args.length * 4)) 0 (c.args.map List.length) = some c.args) : ∀ a ∈ c.args, a = [] := by
  by_contra hne
  obtain ⟨a, hbytes⟩ := not_forall.1 hne
  obtain ⟨ha, hbytes⟩ := Classical.not_imp.1 hbytes
  have hle : a.length ≤ c.weight := single_le_sum (fun _ _ => Nat.zero_le _) _ (mem_map_of_mem ha)
  have hone : 0 < a.length := length_pos_iff.2 hbytes
  have hargs : 0 < c.args.length := length_pos_iff.2 (ne_nil_of_mem ha)
  have hsum : (c.args.map List.length).sum = c.weight := rfl
  unfold Command.argbufsize at hlt hlen
  have hend := splitArgs_le h (by omega) (by omega)
  omega

theorem getD_fetch {p n i : ℕ} (hi : i < n) : (fetch mem p n).getD i 0 = mem (p + i) := by
  rw [getD_eq_getElem _ _ (by rw [length_fetch]; exact hi)]
  simp [fetch]

theorem sizesKept_of_argSize (hempty : ∀ a ∈ c.args, a = []) (h : c.args.map List.length =
      (List.range c.args.length).map (argSize (fetch ks 18 (4 * c.args.length)))) : SizesKept ks c := by
  have hzero : ∀ k < c.args.length, argSize (fetch ks 18 (4 * c.args.length)) k = 0 := by
    intro k hk
    have hmem : argSize (fetch ks 18 (4 * c.args.length)) k ∈ c.args.map List.length := by
      rw [h]
      exact mem_map_of_mem (mem_range.2 hk)
    obtain ⟨a, ha, heq⟩ := mem_map.1 hmem
    rw [← heq, hempty a ha]
    rfl
  intro i hi
  exact (getD_fetch hi).symm.trans (eq_zero_of_argSize hzero hi (length_fetch ks 18 _))

theorem getArgs_eq_iff (hnargs : hdr.nargs.toNat = c.args.length) (hlt : c.argbufsize < 2 ^ 32) :
    getArgs ⟨hdr, some (mask ks 18 (c.sizeBytes ++ c.args.flatten))⟩ = some c.args ↔
      (∀ a ∈ c.args, a = []) ∧ SizesKept ks c := by
  have hlen : (mask ks 18 (c.sizeBytes ++ c.args.flatten)).length = c.argbufsize := by
    rw [length_mask, length_argbuf]
  have hroom : ¬ (mask ks 18 (c.sizeBytes ++ c.args.flatten)).length < 4 * c.args.length := by
    rw [hlen, Command.argbufsize]
    omega
  simp only [getArgs, hnargs, if_neg hroom]
  constructor
  · intro h
    have hsizes := length_splitArgs h
    rw [← hsizes] at h
    have hempty := args_eq_nil_of_splitArgs hlt hlen h
    rw [argbuf_of_empty hempty, mask_replicate_zero] at hsizes
    exact ⟨hempty, sizesKept_of_argSize hempty hsizes⟩
  · rintro ⟨hempty, hkept⟩
    have hbuf : mask ks 18 (c.sizeBytes ++ c.args.flatten) = List.replicate (4 * c.args.length) 0 := by
      rw [argbuf_of_empty hempty, mask_replicate_zero]
      refine eq_replicate_iff.2 ⟨length_fetch _ _ _, ?_⟩
      intro b hb
      obtain ⟨i, hi, rfl⟩ := mem_map.1 hb
      exact hkept i (mem_range.1 hi)
    have hsizes : (List.range c.args.length).map (argSize (List.replicate (4 * c.args.length) 0)) =
        List.replicate c.args.length 0 := by
      refine eq_replicate_iff.2 ⟨by simp, ?_⟩
      intro n hn
      obtain ⟨k, hk, rfl⟩ := mem_map.1 hn
      exact argSize_replicate_zero (mem_range.1 hk)
    have hargs : c.args = List.replicate c.args.length [] := eq_replicate_iff.2 ⟨rfl, hempty⟩
    rw [hbuf, hsizes, splitArgs_replicate_zero, ← hargs]

theorem argbufsize_eq_zero_iff (hlt : c.argbufsize < 2 ^ 32) : (UInt32.ofNat c.argbufsize = 0) ↔ c.args = [] := by
  rw [← UInt32.toNat_inj, UInt32.toNat_ofNat_of_lt' hlt]
  change c.argbufsize = 0 ↔ _
  constructor
  · intro h
    unfold Command.argbufsize at h
    exact length_eq_zero_iff.1 (by omega)
  · intro h
    rw [Command.argbufsize, Command.weight, h]
    rfl

theorem getRec_assmRec (ks : ℕ → UInt8) (old : Hdr) (hlt : c.argbufsize < 2 ^ 32) :
    getRec ks (reg ks { old with argbufsize := .ofNat c.argbufsize } (c.sizeBytes ++ c.args.flatten)) =
      if c.args = [] then some ⟨{ old with argbufsize := .ofNat c.argbufsize }, none⟩
      else if PointerKept ks c.argbufsize then
        some ⟨{ old with argbufsize := .ofNat c.argbufsize }, some (mask ks 18 (c.sizeBytes ++ c.args.flatten))⟩
      else none := by
  have hlen : (c.sizeBytes ++ c.args.flatten).length = (UInt32.ofNat c.argbufsize).toNat := by
    rw [length_argbuf, UInt32.toNat_ofNat_of_lt' hlt]
  rw [getRec_reg hlen, length_argbuf]
  simp only [argbufsize_eq_zero_iff hlt]

theorem Rereads.of_empty (hset : HeaderSet old c) (hempty : ∀ a ∈ c.args, a = []) (hkept : SizesKept ks c) :
    Rereads ks old c := by
  obtain ⟨hcmd, hret, hchid, hnargs⟩ := hset
  have hsize : c.argbufsize = 4 * c.args.length := by
    rw [← length_argbuf, argbuf_of_empty hempty, length_replicate]
  have hlt : c.argbufsize < 2 ^ 32 := by
    have hbyte := c.nargs_lt
    omega
  have hassm : assmRec c old =
      some ({ old with argbufsize := .ofNat c.argbufsize }, c.sizeBytes ++ c.args.flatten) := if_pos hlt
  have hpointer : PointerKept ks c.argbufsize := fun i hi _ => hkept i (by omega)
  have hrec := getRec_assmRec ks old hlt
  by_cases hnil : c.args = []
  · rw [if_pos hnil] at hrec
    refine ⟨_, _, _, hassm, hrec, hcmd, hret, hchid, ?_⟩
    rw [hnil] at hnargs
    rw [hnil]
    exact if_pos hnargs
  · rw [if_neg hnil, if_pos hpointer] at hrec
    exact ⟨_, _, _, hassm, hrec, hcmd, hret, hchid, (getArgs_eq_iff hnargs hlt).2 ⟨hempty, hkept⟩⟩

/-- A record is read as it was written exactly if its header was set before, no argument has a byte, and the
key stream leaves the bytes of their sizes alone. -/
theorem rereads_iff : Rereads ks old c ↔ HeaderSet old c ∧ (∀ a ∈ c.args, a = []) ∧ SizesKept ks c := by
  constructor
  · rintro ⟨hdr, argbuf, r, hassm, hrec, hcmd, hret, hchid, hargs⟩
    obtain ⟨hlt, rfl, rfl⟩ := assmRec_eq_some hassm
    rw [getRec_assmRec ks old hlt] at hrec
    have hlen := length_getArgs hargs
    split_ifs at hrec with hnil hkept
    · cases hrec
      refine ⟨⟨hcmd, hret, hchid, hlen.symm⟩, ?_, ?_⟩
      · rw [hnil]
        intro a ha
        cases ha
      · unfold SizesKept
        rw [hnil]
        intro i hi
        cases hi
    · cases hrec
      exact ⟨⟨hcmd, hret, hchid, hlen.symm⟩, (getArgs_eq_iff hlen.symm hlt).1 hargs⟩
  · rintro ⟨hset, hempty, hkept⟩
    exact .of_empty hset hempty hkept

def rmTableA : Command := ⟨7, 0x02, 0, [[97, 0, 0, 0, 0, 0, 0, 0]], by decide⟩

def noArgs : Command := ⟨7, 0x02, 0, [], by decide⟩

/-- The argument is lost even with a header that was set and a cipher that changes nothing, the command if the
header was not set. -/
theorem not_rereads_rmTableA :
    ¬ Rereads (fun _ => 0) ⟨0, 7, 0x02, 0, 1⟩ rmTableA ∧ ¬ Rereads (fun _ => 0) ⟨0, 0, 0, 0, 0⟩ noArgs := by
  constructor
  · rintro ⟨hdr, argbuf, r, hassm, hrec, -, -, -, hargs⟩
    obtain ⟨-, rfl, rfl⟩ := assmRec_eq_some hassm
    have hlost : (getRec (fun _ => 0) (reg (fun _ => 0)
        { argbufsize := .ofNat rmTableA.argbufsize, chid := 7, cmd := 0x02, ret := 0, nargs := 1 }
        (rmTableA.sizeBytes ++ rmTableA.args.flatten))).bind getArgs = none := by decide
    rw [hrec, bind_some, hargs] at hlost
    cases hlost
  · rintro ⟨hdr, argbuf, r, hassm, hrec, hcmd, -⟩
    obtain ⟨-, rfl, rfl⟩ := assmRec_eq_some hassm
    have hlt : noArgs.argbufsize < 2 ^ 32 := by decide
    have hread := hrec.symm.trans (getRec_assmRec (fun _ => 0) ⟨0, 0, 0, 0, 0⟩ hlt)
    rw [some.inj hread] at hcmd
    exact absurd hcmd (by decide)

end Main
end Prj.Jlib.Journal
