import Prj.Jlib.JssItem

/-!
A store that is closed and opened again: each record is read from where it was written, and `jss_get_rec` finds all
of them with their names and data.
-/
namespace Prj.Jlib.Jss
open Prj.Base List

section Headers
theorem FileHdr.fit (h : FileHdr) : Fit fileHdrWidths h.fields :=
  fit_cons16 _ (fit_cons8 _ (fit_cons8 _ (fit_cons8 _ (fit_cons32 _ (fit_cons32 _ .nil)))))

theorem FileHdr.length_bytes (h : FileHdr) : h.bytes.length = 48 := rfl

theorem FileHdr.ofBytes_bytes (h : FileHdr) : ofBytes h.bytes = h := by
  have hlen : (packStruct fileHdrWidths h.fields).length = 13 := length_packStruct h.fit
  have htail : h.bytes.drop 13 = List.ofFn h.pwhash ++ List.ofFn h.pad := by
    rw [bytes, drop_left' hlen]
  have hpad : h.bytes.drop 45 = List.ofFn h.pad := by
    have hdrop : h.bytes.drop 45 = (h.bytes.drop 13).drop 32 := by rw [drop_drop]
    rw [hdrop, htail, drop_left' List.length_ofFn]
  have hfields : unpackStruct fileHdrWidths (h.bytes.take 13) = h.fields := by
    rw [bytes, take_left' hlen, unpackStruct_packStruct h.fit]
  have hget {n : ℕ} (v : Fin n → UInt8) (i : Fin n) : (List.ofFn v).getD i 0 = v i := by simp
  have hpw (i : Fin 32) : (List.ofFn h.pwhash ++ List.ofFn h.pad).getD i 0 = h.pwhash i := by
    rw [getD_append _ _ _ _ (by exact i.2), hget]
  simp only [ofBytes, htail, hpad, hfields, hpw, hget]
  simp [fields]

theorem RecHdr.fit (h : RecHdr) : Fit recHdrWidths h.fields :=
  fit_cons8 _ (fit_cons32 _ (fit_cons32 _ (fit_cons32 _ (fit_cons32 _ (fit_cons16 _ (fit_cons16 _ .nil))))))

theorem RecHdr.length_bytes (h : RecHdr) : h.bytes.length = 21 := length_packStruct h.fit

theorem RecHdr.ofBytes_bytes (h : RecHdr) : ofBytes h.bytes = h := by
  simp only [ofBytes, bytes, unpackStruct_packStruct h.fit]
  simp [fields]

end Headers

section Cipher
variable (key : Key) {n : ℕ} {bs : List UInt8} (hn : n % 16 = 0) (hlen : bs.length = n)
include hn hlen

theorem length_encrypt : (key.encrypt n bs).length = n := by
  have hmul : n / 16 * 16 = n := by omega
  rw [Key.encrypt, length_mapBlocks key.aes.length_enc (by rw [hlen, hmul]), hmul]

theorem decrypt_encrypt : key.decrypt n (key.encrypt n bs) = bs := by
  have hmul : n / 16 * 16 = n := by omega
  exact key.aes.mapBlocks_dec_enc (by rw [hlen, hmul])

end Cipher

/-- A record as it is written: its bytes are there, the platform can transfer them, and reading them again gives
back what was written. -/
structure Sound (arch : Arch) (r : Rec) : Prop where
  total : r.hdr.total = jssSize r.weight
  takes : arch.Takes r.hdr.offset.toNat (jssSize r.weight)
  data : ∃ buf, r.data = some buf ∧ buf.length = jssSize r.weight ∧ load r.hdr buf = .ok r.loaded.data

/-- The records of a file behind its headers. -/
structure Laid (arch : Arch) (recs rs : List Rec) : Prop where
  lt : 48 + jssSize (rs.length * 21) < 2 ^ 32
  takes : arch.Takes 48 (jssSize (rs.length * 21))
  sound : ∀ r ∈ rs, Sound arch r
  placed : Placed (48 + jssSize (rs.length * 21)) recs rs

def Rec.written (key : Key) (r : Rec) : ℕ × List UInt8 :=
  (r.hdr.offset.toNat, key.encrypt (jssSize r.weight) (r.data.getD []))

def headersBuf (junk : Junk) (rs : List Rec) : List UInt8 :=
  fetch (store junk.hdrs 0 (rs.flatMap fun r => r.hdr.bytes)) 0 (jssSize (rs.length * 21))

def writes (key : Key) (junk : Junk) (hdr : FileHdr) (rs : List Rec) : List (ℕ × List UInt8) :=
  (0, key.encrypt 48 hdr.bytes) :: (48, key.encrypt (jssSize (rs.length * 21)) (headersBuf junk rs)) ::
    rs.map (Rec.written key)

def closed (key : Key) (junk : Junk) (hdr : FileHdr) (rs : List Rec) : Disk :=
  Disk.empty.writeAll (writes key junk hdr rs)

section File
variable {arch : Arch} {key : Key} {junk : Junk} {hdr : FileHdr} {r : Rec} {recs rs : List Rec}

theorem takes_hdr (arch : Arch) : arch.Takes 0 48 := by
  cases arch <;> decide

theorem length_flatMap_bytes : (rs.flatMap fun r => r.hdr.bytes).length = rs.length * 21 := by
  simp [RecHdr.length_bytes]

theorem length_headersBuf (junk : Junk) (rs : List Rec) : (headersBuf junk rs).length = jssSize (rs.length * 21) :=
  length_fetch ..

theorem Sound.length_written (h : Sound arch r) (key : Key) : (r.written key).2.length = jssSize r.weight := by
  obtain ⟨buf, hbuf, hlen, -⟩ := h.data
  rw [Rec.written, hbuf]
  exact length_encrypt key (jssSize_mod _) hlen

theorem syncRecs_eq (f : Disk) (hsound : ∀ r ∈ rs, Sound arch r) :
    syncRecs arch key f rs = .ok (f.writeAll (rs.map (Rec.written key))) := by
  induction rs generalizing f with
  | nil => rfl
  | cons r rs ih =>
    obtain ⟨h, hsound⟩ := forall_mem_cons.1 hsound
    have hwritten := h.length_written key
    obtain ⟨buf, hbuf, hlen, -⟩ := h.data
    rw [Rec.written, hbuf, Option.getD_some] at hwritten
    have hwrite : writeRec arch key f r = .ok (f.write (r.written key)) := by
      simp only [writeRec, hbuf, h.total, hlen, Nat.lt_irrefl, if_false, Arch.seekWrite, hwritten, if_pos h.takes,
        Rec.written, Option.getD_some]
    rw [syncRecs, if_neg (by simp [hbuf])]
    simp only [hwrite]
    exact ih _ hsound

section
variable (h : Laid arch recs rs) (key : Key) (junk : Junk) (hdr : FileHdr)
include h

omit key junk hdr in
theorem Laid.nrec_eq : (UInt32.ofNat rs.length).toNat = rs.length ∧
    wrap (jssSize (rs.length * 21)) = jssSize (rs.length * 21) := by
  have hlt := h.lt
  have hle := le_jssSize (rs.length * 21)
  exact ⟨UInt32.toNat_ofNat_of_lt' (show rs.length < 2 ^ 32 by omega), wrap_of_lt (by omega)⟩

theorem Laid.sync_eq (hnrec : hdr.nrec = .ofNat rs.length)
    (hcalc : calcOffset (48 + jssSize (rs.length * 21)) 0 recs = .ok rs) :
    sync arch key junk ⟨hdr, recs, true⟩ .empty = .ok (closed key junk (sealHdr hdr) rs) := by
  have hle := le_jssSize (rs.length * 21)
  have hhdr (f : Disk) : writeHdr arch key (sealHdr hdr) f = .ok (f.write (0, key.encrypt 48 (sealHdr hdr).bytes)) := by
    rw [writeHdr, Arch.seekWrite, length_encrypt key rfl (FileHdr.length_bytes _), if_pos (takes_hdr arch)]
  have hheaders (f : Disk) : writeHeaders arch key junk hdr.nrec rs f =
      .ok (f.write (48, key.encrypt (jssSize (rs.length * 21)) (headersBuf junk rs))) := by
    have hlen := length_encrypt key (jssSize_mod (rs.length * 21)) (length_headersBuf junk rs)
    rw [headersBuf] at hlen
    simp only [writeHeaders, hnrec, h.nrec_eq.1, h.nrec_eq.2, length_flatMap_bytes, if_neg (Nat.not_lt.2 hle),
      Arch.seekWrite, hlen, if_pos h.takes, headersBuf]
  simp only [sync, if_true, hhdr, hnrec, h.nrec_eq.1, h.nrec_eq.2, Nat.add_comm _ 48, wrap_of_lt h.lt, hcalc]
  rw [← hnrec, hheaders]
  exact syncRecs_eq _ h.sound

theorem Laid.pairwise_writes : (writes key junk hdr rs).Pairwise Apart := by
  have hafter : ∀ w ∈ rs.map (Rec.written key), 48 + jssSize (rs.length * 21) ≤ w.1 := by
    intro w hw
    obtain ⟨r, hr, rfl⟩ := mem_map.1 hw
    exact h.placed.first_le r hr
  refine .cons (fun w hw => .inl ?_) (.cons (fun w hw => .inl ?_) ?_)
  · rw [length_encrypt key rfl (FileHdr.length_bytes _)]
    rcases mem_cons.1 hw with rfl | hw
    · exact Nat.le_refl 48
    · have hle := hafter w hw
      omega
  · rw [length_encrypt key (jssSize_mod _) (length_headersBuf _ _)]
    exact hafter w hw
  · rw [pairwise_map]
    refine h.placed.pairwise.imp_of_mem fun {r s} hr _ hle => .inl ?_
    rw [(h.sound r hr).length_written key]
    exact hle

theorem Laid.read_closed {w : ℕ × List UInt8} (hw : w ∈ writes key junk hdr rs) :
    (closed key junk hdr rs).read w.1 w.2.length = some w.2 := Disk.read_writeAll (h.pairwise_writes key junk hdr) hw

theorem Laid.readHdr_closed (hcrc : hdr.crc32 = jdbHash { hdr with crc32 := 0 }.bytes) :
    readHdr arch key (closed key junk hdr rs) = .ok hdr := by
  have hread := h.read_closed key junk hdr mem_cons_self
  rw [length_encrypt key rfl (FileHdr.length_bytes _)] at hread
  simp only [readHdr, Arch.seekRead, if_pos (takes_hdr arch), hread, decrypt_encrypt key rfl (FileHdr.length_bytes _),
    FileHdr.ofBytes_bytes]
  exact if_pos hcrc

theorem Laid.readHeaders_closed : readHeaders arch key (.ofNat rs.length) (closed key junk hdr rs) =
    .ok (rs.map fun r => ⟨r.hdr, none⟩) := by
  have hle := le_jssSize (rs.length * 21)
  have hread := h.read_closed key junk hdr (mem_cons_of_mem _ mem_cons_self)
  rw [length_encrypt key (jssSize_mod _) (length_headersBuf _ _)] at hread
  obtain ⟨rest, hrest⟩ : rs.flatMap (fun r => r.hdr.bytes) <+: headersBuf junk rs :=
    prefix_fetch_store prefix_rfl (by rw [length_flatMap_bytes]; exact hle)
  have hrows := map_take_drop_flatMap (fun r : Rec => r.hdr.length_bytes) rs rest
  rw [hrest] at hrows
  have hrecs := congrArg (List.map fun bs => (⟨RecHdr.ofBytes bs, none⟩ : Rec)) hrows
  rw [map_map, map_map] at hrecs
  simp only [readHeaders, Arch.seekRead, h.nrec_eq.1, h.nrec_eq.2, if_pos h.takes, hread,
    decrypt_encrypt key (jssSize_mod _) (length_headersBuf _ _), if_neg (Nat.not_lt.2 hle)]
  refine congrArg Except.ok (hrecs.trans (map_congr_left fun r _ => ?_))
  rw [Function.comp_apply, RecHdr.ofBytes_bytes]

theorem Laid.readRec_closed (hr : r ∈ rs) : readRec arch key (closed key junk hdr rs) ⟨r.hdr, none⟩ = .ok r.loaded := by
  have hsound := h.sound r hr
  have hread := h.read_closed key junk hdr
    (mem_cons_of_mem _ (mem_cons_of_mem _ (mem_map_of_mem hr)))
  obtain ⟨buf, hbuf, hlen, hload⟩ := hsound.data
  rw [hsound.length_written key, Rec.written, hbuf] at hread
  simp only [readRec, Arch.seekRead, hsound.total, if_pos hsound.takes, hread, Option.getD_some,
    decrypt_encrypt key (jssSize_mod _) hlen, hload]
  unfold Rec.loaded
  split_ifs
  · rfl
  · rw [hbuf]

end
end File

section Get
variable {arch : Arch} {key : Key} {f : Disk} {items : List Item} {recs rs : List Rec}

/-- A record of an open store: it has its bytes, or they are read when they are asked for. -/
def Opened (arch : Arch) (key : Key) (f : Disk) (it : Item) (q : Rec) : Prop :=
  ∃ r : Rec, q.hdr = r.hdr ∧ r.hdr.id = it.id ∧ (q = r.loaded ∨ r.hdr.dontload = true ∧ q.data = none) ∧
    readRec arch key f ⟨r.hdr, none⟩ = .ok r.loaded ∧ extract r.loaded = .ok (it.found, r.loaded)

theorem readRecs_eq (hread : ∀ r ∈ rs, readRec arch key f ⟨r.hdr, none⟩ = .ok r.loaded)
    (h : Forall₂ (fun it r => r.hdr.id = it.id ∧ extract r.loaded = .ok (it.found, r.loaded)) items rs) :
    ∃ recs, readRecs arch key f (rs.map fun r => ⟨r.hdr, none⟩) = .ok recs ∧
      Forall₂ (Opened arch key f) items recs := by
  induction h with
  | nil => exact ⟨[], rfl, .nil⟩
  | @cons it r items rs hr _ ih =>
    rw [forall_mem_cons] at hread
    obtain ⟨recs, hrecs, hopened⟩ := ih hread.2
    by_cases hdont : r.hdr.dontload = true
    · refine ⟨⟨r.hdr, none⟩ :: recs, ?_, .cons ⟨r, rfl, hr.1, .inr ⟨hdont, rfl⟩, hread.1, hr.2⟩ hopened⟩
      simp only [map_cons, readRecs, if_pos hdont, hrecs]
      rfl
    · refine ⟨r.loaded :: recs, ?_, .cons ⟨r, rfl, hr.1, .inl rfl, hread.1, hr.2⟩ hopened⟩
      simp only [map_cons, readRecs, if_neg hdont, hread.1, hrecs]
      rfl

theorem getRec_eq {it : Item} (hopened : Forall₂ (Opened arch key f) items recs) (hids : (items.map Item.id).Nodup)
    (hit : it ∈ items) : ∃ recs', getRec arch key f it.id recs = .ok (it.found, recs') ∧
      Forall₂ (Opened arch key f) items recs' := by
  induction hopened with
  | nil => cases hit
  | @cons it' q items recs hq hrest ih =>
    rw [map_cons, nodup_cons] at hids
    obtain ⟨r, hhdr, hid, hdata, hread, hextract⟩ := id hq
    cases hit with
    | head =>
      have hfetch : (if q.hdr.dontload ∧ q.data = none then readRec arch key f q else .ok q) = .ok r.loaded := by
        obtain ⟨hdr, data⟩ := q
        obtain rfl : hdr = r.hdr := hhdr
        split_ifs with hnone
        · obtain ⟨-, rfl⟩ := hnone
          exact hread
        · rcases hdata with hdata | hdata
          · rw [hdata]
          · exact absurd hdata hnone
      refine ⟨r.loaded :: recs, ?_, .cons ⟨r, rfl, hid, .inl rfl, hread, hextract⟩ hrest⟩
      rw [getRec, if_pos (hhdr ▸ hid), hfetch]
      simp only [hextract]
      rfl
    | tail _ hit =>
      obtain ⟨recs', hget, hopened⟩ := ih hids.2 hit
      have hne : q.hdr.id ≠ it.id := fun heq => hids.1 (mem_map.2 ⟨it, hit, by rw [← heq, hhdr, hid]⟩)
      refine ⟨q :: recs', ?_, .cons hq hopened⟩
      rw [getRec, if_neg hne, hget]
      rfl

theorem getAll_eq {its : List Item} (hopened : Forall₂ (Opened arch key f) items recs)
    (hids : (items.map Item.id).Nodup) (hits : ∀ it ∈ its, it ∈ items) :
    getAll arch key f recs (its.map Item.id) = .ok (its.map Item.found) := by
  induction its generalizing recs with
  | nil => rfl
  | cons it its ih =>
    rw [forall_mem_cons] at hits
    obtain ⟨recs', hget, hopened⟩ := getRec_eq hopened hids hits.1
    rw [map_cons, getAll, hget]
    exact congrArg (Except.map (it.found :: ·)) (ih hopened hits.2)

end Get

section Main
variable {arch : Arch} {key : Key} {junk : Junk} {h : Handle} {items : List Item} {base next : ℕ} {rs : List Rec}

theorem addAll_eq (hnrec : h.hdr.nrec = .ofNat h.recs.length) (hids : (items.map Item.id).Nodup)
    (hnew : ∀ it ∈ items, ∀ r ∈ h.recs, r.hdr.id ≠ it.id)
    (hroom : ∀ it ∈ items, it.nameBytes.length ≤ it.size ∧ it.namelen.toNat + 1 + it.data.length ≤ it.size) :
    addAll junk h items = .ok ⟨{ h.hdr with nrec := .ofNat (h.recs.length + items.length) },
      h.recs ++ items.map (fresh junk), h.modified || !items.isEmpty⟩ := by
  induction items generalizing h with
  | nil =>
    rw [addAll, map_nil, length_nil, Nat.add_zero, ← hnrec]
    simp
  | cons it its ih =>
    rw [map_cons, nodup_cons] at hids
    rw [forall_mem_cons] at hnew hroom
    have hexists : ¬ ∃ r ∈ h.recs, r.hdr.id = it.id := by simpa using hnew.1
    have hcount : (if h.recs.isEmpty then 1 else h.hdr.nrec + 1) = UInt32.ofNat (h.recs.length + 1) := by
      split_ifs with hnil
      · rw [isEmpty_iff.1 hnil]
        rfl
      · rw [hnrec, UInt32.ofNat_add]
        rfl
    rw [addAll, jssAdd, if_neg hexists, if_neg (by omega), hcount]
    dsimp only
    rw [ih (by rw [length_append, length_singleton]) hids.2 ?_ hroom.2]
    · simp [Nat.add_assoc, Nat.add_comm 1, fresh]
    · intro it' hit' r hr
      rcases mem_append.1 hr with hr | hr
      · exact hnew.2 it' hit' r hr
      · rw [mem_singleton.1 hr]
        exact fun hid => hids.1 (mem_map.2 ⟨it', hit', hid.symm⟩)

/-- The platform can transfer every record at the place where `_jss_calc_offset` puts it. -/
def Reaches (arch : Arch) (base : ℕ) : ℕ → List Rec → Prop
  | _, [] => True
  | next, r :: rs =>
    arch.Takes (base + next) (jssSize r.weight) ∧ Reaches arch base (jssSize (base + next + r.weight)) rs

theorem sound_of_calcOffset (hkept : ∀ it ∈ items, it.Kept) (hfit : EndsBelow base next (items.map (fresh junk)))
    (hreaches : Reaches arch base next (items.map (fresh junk)))
    (hcalc : calcOffset base next (items.map (fresh junk)) = .ok rs) : (∀ r ∈ rs, Sound arch r) ∧
      Forall₂ (fun it r => r.hdr.id = it.id ∧ extract r.loaded = .ok (it.found, r.loaded)) items rs := by
  induction items generalizing next rs with
  | nil =>
    cases hcalc
    exact ⟨by simp, .nil⟩
  | cons it its ih =>
    obtain ⟨hend, hfit⟩ := hfit
    obtain ⟨htakes, hreaches⟩ := hreaches
    rw [forall_mem_cons] at hkept
    have hle := le_jssSize (base + next + (fresh junk it).weight)
    have hsize := jssSize_mono (Nat.le_add_left (fresh junk it).weight (base + next))
    have hlt : jssSize (fresh junk it).weight < 2 ^ 32 := Nat.lt_of_le_of_lt hsize hend
    have hplace : (UInt32.ofNat (base + next)).toNat = base + next := wrap_of_lt (by omega)
    obtain ⟨crc, hcrc⟩ := exists_checksum_fresh hlt
    rw [map_cons, calcOffset_cons hend hcrc] at hcalc
    cases hrest : calcOffset base (jssSize (base + next + (fresh junk it).weight)) (its.map (fresh junk)) with
    | error e =>
      rw [hrest] at hcalc
      cases hcalc
    | ok rs' =>
      rw [hrest] at hcalc
      cases hcalc
      obtain ⟨hsound, hfound⟩ := ih hkept.2 hfit hreaches hrest
      exact ⟨forall_mem_cons.2
        ⟨⟨(total_eq hlt).2, hplace.symm ▸ htakes, _, rfl, length_plain hlt _, load_of_kept hlt hkept.1 hcrc⟩,
        hsound⟩, .cons ⟨rfl, extract_of_kept hlt hkept.1⟩ hfound⟩

theorem EndsBelow.lt {recs : List Rec} (h : EndsBelow base next recs) : ∀ r ∈ recs, jssSize r.weight < 2 ^ 32 := by
  induction recs generalizing next with
  | nil => simp
  | cons r rs ih =>
    have hle := jssSize_mono (Nat.le_add_left r.weight (base + next))
    exact forall_mem_cons.2 ⟨Nat.lt_of_le_of_lt hle h.1, ih h.2⟩

end Main

section Samples
def plainKey : Key := ⟨fun _ => 0, ⟨id, id, fun _ h => h, fun _ _ => rfl⟩⟩

def zeros : Junk := ⟨0, fun _ => 0, fun _ _ => 0, fun _ => 0⟩

def sample (name : WStr) : Item := ⟨1, 0x0010, 0, some name, [7], by decide⟩

end Samples
end Prj.Jlib.Jss
