import Prj.Jlib.JssOffsets

/-! One record of a store: its bytes, and what becomes of its name and its data when they are read again. -/
namespace Prj.Jlib.Jss
open Prj.Base List Option

/-- An item that is kept: a name has 1 to 65535 characters of ASCII, and is not alone. -/
def Item.Kept (it : Item) : Prop :=
  ∀ s ∈ it.name, s.chars ≠ [] ∧ s.chars.length ≤ 65535 ∧ (∀ c ∈ s.chars, 1 ≤ c ∧ c < 128) ∧ it.data ≠ []

def fresh (junk : Junk) (it : Item) : Rec := ⟨it.hdr, some (it.plain (junk.buf it.id))⟩

/-- A record that was read. Without data the pointer is not set. -/
def Rec.loaded (r : Rec) : Rec := ⟨r.hdr, if r.hdr.datalen = 0 then none else r.data⟩

variable {it : Item} {s : WStr} {junk : Junk} {r : Rec} {offset crc : UInt32}

theorem total_eq (h : jssSize r.weight < 2 ^ 32) : r.hdr.len = r.weight ∧ r.hdr.total = jssSize r.weight := by
  have hle := le_jssSize r.weight
  have hlen : r.hdr.len = r.weight := by
    rw [RecHdr.len, Nat.add_comm, ← Nat.add_assoc]
    exact wrap_of_lt (Nat.lt_of_le_of_lt hle h)
  exact ⟨hlen, by rw [RecHdr.total, hlen, wrap_of_lt h]⟩

theorem toNat_datalen (it : Item) : it.hdr.datalen.toNat = it.data.length := UInt32.toNat_ofNat_of_lt' it.datalen_lt

theorem datalen_eq_zero_iff : it.hdr.datalen = 0 ↔ it.data = [] := by
  rw [← UInt32.toNat_inj, toNat_datalen]
  exact length_eq_zero_iff

theorem weight_fresh : (fresh junk it).weight = it.data.length + it.namelen.toNat + 1 := by
  rw [Rec.weight, fresh, toNat_datalen]
  rfl

section Plain
variable (h : jssSize (fresh junk it).weight < 2 ^ 32)
include h

theorem size_eq : it.size = jssSize (fresh junk it).weight := by
  have hle := le_jssSize (fresh junk it).weight
  rw [Item.size, ← @weight_fresh _ junk, wrap_of_lt (Nat.lt_of_le_of_lt hle h), wrap_of_lt h]

theorem length_plain (buf : ℕ → UInt8) : (it.plain buf).length = jssSize (fresh junk it).weight := by
  rw [Item.plain, length_fetch, size_eq h]

theorem plain_eq (buf : ℕ → UInt8) : ∃ rest, it.plain buf =
    fetch (store buf 0 it.nameBytes) 0 (it.namelen.toNat + 1) ++ (it.data ++ rest) := by
  obtain ⟨k, hk⟩ := Nat.exists_eq_add_of_le (le_jssSize (fresh junk it).weight)
  have hsize : it.size = it.namelen.toNat + 1 + (it.data.length + k) := by
    rw [size_eq h, hk, weight_fresh]
    omega
  have hfront : fetch (store (store buf 0 it.nameBytes) (it.namelen.toNat + 1) it.data) 0 (it.namelen.toNat + 1) =
      fetch (store buf 0 it.nameBytes) 0 (it.namelen.toNat + 1) := by
    apply fetch_congr
    intro i _ hi
    exact store_of_lt (by omega)
  rw [Item.plain, hsize, fetch_add _ 0 (it.namelen.toNat + 1), hfront, Nat.zero_add,
    fetch_add _ (it.namelen.toNat + 1) it.data.length, fetch_store]
  exact ⟨_, rfl⟩

theorem data_plain (buf : ℕ → UInt8) : ((it.plain buf).drop (it.namelen.toNat + 1)).take it.data.length = it.data := by
  obtain ⟨rest, hrest⟩ := plain_eq h buf
  rw [hrest, drop_left' (length_fetch _ _ _), take_left' rfl]

theorem exists_checksum_fresh : ∃ crc, (fresh junk it).checksum = .ok crc := by
  have hle := le_jssSize (fresh junk it).weight
  have hlen : ¬ (it.plain (junk.buf it.id)).length < (fresh junk it).hdr.len := by
    rw [length_plain h, (total_eq h).1]
    exact Nat.not_lt.2 hle
  unfold Rec.checksum
  split_ifs
  · exact ⟨_, rfl⟩
  · exact ⟨_, if_neg hlen⟩

end Plain

theorem namelen_of_none (hname : it.name = none) : it.namelen = 0 := by
  simp only [Item.namelen, hname]

section Name
variable (hname : it.name = some s) (hascii : ∀ c ∈ s.chars, 1 ≤ c ∧ c < 128) (hlen : s.chars.length ≤ 65535)
include hname hascii hlen

/-- A name of more than 2048 characters has the length of `(uint16_t)-1`. -/
theorem length_le_namelen : s.chars.length ≤ it.namelen.toNat := by
  simp only [Item.namelen, hname]
  cases hn : wtojcsLen s 2048 with
  | none => exact hlen
  | some n =>
    have heq := eq_of_wtojcsLenLoop (fun c hc => (hascii c hc).2) hn
    rw [Nat.zero_add] at heq
    rw [heq]
    exact (UInt16.toNat_ofNat_of_lt' (Nat.lt_succ_of_le hlen)).ge

theorem nameBytes_of_ascii : it.nameBytes = encoded s.chars ++ [0] := by
  have hall : ∀ c ∈ s.chars, charBytes c ≠ none := fun c hc => by
    rw [charBytes_of_lt (hascii c hc).2]
    exact some_ne_none _
  have hroom : codeSize s ≤ it.namelen.toNat := by
    rw [← length_encoded hall, length_encoded_of_ascii fun c hc => (hascii c hc).2]
    exact length_le_namelen hname hascii hlen
  simp only [Item.nameBytes, hname]
  rw [wtojcs_eq hall (.inr hroom)]

/-- Decoding a name of ASCII characters leaves the bytes of the record as they are. -/
theorem jcstow_plain {maxLen : ℕ} (buf : ℕ → UInt8) (h : jssSize (fresh junk it).weight < 2 ^ 32)
    (hmax : s.chars.length ≤ maxLen) :
    jcstow (it.plain buf) maxLen = some ⟨some s.chars.length, s.chars ++ [0], it.plain buf⟩ := by
  have hle := length_le_namelen hname hascii hlen
  have hlow : ∀ c ∈ s.chars, c < 128 := fun c hc => (hascii c hc).2
  have hpre : encoded s.chars ++ [0] <+: it.plain buf := by
    obtain ⟨rest, hrest⟩ := plain_eq h buf
    rw [hrest, nameBytes_of_ascii hname hascii hlen]
    refine (prefix_fetch_store prefix_rfl ?_).trans (prefix_append _ _)
    rw [length_append, length_singleton, length_encoded_of_ascii hlow]
    omega
  obtain ⟨rest, hrest⟩ := hpre
  have hcodes : ∀ c ∈ s.chars, Encodable c := fun c hc => .inl ⟨(hascii c hc).1, by have := hlow c hc; omega⟩
  rw [← hrest, append_assoc, singleton_append, jcstow_encoded hcodes (.inr hmax), encoded_of_ascii hlow]

end Name

section Kept
variable (h : jssSize (fresh junk it).weight < 2 ^ 32) (hkept : it.Kept)
include h hkept

theorem room_of_kept : it.nameBytes.length ≤ it.size ∧ it.namelen.toNat + 1 + it.data.length ≤ it.size := by
  have hle := le_jssSize (fresh junk it).weight
  rw [size_eq h]
  rw [weight_fresh] at hle ⊢
  refine ⟨?_, by omega⟩
  cases hname : it.name with
  | none => simp [Item.nameBytes, hname]
  | some s =>
    obtain ⟨-, hlen, hascii, -⟩ := hkept s hname
    have hroom := length_le_namelen hname hascii hlen
    rw [nameBytes_of_ascii hname hascii hlen, length_append, length_singleton,
      length_encoded_of_ascii fun c hc => (hascii c hc).2]
    omega

theorem load_of_kept (hcrc : (fresh junk it).checksum = .ok crc) :
    load ((fresh junk it).sealed offset crc).hdr (it.plain (junk.buf it.id)) = .ok (fresh junk it).loaded.data := by
  have hdecode : decodeName ((fresh junk it).sealed offset crc).hdr (it.plain (junk.buf it.id)) =
      some (it.plain (junk.buf it.id)) := by
    unfold decodeName
    split_ifs with hzero
    · rfl
    cases hname : it.name with
    | none => exact absurd (namelen_of_none hname) hzero
    | some s =>
      obtain ⟨-, hlen, hascii, -⟩ := hkept s hname
      have hroom := length_le_namelen hname hascii hlen
      have htotal : s.chars.length ≤ ((fresh junk it).sealed offset crc).hdr.total := by
        have hle := le_jssSize (fresh junk it).weight
        change _ ≤ (fresh junk it).hdr.total
        rw [(total_eq h).2]
        rw [weight_fresh] at hle ⊢
        omega
      rw [jcstow_plain hname hascii hlen _ h htotal]
      refine if_neg ?_
      rw [length_append, length_singleton]
      exact Nat.not_lt.2 (Nat.succ_le_succ hroom)
  have hle : (fresh junk it).hdr.len ≤ (it.plain (junk.buf it.id)).length := by
    rw [length_plain h, (total_eq h).1]
    exact le_jssSize _
  unfold Rec.checksum at hcrc
  simp only [load, hdecode, Rec.loaded]
  by_cases hdata : (fresh junk it).hdr.datalen = 0
  · rw [if_pos hdata]
    exact if_pos hdata
  · rw [if_neg hdata] at hcrc ⊢
    refine (if_neg hdata).trans (if_pos ?_)
    exact (Except.ok.inj ((if_neg (Nat.not_lt.2 hle)).symm.trans hcrc)).symm

theorem extract_of_kept : extract ((fresh junk it).sealed offset crc).loaded =
    .ok (it.found, ((fresh junk it).sealed offset crc).loaded) := by
  have hdrop := data_plain h (junk.buf it.id)
  rw [← toNat_datalen] at hdrop
  have hdatalen : ((fresh junk it).sealed offset crc).hdr.datalen = it.hdr.datalen := rfl
  unfold Rec.loaded
  rw [hdatalen]
  cases hname : it.name with
  | none =>
    have hzero : it.namelen = 0 := namelen_of_none hname
    have hnamelen : ((fresh junk it).sealed offset crc).hdr.namelen = 0 := hzero
    by_cases hdata : it.hdr.datalen = 0
    · rw [if_pos hdata, extract, if_pos hnamelen, Item.found, hname, datalen_eq_zero_iff.1 hdata]
      exact if_pos hdata
    · rw [hzero] at hdrop
      rw [if_neg hdata, extract, if_pos hnamelen, Item.found, hname]
      exact congrArg (fun data => Except.ok (Found.mk it.type none data, _)) hdrop
  | some s =>
    obtain ⟨hchars, hlen, hascii, hdata⟩ := hkept s hname
    have hroom := length_le_namelen hname hascii hlen
    have hne : it.namelen ≠ 0 := fun hzero => by
      rw [hzero] at hroom
      exact hchars (length_eq_zero_iff.1 (Nat.le_zero.1 hroom))
    have hjcs := jcstow_plain hname hascii hlen (junk.buf it.id) h hroom
    rw [if_neg (mt datalen_eq_zero_iff.1 hdata), extract,
      if_neg (show ((fresh junk it).sealed offset crc).hdr.namelen ≠ 0 from hne)]
    simp only [Rec.sealed, fresh, show it.hdr.namelen = it.namelen from rfl, hjcs, hdrop, Item.found, hname]
    rfl

end Kept
end Prj.Jlib.Jss
