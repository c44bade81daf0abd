import Prj.Jlib.Jss

/-! Where `_jss_calc_offset` puts the records of a store. -/
namespace Prj.Jlib.Jss
open Prj.Base List

variable {base next m n : ℕ} {recs : List Rec}

theorem le_jssSize (n : ℕ) : n ≤ jssSize n := by
  unfold jssSize
  split_ifs <;> omega

theorem jssSize_mod (n : ℕ) : jssSize n % 16 = 0 := by
  unfold jssSize
  split_ifs <;> omega

theorem wrap_of_lt (h : n < 2 ^ 32) : wrap n = n := Nat.mod_eq_of_lt h

theorem jssSize_mono (h : m ≤ n) : jssSize m ≤ jssSize n := by
  unfold jssSize
  split_ifs <;> omega

theorem jssSize_add (h : m % 16 = 0) : jssSize (m + n) = m + jssSize n := by
  unfold jssSize
  split_ifs <;> omega

/-- The bytes of a record before they are padded. -/
def Rec.weight (r : Rec) : ℕ := r.hdr.datalen.toNat + r.hdr.namelen.toNat + 1

/-- A record with what `_jss_calc_offset` sets. -/
def Rec.sealed (r : Rec) (offset crc32 : UInt32) : Rec := { r with hdr := { r.hdr with offset, crc32 } }

/-- The padded end of every record is a number of 32 bits. -/
def EndsBelow (base : ℕ) : ℕ → List Rec → Prop
  | _, [] => True
  | next, r :: rs =>
    jssSize (base + next + r.weight) < 2 ^ 32 ∧ EndsBelow base (jssSize (base + next + r.weight)) rs

/-- The records keep their lengths, and are put from `first` on and apart from each other. -/
structure Placed (first : ℕ) (recs recs' : List Rec) : Prop where
  weights : recs'.map Rec.weight = recs.map Rec.weight
  first_le : ∀ r ∈ recs', first ≤ r.hdr.offset.toNat
  pairwise : recs'.Pairwise fun r s => r.hdr.offset.toNat + jssSize r.weight ≤ s.hdr.offset.toNat

theorem calcOffset_cons {r : Rec} {crc : UInt32} (hend : jssSize (base + next + r.weight) < 2 ^ 32)
    (hcrc : r.checksum = .ok crc) : calcOffset base next (r :: recs) =
      (calcOffset base (jssSize (base + next + r.weight)) recs).map (r.sealed (.ofNat (base + next)) crc :: ·) := by
  have hle := le_jssSize (base + next + r.weight)
  have hoffset : wrap (base + next) = base + next := wrap_of_lt (by omega)
  have hnat : wrap (jssSize (wrap (base + next + r.hdr.datalen.toNat + r.hdr.namelen.toNat + 1))) =
      jssSize (base + next + r.weight) := by
    rw [Nat.add_assoc _ _ 1, Nat.add_assoc, ← Nat.add_assoc _ _ 1, ← Rec.weight,
      wrap_of_lt (Nat.lt_of_le_of_lt hle hend), wrap_of_lt hend]
  simp only [calcOffset, hcrc, hoffset, hnat]
  rfl

theorem calcOffset_apart (hbase : base % 16 = 0) (hnext : next % 16 = 0) (hfit : EndsBelow base next recs)
    (hdata : ∀ r ∈ recs, ∃ crc, r.checksum = .ok crc) :
    ∃ recs', calcOffset base next recs = .ok recs' ∧ Placed (base + next) recs recs' := by
  induction recs generalizing next with
  | nil => exact ⟨[], rfl, rfl, by simp, .nil⟩
  | cons r rs ih =>
    obtain ⟨hend, hrest⟩ := hfit
    obtain ⟨⟨crc, hcrc⟩, hdata⟩ := forall_mem_cons.1 hdata
    obtain ⟨rs', hrun, hweights, hfirst, hpairwise⟩ := ih (jssSize_mod _) hrest hdata
    have hadd : jssSize (base + next + r.weight) = base + next + jssSize r.weight := jssSize_add (by omega)
    have hplace : (UInt32.ofNat (base + next)).toNat = base + next := wrap_of_lt (by omega)
    refine ⟨r.sealed (.ofNat (base + next)) crc :: rs', ?_, ?_, ?_, ?_⟩
    · rw [calcOffset_cons hend hcrc, hrun]
      rfl
    · rw [map_cons, map_cons, hweights]
      rfl
    · rw [forall_mem_cons]
      refine ⟨hplace.ge, fun s hs => ?_⟩
      have := hfirst s hs
      omega
    · refine .cons (fun s hs => ?_) hpairwise
      have := hfirst s hs
      change (UInt32.ofNat (base + next)).toNat + jssSize r.weight ≤ _
      omega

def sized (datalen : UInt32) (namelen : UInt16) (data : List UInt8) : Rec :=
  ⟨⟨0, 0, 0, datalen, 0, 0, namelen⟩, some data⟩

theorem exists_checksum_sized {datalen : UInt32} {namelen : UInt16} {data : List UInt8}
    (h : (sized datalen namelen data).hdr.len ≤ data.length) :
    ∃ crc, (sized datalen namelen data).checksum = .ok crc := by
  unfold Rec.checksum
  split_ifs
  · exact ⟨_, rfl⟩
  · exact ⟨_, if_neg (Nat.not_lt.2 h)⟩

end Prj.Jlib.Jss
