import Mathlib.Data.Int.ModEq
import Mathlib.Tactic.Linarith
import Mathlib.Tactic.Ring

/-! Big-endian integers of a fixed number of bytes, and runs of bytes in a memory. -/
namespace Prj.Base
open List

/-- The `w` low bytes of `z`, most significant first; negative numbers in two's complement. -/
def bigEndian : ℕ → ℤ → List UInt8
  | 0, _ => []
  | w + 1, z => UInt8.ofNat (z / 256 ^ w % 256).toNat :: bigEndian w z

def ofBigEndian : List UInt8 → ℕ
  | [] => 0
  | b :: bs => b.toNat * 256 ^ bs.length + ofBigEndian bs

def fetch (mem : ℕ → UInt8) (p n : ℕ) : List UInt8 := (List.range n).map fun i => mem (p + i)

@[simp] theorem length_bigEndian (w : ℕ) (z : ℤ) : (bigEndian w z).length = w := by
  induction w with
  | zero => rfl
  | succ w ih => simp [bigEndian, ih]

@[simp] theorem length_fetch (mem : ℕ → UInt8) (p n : ℕ) : (fetch mem p n).length = n := by
  simp [fetch]

theorem ofBigEndian_lt (bs : List UInt8) : ofBigEndian bs < 256 ^ bs.length := by
  induction bs with
  | nil => simp [ofBigEndian]
  | cons b bs ih =>
    have hb := b.toNat_lt
    rw [ofBigEndian, length_cons, pow_succ]
    nlinarith

theorem emod_mul_split {a : ℤ} (ha : 0 < a) (z : ℤ) : z % (a * 256) = a * (z / a % 256) + z % a := by
  have hz := Int.mul_ediv_add_emod z a
  have hq := Int.mul_ediv_add_emod (z / a) 256
  have h1 := Int.emod_nonneg z ha.ne'
  have h2 := Int.emod_lt_of_pos z ha
  have h3 : 0 ≤ z / a % 256 := Int.emod_nonneg _ (by decide)
  have h4 : z / a % 256 < 256 := Int.emod_lt_of_pos _ (by decide)
  have hdec : z = a * (z / a % 256) + z % a + a * 256 * (z / a / 256) := by
    calc z = a * (z / a) + z % a := hz.symm
      _ = a * (256 * (z / a / 256) + z / a % 256) + z % a := by rw [hq]
      _ = _ := by ring
  rw [hdec, Int.add_mul_emod_self_left, ← hdec]
  exact Int.emod_eq_of_lt (by positivity) (by nlinarith)

theorem ofBigEndian_bigEndian (w : ℕ) (z : ℤ) : (ofBigEndian (bigEndian w z) : ℤ) = z % 256 ^ w := by
  induction w with
  | zero => simp [ofBigEndian, bigEndian]
  | succ w ih =>
    have hbyte : ((UInt8.ofNat (z / 256 ^ w % 256).toNat).toNat : ℤ) = z / 256 ^ w % 256 := by
      rw [UInt8.toNat_ofNat']
      omega
    rw [bigEndian, ofBigEndian, length_bigEndian]
    push_cast
    rw [ih, hbyte, pow_succ, emod_mul_split (by positivity), mul_comm]

theorem eq_of_ofBigEndian_eq {as bs : List UInt8} (hl : as.length = bs.length)
    (h : ofBigEndian as = ofBigEndian bs) : as = bs := by
  induction as generalizing bs with
  | nil => exact (length_eq_zero_iff.1 hl.symm).symm
  | cons a as ih =>
    obtain ⟨b, bs, rfl⟩ : ∃ b bs', bs = b :: bs' :=
      exists_cons_of_length_pos (by rw [← hl]; simp)
    have hl' : as.length = bs.length := by simpa using hl
    have ha := ofBigEndian_lt as
    have hb := ofBigEndian_lt bs
    simp only [ofBigEndian] at h
    rw [hl'] at h ha
    have hab : a.toNat = b.toNat := by
      rcases lt_trichotomy a.toNat b.toNat with hlt | heq | hlt
      · nlinarith
      · exact heq
      · nlinarith
    rw [hab] at h
    rw [ih hl' (by omega), UInt8.toNat_inj.1 hab]

theorem fetch_add (mem : ℕ → UInt8) (p m n : ℕ) : fetch mem p (m + n) = fetch mem p m ++ fetch mem (p + m) n := by
  simp [fetch, range_add, Function.comp_def, Nat.add_assoc]

theorem fetch_getD (bs : List UInt8) : fetch (fun i => bs.getD i 0) 0 bs.length = bs := by
  apply ext_getElem (length_fetch _ _ _)
  intro i hi hi'
  simp [fetch, hi']

theorem fetch_one (mem : ℕ → UInt8) (p : ℕ) : fetch mem p 1 = [mem p] := rfl

theorem fetch_eq_iff_const {mem : ℕ → UInt8} {b : UInt8} {cur p n : ℕ} (hlt : cur < p)
    (hrun : ∀ i, cur ≤ i → i < p → mem i = b) : fetch mem cur n = fetch mem p n ↔ ∀ x ∈ fetch mem p n, x = b := by
  have hget : fetch mem cur n = fetch mem p n ↔ ∀ i < n, mem (cur + i) = mem (p + i) := by
    simp [fetch]
  have hmem : (∀ x ∈ fetch mem p n, x = b) ↔ ∀ i < n, mem (p + i) = b := by
    simp [fetch]
  rw [hget, hmem]
  constructor
  · intro h i
    -- each byte is read some distance before it, where the run is already known
    induction i using Nat.strongRecOn with
    | _ i ih =>
      intro hi
      rw [← h i hi]
      rcases lt_or_ge (cur + i) p with hin | hout
      · exact hrun _ (by omega) hin
      · have := ih (cur + i - p) (by omega) (by omega)
        rwa [Nat.add_sub_cancel' hout] at this
  · intro h i hi
    rw [h i hi]
    rcases lt_or_ge (cur + i) p with hin | hout
    · exact hrun _ (by omega) hin
    · have := h (cur + i - p) (by omega)
      rwa [Nat.add_sub_cancel' hout] at this

end Prj.Base
