import Mathlib.Data.Nat.Prime.Basic
import Mathlib.Data.Nat.ModEq

/-! Mixing steps of rolling hashes are injective, so that a changed element changes the hash. -/
namespace Prj.Base
open Function List

section Words
variable {w k : ℕ}

theorem add_shiftLeft_injective (hk : 0 < k) : Injective fun x : BitVec w => x + x <<< k := by
  intro x y h
  have hmul : ∀ x : BitVec w, (x + x <<< k).toNat = x.toNat * (2 ^ k + 1) % 2 ^ w := by
    intro x
    rw [BitVec.toNat_add, BitVec.toNat_shiftLeft, Nat.shiftLeft_eq, Nat.add_mod_mod]
    rw [Nat.mul_add, Nat.mul_one, Nat.add_comm]
  have hodd : Odd (2 ^ k + 1) := (Nat.even_pow.2 ⟨even_two, hk.ne'⟩).add_one
  have hcop : Nat.gcd (2 ^ w) (2 ^ k + 1) = 1 :=
    Nat.Coprime.pow_left w (Nat.coprime_two_left.2 hodd)
  have hmod : x.toNat * (2 ^ k + 1) ≡ y.toNat * (2 ^ k + 1) [MOD 2 ^ w] := by
    rw [Nat.ModEq, ← hmul, ← hmul]
    exact congrArg BitVec.toNat h
  have hxy := Nat.ModEq.cancel_right_of_coprime hcop hmod
  exact BitVec.eq_of_toNat_eq (hxy.eq_of_lt_of_lt x.isLt y.isLt)

theorem xor_shiftRight_injective (hk : 0 < k) : Injective fun x : BitVec w => x ^^^ x >>> k := by
  intro x y h
  have hself : (x ^^^ y) >>> k = x ^^^ y := by
    have hcancel : (x ^^^ y) ^^^ ((x ^^^ y) >>> k) = 0#w := by
      have hsame : x ^^^ x >>> k = y ^^^ y >>> k := h
      rw [BitVec.ushiftRight_xor_distrib]
      calc x ^^^ y ^^^ (x >>> k ^^^ y >>> k) = (x ^^^ x >>> k) ^^^ (y ^^^ y >>> k) := by ac_rfl
        _ = 0#w := by rw [hsame, BitVec.xor_self]
    exact (BitVec.xor_eq_zero_iff.1 hcancel).symm
  have hzero : (x ^^^ y).toNat = 0 := by
    have hdiv := congrArg BitVec.toNat hself
    rw [BitVec.toNat_ushiftRight] at hdiv
    by_contra hne
    have hlt := Nat.div_lt_self (Nat.pos_of_ne_zero hne) (Nat.one_lt_two_pow hk.ne')
    omega
  exact BitVec.xor_eq_zero_iff.1 (BitVec.eq_of_toNat_eq hzero)

theorem uint32_add_shiftLeft_injective {k : UInt32} (hk : 0 < (k.toBitVec % 32).toNat) :
    Injective fun x : UInt32 => x + (x <<< k) := by
  intro x y h
  apply UInt32.toBitVec_inj.1
  apply add_shiftLeft_injective hk
  have hbits := congrArg UInt32.toBitVec h
  rwa [UInt32.toBitVec_add, UInt32.toBitVec_add, UInt32.toBitVec_shiftLeft, UInt32.toBitVec_shiftLeft] at hbits

theorem uint32_xor_shiftRight_injective {k : UInt32} (hk : 0 < (k.toBitVec % 32).toNat) :
    Injective fun x : UInt32 => x ^^^ (x >>> k) := by
  intro x y h
  apply UInt32.toBitVec_inj.1
  apply xor_shiftRight_injective hk
  have hbits := congrArg UInt32.toBitVec h
  rwa [UInt32.toBitVec_xor, UInt32.toBitVec_xor, UInt32.toBitVec_shiftRight, UInt32.toBitVec_shiftRight] at hbits

end Words

section Fold
variable {α β : Type} {step : β → α → β} {as : List α} {a : α} {i : ℕ} {b : β}

theorem foldl_injective (hstep : ∀ a, Injective fun b => step b a) : Injective fun b => as.foldl step b := by
  induction as with
  | nil => exact injective_id
  | cons a as ih =>
    intro b b' h
    exact hstep a (ih h)

theorem foldl_set_ne (hstep : ∀ a, Injective fun b => step b a) (hstep' : ∀ b, Injective (step b))
    (hi : i < as.length) (ha : as[i] ≠ a) : (as.set i a).foldl step b ≠ as.foldl step b := by
  intro h
  have hsplit : as.foldl step b = (as.drop (i + 1)).foldl step (step ((as.take i).foldl step b) as[i]) := by
    rw [← foldl_cons, ← drop_eq_getElem_cons hi, ← foldl_append, take_append_drop]
  rw [hsplit, set_eq_take_append_cons_drop, if_pos hi, foldl_append] at h
  exact ha (hstep' _ (foldl_injective hstep h)).symm

end Fold
end Prj.Base
