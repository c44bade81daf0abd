import Prj.Base.Records

/-!
Images of structs in a memory, low bytes first, writes to separate places, and the bytes under a stream cipher.
-/
namespace Prj.Base
open List

section Struct
variable {widths vals : List ℕ}

def littleEndian (w : ℕ) (z : ℤ) : List UInt8 := (bigEndian w z).reverse

def ofLittleEndian (bs : List UInt8) : ℕ := ofBigEndian bs.reverse

def packStruct (widths vals : List ℕ) : List UInt8 :=
  (widths.zip vals).flatMap fun f => littleEndian f.1 f.2

def unpackStruct : List ℕ → List UInt8 → List ℕ
  | [], _ => []
  | w :: ws, bs => ofLittleEndian (bs.take w) :: unpackStruct ws (bs.drop w)

@[simp] theorem length_littleEndian (w : ℕ) (z : ℤ) : (littleEndian w z).length = w := by
  rw [littleEndian, length_reverse, length_bigEndian]

theorem ofLittleEndian_littleEndian {w v : ℕ} (h : v < 256 ^ w) : ofLittleEndian (littleEndian w v) = v := by
  rw [ofLittleEndian, littleEndian, reverse_reverse, ofBigEndian_bigEndian_of_lt h]

theorem length_packStruct (h : Fit widths vals) : (packStruct widths vals).length = widths.sum := by
  induction h with
  | nil => rfl
  | cons hv _ ih => simpa [packStruct] using ih

theorem unpackStruct_packStruct (h : Fit widths vals) : unpackStruct widths (packStruct widths vals) = vals := by
  induction h with
  | nil => rfl
  | @cons w v ws vs hv _ ih =>
    have hcons : packStruct (w :: ws) (v :: vs) = littleEndian w v ++ packStruct ws vs := rfl
    have hlen : (littleEndian w v).length = w := length_littleEndian w v
    rw [hcons, unpackStruct, take_left' hlen, drop_left' hlen, ih, ofLittleEndian_littleEndian hv]

end Struct

section Writes
variable {mem : ℕ → UInt8} {v w : ℕ × List UInt8} {ws : List (ℕ × List UInt8)}

def storeAll (mem : ℕ → UInt8) (ws : List (ℕ × List UInt8)) : ℕ → UInt8 :=
  ws.foldl (fun mem w => store mem w.1 w.2) mem

theorem storeAll_concat : storeAll mem (ws ++ [w]) = store (storeAll mem ws) w.1 w.2 := by
  rw [storeAll, foldl_append]
  rfl

def Apart (v w : ℕ × List UInt8) : Prop := v.1 + v.2.length ≤ w.1 ∨ w.1 + w.2.length ≤ v.1

theorem fetch_store_of_apart (h : Apart v w) : fetch (store mem w.1 w.2) v.1 v.2.length = fetch mem v.1 v.2.length := by
  apply fetch_congr
  intro i hlo hhi
  rcases h with h | h
  · exact store_of_lt (by omega)
  · exact store_of_le (by omega)

theorem fetch_storeAll_of_apart (h : ∀ w ∈ ws, Apart v w) :
    fetch (storeAll mem ws) v.1 v.2.length = fetch mem v.1 v.2.length := by
  induction ws generalizing mem with
  | nil => rfl
  | cons w ws ih =>
    rw [storeAll, foldl_cons, ← storeAll, ih fun w hw => h w (mem_cons_of_mem _ hw),
      fetch_store_of_apart (h w mem_cons_self)]

theorem fetch_storeAll (hapart : ws.Pairwise Apart) (hw : w ∈ ws) : fetch (storeAll mem ws) w.1 w.2.length = w.2 := by
  induction hapart generalizing mem with
  | nil => cases hw
  | @cons v ws hv _ ih =>
    rw [storeAll, foldl_cons, ← storeAll]
    cases hw with
    | head => rw [fetch_storeAll_of_apart hv, fetch_store]
    | tail _ hw => exact ih hw

end Writes

section Mask
variable {ks : ℕ → UInt8} {p n : ℕ} {as bs : List UInt8}

/-- A stream cipher with the key stream `ks`, from its place `p` on. -/
def mask (ks : ℕ → UInt8) : ℕ → List UInt8 → List UInt8
  | _, [] => []
  | p, b :: bs => (b ^^^ ks p) :: mask ks (p + 1) bs

@[simp] theorem length_mask : (mask ks p bs).length = bs.length := by
  induction bs generalizing p with
  | nil => rfl
  | cons b bs ih => rw [mask, length_cons, ih, length_cons]

theorem mask_mask : mask ks p (mask ks p bs) = bs := by
  induction bs generalizing p with
  | nil => rfl
  | cons b bs ih => rw [mask, mask, ih, UInt8.xor_assoc, UInt8.xor_self, UInt8.xor_zero]

theorem mask_append : mask ks p (as ++ bs) = mask ks p as ++ mask ks (p + as.length) bs := by
  induction as generalizing p with
  | nil => rfl
  | cons a as ih => rw [cons_append, mask, ih, mask, cons_append, length_cons, Nat.add_right_comm, Nat.add_assoc]

theorem mask_replicate_zero : mask ks p (List.replicate n 0) = fetch ks p n := by
  induction n generalizing p with
  | zero => rfl
  | succ n ih =>
    rw [replicate_succ, mask, ih, UInt8.zero_xor, Nat.add_comm n 1, fetch_add, fetch_one, singleton_append]

end Mask
end Prj.Base
