import Prj.Base.Disk

/-! A memory of which only the bytes that are owned may be touched, and a loop over blocks in it. -/
namespace Prj.Base
open List

section Store
variable {mem : ℕ → UInt8} {p n m : ℕ} {bs cs : List UInt8}

theorem store_append (h : bs.length = n) : store (store mem p bs) (p + n) cs = store mem p (bs ++ cs) := by
  subst h
  funext i
  by_cases hlo : i < p
  · rw [store_of_lt (by omega), store_of_lt hlo, store_of_lt hlo]
  obtain ⟨j, rfl⟩ := Nat.exists_eq_add_of_le (Nat.le_of_not_lt hlo)
  by_cases hj : j < bs.length
  · rw [store_of_lt (by omega), store_add hj, store_add (by rw [length_append]; omega), getD_append _ _ _ _ hj]
  obtain ⟨k, rfl⟩ := Nat.exists_eq_add_of_le (Nat.le_of_not_lt hj)
  by_cases hk : k < cs.length
  · rw [← Nat.add_assoc, store_add hk, Nat.add_assoc, store_add (by rw [length_append]; omega),
      getD_append_right _ _ _ _ (Nat.le_add_right _ _), Nat.add_sub_cancel_left]
  · rw [store_of_le (by omega), store_of_le (by omega), store_of_le (by rw [length_append]; omega)]

theorem fetch_store_of_length (h : bs.length = n) : fetch (store mem p bs) p n = bs := by
  subst h
  exact fetch_store

theorem fetch_eq_take (h : m ≤ n) : fetch mem p m = (fetch mem p n).take m := by
  obtain ⟨k, rfl⟩ := Nat.exists_eq_add_of_le h
  rw [fetch_add, take_left' (length_fetch ..)]

theorem store_nil : store mem p [] = mem := by
  funext i
  rw [store, getD_nil, ite_self]

end Store

/-- Addresses are below `top`, and nothing is at the address 0. -/
structure Arena (top : ℕ) where
  bytes : ℕ → UInt8
  owned : ℕ → Bool
  owned_range : ∀ p, owned p = true → 0 < p ∧ p < top

namespace Arena
variable {top : ℕ}

def Covers (a : Arena top) (p n : ℕ) : Prop := ∀ i < n, a.owned (p + i) = true

instance (a : Arena top) (p n : ℕ) : Decidable (a.Covers p n) :=
  inferInstanceAs (Decidable (∀ i < n, a.owned (p + i) = true))

def read (a : Arena top) (p n : ℕ) : Option (List UInt8) :=
  if a.Covers p n then some (fetch a.bytes p n) else none

def put (a : Arena top) (p : ℕ) (bs : List UInt8) : Arena top := { a with bytes := store a.bytes p bs }

def write (a : Arena top) (p : ℕ) (bs : List UInt8) : Option (Arena top) :=
  if a.Covers p bs.length then some (a.put p bs) else none

variable {a : Arena top} {p n k : ℕ} {bs : List UInt8}

@[simp] theorem bytes_put : (a.put p bs).bytes = store a.bytes p bs := rfl

theorem Covers.lt (h : a.Covers p n) (hn : 0 < n) : n < top := by
  have hend := a.owned_range _ (h (n - 1) (by omega))
  have hstart := a.owned_range _ (h 0 hn)
  omega

theorem Covers.left (h : a.Covers p (n + k)) : a.Covers p n := fun i hi => h i (by omega)

theorem Covers.right (h : a.Covers p (n + k)) : a.Covers (p + n) k := by
  intro i hi
  rw [Nat.add_assoc]
  exact h (n + i) (by omega)

theorem read_of_covers (h : a.Covers p n) : a.read p n = some (fetch a.bytes p n) := if_pos h

theorem write_of_covers (h : a.Covers p bs.length) : a.write p bs = some (a.put p bs) := if_pos h

end Arena

structure BlockPair (w : ℕ) extends BlockCipher w where
  length_dec : ∀ b, b.length = w → (dec b).length = w

def BlockPair.reversal (w : ℕ) : BlockPair w := ⟨⟨List.reverse, List.reverse, by simp, by simp⟩, by simp⟩

section Loop
variable {top : ℕ} (w : ℕ) (f : List UInt8 → List UInt8) (src dst total : ℕ)

/-- `for (; i < total; i += w)`, with the block at `src + i` changed by `f` and put to `dst + i`. The counter
wraps around at `top`; the result has its last value. -/
def blockLoop : ℕ → ℕ → Arena top → Option (ℕ × Arena top)
  | 0, _, _ => none
  | fuel + 1, i, a =>
    if i < total then do
      let b ← a.read (src + i) w
      let a ← a.write (dst + i) (f b)
      blockLoop fuel ((i + w) % top) a
    else some (i, a)

def SameOrApart (src dst n : ℕ) : Prop := src = dst ∨ src + n ≤ dst ∨ dst + n ≤ src

variable {w f src dst total} {fuel i m : ℕ} {a : Arena top}

theorem fetch_store_later {mem : ℕ → UInt8} {b : List UInt8} (hb : b.length = w)
    (hplaces : SameOrApart (src + i) (dst + i) (w + m)) :
    fetch (store mem (dst + i) b) (src + i + w) m = fetch mem (src + i + w) m := by
  apply fetch_congr
  intro j hlo hhi
  rcases hplaces with heq | hbefore | hbehind
  · exact store_of_le (by omega)
  · exact store_of_lt (by omega)
  · exact store_of_le (by omega)

theorem blockLoop_eq (hf : ∀ b, b.length = w → (f b).length = w) (hfuel : m < fuel)
    (htop : i + m * w < top) (hend : total ≤ i + m * w) (hlast : m ≠ 0 → i + (m - 1) * w < total)
    (hsrc : a.Covers (src + i) (m * w)) (hdst : a.Covers (dst + i) (m * w))
    (hplaces : SameOrApart (src + i) (dst + i) (m * w)) : blockLoop w f src dst total fuel i a =
      some (i + m * w, a.put (dst + i) (mapBlocks w f m (fetch a.bytes (src + i) (m * w)))) := by
  induction m generalizing i a fuel with
  | zero =>
    obtain ⟨fuel, rfl⟩ := Nat.exists_eq_succ_of_ne_zero (Nat.ne_zero_of_lt hfuel)
    rw [blockLoop, if_neg (by omega)]
    simp only [Nat.zero_mul, Nat.add_zero, mapBlocks, Arena.put, store_nil]
  | succ m ih =>
    obtain ⟨fuel, rfl⟩ := Nat.exists_eq_succ_of_ne_zero (Nat.ne_zero_of_lt hfuel)
    rw [Nat.succ_mul, Nat.add_comm (m * w) w] at htop hend hsrc hdst hplaces ⊢
    have hlt : i < total := by
      have hle : i ≤ i + (m + 1 - 1) * w := Nat.le_add_right _ _
      exact Nat.lt_of_le_of_lt hle (hlast (Nat.succ_ne_zero m))
    have hblock : (f (fetch a.bytes (src + i) w)).length = w := hf _ (length_fetch ..)
    have hwrite : a.write (dst + i) (f (fetch a.bytes (src + i) w)) =
        some (a.put (dst + i) (f (fetch a.bytes (src + i) w))) :=
      Arena.write_of_covers (by rw [hblock]; exact hdst.left)
    rw [blockLoop, if_pos hlt, Arena.read_of_covers hsrc.left]
    simp only [Option.bind_eq_bind, Option.bind_some, hwrite]
    rw [Nat.mod_eq_of_lt (by omega), ih (by omega) (by omega) (by omega) ?hlast' ?hsrc' ?hdst' ?hplaces']
    case hlast' =>
      intro hm
      have hgoal := hlast (Nat.succ_ne_zero m)
      obtain ⟨k, rfl⟩ := Nat.exists_eq_succ_of_ne_zero hm
      rw [Nat.add_sub_cancel, Nat.succ_mul] at hgoal
      rw [Nat.succ_sub_one]
      omega
    case hsrc' => exact Nat.add_assoc .. ▸ hsrc.right
    case hdst' => exact Nat.add_assoc .. ▸ hdst.right
    case hplaces' =>
      rcases hplaces with heq | hbefore | hbehind
      · exact .inl (by omega)
      · exact .inr (.inl (by omega))
      · exact .inr (.inr (by omega))
    have hfetch := fetch_add a.bytes (src + i) w (m * w)
    have hlen : (fetch a.bytes (src + i) w).length = w := length_fetch ..
    simp only [Arena.put]
    rw [← Nat.add_assoc src, ← Nat.add_assoc dst, fetch_store_later hblock hplaces, Nat.add_assoc i,
      store_append hblock, hfetch, mapBlocks, take_left' hlen, drop_left' hlen]

end Loop
end Prj.Base
