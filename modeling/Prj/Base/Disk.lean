import Prj.Base.Image

/-! A file that is written and read at given places, and ciphers that work on blocks. -/
namespace Prj.Base
open List

theorem prefix_fetch_store {mem : ℕ → UInt8} {pre bs : List UInt8} {n : ℕ} (hpre : pre <+: bs)
    (hn : pre.length ≤ n) : pre <+: fetch (store mem 0 bs) 0 n := by
  obtain ⟨post, rfl⟩ := hpre
  obtain ⟨k, rfl⟩ := Nat.exists_eq_add_of_le hn
  have hall : fetch (store mem 0 (pre ++ post)) 0 (pre.length + post.length) = pre ++ post := by
    rw [← length_append]
    exact fetch_store
  rw [fetch_add] at hall
  rw [fetch_add, (append_inj hall (length_fetch _ _ _)).1]
  exact prefix_append _ _

structure Disk where
  bytes : ℕ → UInt8
  size : ℕ

namespace Disk
variable {d : Disk} {w : ℕ × List UInt8} {ws : List (ℕ × List UInt8)}

def empty : Disk := ⟨fun _ => 0, 0⟩

def write (d : Disk) (w : ℕ × List UInt8) : Disk :=
  ⟨store d.bytes w.1 w.2, if w.2 = [] then d.size else max d.size (w.1 + w.2.length)⟩

def read (d : Disk) (p n : ℕ) : Option (List UInt8) :=
  if n ≠ 0 ∧ d.size < p + n then none else some (fetch d.bytes p n)

def writeAll (d : Disk) (ws : List (ℕ × List UInt8)) : Disk := ws.foldl write d

theorem bytes_writeAll : (d.writeAll ws).bytes = storeAll d.bytes ws := by
  induction ws generalizing d with
  | nil => rfl
  | cons w ws ih => rw [writeAll, foldl_cons, ← writeAll, ih, storeAll, storeAll, foldl_cons, write]

theorem size_le_size_write : d.size ≤ (d.write w).size := by
  unfold write
  split_ifs
  · exact Nat.le_refl _
  · exact Nat.le_max_left _ _

theorem size_le_size_writeAll : d.size ≤ (d.writeAll ws).size := by
  induction ws generalizing d with
  | nil => exact Nat.le_refl _
  | cons w ws ih => exact Nat.le_trans size_le_size_write ih

theorem le_size_writeAll (hw : w ∈ ws) (hne : w.2 ≠ []) : w.1 + w.2.length ≤ (d.writeAll ws).size := by
  induction ws generalizing d with
  | nil => cases hw
  | cons v ws ih =>
    cases hw with
    | head =>
      have hend : w.1 + w.2.length ≤ (d.write w).size := by
        rw [write, if_neg hne]
        exact Nat.le_max_right _ _
      exact Nat.le_trans hend size_le_size_writeAll
    | tail _ hw => exact ih hw

theorem read_writeAll (hapart : ws.Pairwise Apart) (hw : w ∈ ws) : (d.writeAll ws).read w.1 w.2.length = some w.2 := by
  have hsize : ¬ (w.2.length ≠ 0 ∧ (d.writeAll ws).size < w.1 + w.2.length) := by
    rintro ⟨hne, hlt⟩
    have hle := le_size_writeAll (d := d) hw (length_pos_iff.1 (Nat.pos_of_ne_zero hne))
    omega
  rw [read, if_neg hsize, bytes_writeAll, fetch_storeAll hapart hw]

end Disk

structure BlockCipher (w : ℕ) where
  enc : List UInt8 → List UInt8
  dec : List UInt8 → List UInt8
  length_enc : ∀ b, b.length = w → (enc b).length = w
  dec_enc : ∀ b, b.length = w → dec (enc b) = b

section Blocks
variable {w n : ℕ} {bs : List UInt8} {f : List UInt8 → List UInt8}

def mapBlocks (w : ℕ) (f : List UInt8 → List UInt8) : ℕ → List UInt8 → List UInt8
  | 0, _ => []
  | n + 1, bs => f (bs.take w) ++ mapBlocks w f n (bs.drop w)

theorem length_mapBlocks (hf : ∀ b, b.length = w → (f b).length = w)
    (h : bs.length = n * w) : (mapBlocks w f n bs).length = n * w := by
  induction n generalizing bs with
  | zero => rw [Nat.zero_mul]; rfl
  | succ n ih =>
    rw [Nat.succ_mul] at h ⊢
    rw [mapBlocks, length_append, hf _ (by rw [length_take]; omega), ih (by rw [length_drop]; omega), Nat.add_comm]

theorem length_mapBlocks_div (hw : 0 < w) (hf : ∀ b, b.length = w → (f b).length = w)
    (h : bs.length = n * w) : (mapBlocks w f (bs.length / w) bs).length = bs.length := by
  rw [h, Nat.mul_div_cancel _ hw, length_mapBlocks hf h]

theorem BlockCipher.mapBlocks_dec_enc (c : BlockCipher w) (h : bs.length = n * w) :
    mapBlocks w c.dec n (mapBlocks w c.enc n bs) = bs := by
  induction n generalizing bs with
  | zero =>
    rw [Nat.zero_mul] at h
    rw [length_eq_zero_iff.1 h]
    rfl
  | succ n ih =>
    rw [Nat.succ_mul] at h
    have hblock : (bs.take w).length = w := by
      rw [length_take]
      omega
    have henc := c.length_enc _ hblock
    rw [mapBlocks, mapBlocks, take_left' henc, drop_left' henc, c.dec_enc _ hblock,
      ih (by rw [length_drop]; omega), take_append_drop]

theorem map_take_drop_flatMap {α : Type*} {g : α → List UInt8} (hlen : ∀ a, (g a).length = w) (as : List α)
    (rest : List UInt8) :
    (List.range as.length).map (fun i => ((as.flatMap g ++ rest).drop (i * w)).take w) = as.map g := by
  induction as with
  | nil => rfl
  | cons a as ih =>
    rw [length_cons, range_succ_eq_map, map_cons, map_map, flatMap_cons, append_assoc]
    congr 1
    · rw [Nat.zero_mul, drop_zero, take_left' (hlen a)]
    · rw [← ih]
      apply map_congr_left
      intro i _
      rw [Function.comp_apply, Nat.succ_mul, Nat.add_comm, ← drop_drop, drop_left' (hlen a)]

end Blocks
end Prj.Base
