import Mathlib.Data.List.GetD
import Mathlib.Tactic.Positivity
import Prj.Base.Bytes

/-! Records of big-endian numbers in a memory, and rows of records at a fixed distance. -/
namespace Prj.Base
open List

section Store
variable {mem mem' : ℕ → UInt8} {p n i : ℕ} {bs cs : List UInt8}

def store (mem : ℕ → UInt8) (p : ℕ) (bs : List UInt8) : ℕ → UInt8 := fun i =>
  if p ≤ i then bs.getD (i - p) (mem i) else mem i

theorem store_of_lt (h : i < p) : store mem p bs i = mem i := if_neg (by omega)

theorem store_of_le (h : p + bs.length ≤ i) : store mem p bs i = mem i := by
  rw [store, if_pos (by omega), getD_eq_default _ _ (by omega)]

theorem store_add (h : i < bs.length) : store mem p bs (p + i) = bs.getD i 0 := by
  rw [store, if_pos (by omega), Nat.add_sub_cancel_left, getD_eq_getElem _ _ h, getD_eq_getElem _ _ h]

theorem fetch_store : fetch (store mem p bs) p bs.length = bs := by
  apply ext_getElem (by simp)
  intro i hi hi'
  simp only [fetch, getElem_map, getElem_range]
  rw [store_add hi', getD_eq_getElem _ _ hi']

theorem fetch_congr (h : ∀ i, p ≤ i → i < p + n → mem i = mem' i) : fetch mem p n = fetch mem' p n := by
  apply map_congr_left
  intro i hi
  rw [mem_range] at hi
  exact h _ (by omega) (by omega)

theorem store_store (h : bs.length = cs.length) : store (store mem p bs) p cs = store mem p cs := by
  funext i
  by_cases hlo : i < p
  · rw [store_of_lt hlo, store_of_lt hlo, store_of_lt hlo]
  · by_cases hhi : p + cs.length ≤ i
    · rw [store_of_le hhi, store_of_le hhi, store_of_le (by omega)]
    · obtain ⟨j, rfl⟩ := Nat.exists_eq_add_of_le (Nat.le_of_not_lt hlo)
      rw [store_add (by omega), store_add (by omega)]

theorem store_of_fetch (h : fetch mem p bs.length = bs) : store mem p bs = mem := by
  funext i
  by_cases hlo : i < p
  · exact store_of_lt hlo
  · by_cases hhi : p + bs.length ≤ i
    · exact store_of_le hhi
    · obtain ⟨j, rfl⟩ := Nat.exists_eq_add_of_le (Nat.le_of_not_lt hlo)
      have hj : j < bs.length := by omega
      rw [store_add hj, ← h]
      simp [fetch, getD_eq_getElem?_getD, hj]

end Store

section Update
open Function
variable {mem : ℕ → UInt8} {p n i : ℕ} {b : UInt8} {bs : List UInt8}

theorem fetch_update_of_notMem (h : i < p ∨ p + n ≤ i) : fetch (update mem i b) p n = fetch mem p n := by
  apply fetch_congr
  intro j hlo hhi
  exact update_of_ne (by omega) _ _

theorem fetch_update_zero : fetch (update mem i b) 0 n = (fetch mem 0 n).set i b := by
  apply ext_getElem (by simp)
  intro j hj _
  rw [getElem_set]
  simp only [fetch, getElem_map, getElem_range, Nat.zero_add, update_apply]
  simp only [eq_comm]

theorem fetch_update_ne (hlo : p ≤ i) (hhi : i < p + n) (hb : b ≠ mem i) :
    fetch (update mem i b) p n ≠ fetch mem p n := by
  intro h
  have hget := congrArg (fun bs => bs[i - p]?) h
  have hlt : i - p < n := by omega
  simp only [fetch, getElem?_map, getElem?_range hlt, Option.map_some,
    Nat.add_sub_cancel' hlo, update_self, Option.some.injEq] at hget
  exact hb hget

theorem store_update_of_mem (hlo : p ≤ i) (hhi : i < p + bs.length) : store (update mem i b) p bs = store mem p bs := by
  funext j
  by_cases hj : j = i
  · obtain ⟨d, rfl⟩ := Nat.exists_eq_add_of_le hlo
    rw [hj, store_add (by omega), store_add (by omega)]
  · unfold store
    rw [update_of_ne hj]

theorem store_update_of_notMem (h : i < p ∨ p + bs.length ≤ i) :
    store (update mem i b) p bs = update (store mem p bs) i b := by
  funext j
  by_cases hj : j = i
  · subst hj
    rw [update_self]
    rcases h with h | h
    · rw [store_of_lt h, update_self]
    · rw [store_of_le h, update_self]
  · rw [update_of_ne hj]
    unfold store
    rw [update_of_ne hj]

end Update

section Fields
variable {mem : ℕ → UInt8} {p : ℕ} {widths vals : List ℕ}

def packFields (widths vals : List ℕ) : List UInt8 :=
  (widths.zip vals).flatMap fun f => bigEndian f.1 f.2

def unpackFields (mem : ℕ → UInt8) : ℕ → List ℕ → List ℕ
  | _, [] => []
  | p, w :: ws => ofBigEndian (fetch mem p w) :: unpackFields mem (p + w) ws

def Fit (widths vals : List ℕ) : Prop := List.Forall₂ (fun w v => v < 256 ^ w) widths vals

theorem fit_cons8 (v : UInt8) (h : Fit widths vals) : Fit (1 :: widths) (v.toNat :: vals) :=
  List.Forall₂.cons v.toNat_lt h

theorem fit_cons16 (v : UInt16) (h : Fit widths vals) : Fit (2 :: widths) (v.toNat :: vals) :=
  List.Forall₂.cons v.toNat_lt h

theorem fit_cons32 (v : UInt32) (h : Fit widths vals) : Fit (4 :: widths) (v.toNat :: vals) :=
  List.Forall₂.cons v.toNat_lt h

theorem fit_cons64 (v : UInt64) (h : Fit widths vals) : Fit (8 :: widths) (v.toNat :: vals) :=
  List.Forall₂.cons v.toNat_lt h

theorem length_packFields (h : Fit widths vals) : (packFields widths vals).length = widths.sum := by
  induction h with
  | nil => rfl
  | cons hv _ ih => simpa [packFields] using ih

theorem ofBigEndian_bigEndian_of_lt {w v : ℕ} (h : v < 256 ^ w) : ofBigEndian (bigEndian w v) = v := by
  have hval := ofBigEndian_bigEndian w v
  rw [Int.emod_eq_of_lt (by positivity) (by exact_mod_cast h)] at hval
  exact_mod_cast hval

theorem unpackFields_of_fetch (h : Fit widths vals)
    (hmem : fetch mem p widths.sum = packFields widths vals) : unpackFields mem p widths = vals := by
  induction h generalizing p with
  | nil => rfl
  | @cons w v ws vs hv hrest ih =>
    rw [sum_cons, fetch_add] at hmem
    obtain ⟨hw, hws⟩ := append_inj hmem (by simp)
    rw [unpackFields, hw, ih hws, ofBigEndian_bigEndian_of_lt hv]

end Fields

section Rows
variable {α : Type} {mem mem' : ℕ → UInt8} {stride p i : ℕ} {bytes : α → List UInt8}
  {load : (ℕ → UInt8) → ℕ → α → α} {keep : α → α → α} {as olds : List α}

def storeRows (stride : ℕ) (bytes : α → List UInt8) : ℕ → List α → (ℕ → UInt8) → ℕ → UInt8
  | _, [], mem => mem
  | p, a :: as, mem => storeRows stride bytes (p + stride) as (store mem p (bytes a))

def loadRows (stride : ℕ) (load : (ℕ → UInt8) → ℕ → α → α) (mem : ℕ → UInt8) : ℕ → List α → List α
  | _, [] => []
  | p, old :: olds => load mem p old :: loadRows stride load mem (p + stride) olds

@[simp] theorem length_loadRows : (loadRows stride load mem p olds).length = olds.length := by
  induction olds generalizing p with
  | nil => rfl
  | cons old olds ih => rw [loadRows, length_cons, ih, length_cons]

theorem storeRows_of_lt (h : i < p) : storeRows stride bytes p as mem i = mem i := by
  induction as generalizing p mem with
  | nil => rfl
  | cons a as ih => rw [storeRows, ih (by omega), store_of_lt h]

theorem loadRows_storeRows (hlen : as.length = olds.length) (hbytes : ∀ a, (bytes a).length ≤ stride)
    (hload : ∀ mem p a old, fetch mem p (bytes a).length = bytes a → load mem p old = keep a old)
    (hmem : ∀ i, p ≤ i → mem' i = storeRows stride bytes p as mem i) :
    loadRows stride load mem' p olds = List.zipWith keep as olds := by
  induction as generalizing p mem olds with
  | nil =>
    obtain rfl : olds = [] := length_eq_zero_iff.1 hlen.symm
    rfl
  | cons a as ih =>
    obtain ⟨old, olds, rfl⟩ : ∃ old olds', olds = old :: olds' :=
      exists_cons_of_length_pos (by rw [← hlen]; simp)
    have hrest : loadRows stride load mem' (p + stride) olds = List.zipWith keep as olds :=
      ih (by simpa using hlen) fun i hi => hmem i (by omega)
    have hrow : fetch mem' p (bytes a).length = bytes a := by
      have hcongr : ∀ i, p ≤ i → i < p + (bytes a).length → mem' i = store mem p (bytes a) i := by
        intro i hlo hhi
        have hle := hbytes a
        rw [hmem i hlo, storeRows, storeRows_of_lt (by omega)]
      rw [fetch_congr hcongr, fetch_store]
    rw [loadRows, zipWith_cons_cons, hload mem' p a old hrow, hrest]

end Rows
end Prj.Base
