import Mathlib.Algebra.Order.BigOperators.Group.List
import Mathlib.Tactic.Linarith

/-! Positions in a sequence of consecutive intervals of given widths. `offset` maps an interval
and a position inside it to the distance from the start; `locate` walks the widths and inverts it.
A `Calendar` is a sequence of years, each of which is such a sequence of months. -/
namespace Prj.Base
open List

def offset (ws : List ℤ) (i : ℕ) : ℤ := (ws.take i).sum

/-- Subtract widths from the front while they fit. The last interval takes whatever is left. -/
def locate : List ℤ → ℤ → ℕ × ℤ
  | [], d => (0, d)
  | w :: ws, d => if w ≤ d then ((locate ws (d - w)).1 + 1, (locate ws (d - w)).2) else (0, d)

@[simp] theorem offset_zero (ws : List ℤ) : offset ws 0 = 0 := rfl

@[simp] theorem offset_cons_succ (w : ℤ) (ws : List ℤ) (i : ℕ) : offset (w :: ws) (i + 1) = w + offset ws i := by
  simp [offset]

section
variable (ws : List ℤ)
include ws

theorem offset_length : offset ws ws.length = ws.sum := by
  rw [offset, take_length]

theorem offset_succ (i : ℕ) (h : i < ws.length) : offset ws (i + 1) = offset ws i + ws[i] := by
  rw [offset, sum_take_succ ws i h, offset]

theorem offset_take (k i : ℕ) (h : i ≤ k) : offset (ws.take k) i = offset ws i := by
  simp [offset, take_take, h]

theorem offset_nonneg (hw : ∀ w ∈ ws, 0 ≤ w) (i : ℕ) : 0 ≤ offset ws i := by
  apply sum_nonneg
  intro w h
  exact hw w (mem_of_mem_take h)

/-- Walking never loses a day: the interval found and the rest add up to the input. -/
theorem offset_locate (d : ℤ) : offset ws (locate ws d).1 + (locate ws d).2 = d := by
  induction ws generalizing d with
  | nil => simp [locate, offset]
  | cons w ws ih =>
    simp only [locate]
    split_ifs with h
    · simp only [offset_cons_succ]
      have := ih (d - w)
      omega
    · simp

theorem locate_fst_le (d : ℤ) : (locate ws d).1 ≤ ws.length := by
  induction ws generalizing d with
  | nil => simp [locate]
  | cons w ws ih =>
    simp only [locate, length_cons]
    split_ifs
    · exact Nat.succ_le_succ (ih _)
    · omega

theorem locate_snd_nonneg (d : ℤ) (hd : 0 ≤ d) : 0 ≤ (locate ws d).2 := by
  induction ws generalizing d with
  | nil => simpa [locate] using hd
  | cons w ws ih =>
    simp only [locate]
    split_ifs with h
    · exact ih _ (by omega)
    · exact hd

theorem locate_offset (hw : ∀ w ∈ ws, 0 ≤ w) (i : ℕ) (r : ℤ) (hi : i ≤ ws.length)
    (hr : 0 ≤ r) (hlt : ∀ h : i < ws.length, r < ws[i]) : locate ws (offset ws i + r) = (i, r) := by
  induction ws generalizing i with
  | nil =>
    obtain rfl : i = 0 := by simpa using hi
    simp [locate]
  | cons w ws ih =>
    cases i with
    | zero =>
      have : r < w := hlt (by simp)
      simp [locate, this]
    | succ i =>
      have hw' : ∀ v ∈ ws, 0 ≤ v := fun v hv => hw v (mem_cons_of_mem _ hv)
      have ho := offset_nonneg ws hw' i
      have hrec := ih hw' i (by simpa using hi) (fun h => hlt (by simpa using h))
      have hle : w ≤ offset (w :: ws) (i + 1) + r := by rw [offset_cons_succ]; omega
      have hsub : offset (w :: ws) (i + 1) + r - w = offset ws i + r := by
        rw [offset_cons_succ]; omega
      simp only [locate, if_pos hle, hsub, hrec]

theorem offset_add_lt_sum (hw : ∀ w ∈ ws, 0 ≤ w) (i : ℕ) (hi : i < ws.length)
    (r : ℤ) (hr : r < ws[i]) : offset ws i + r < ws.sum := by
  have hsplit : ws.sum = offset ws i + (ws[i] + (ws.drop (i + 1)).sum) := by
    rw [offset, ← sum_cons, ← drop_eq_getElem_cons hi, ← sum_append, take_append_drop]
  have hrest : 0 ≤ (ws.drop (i + 1)).sum :=
    sum_nonneg fun w h => hw w (mem_of_mem_drop h)
  omega

end

/-- Years counted from `0`, the day each one starts on, and the lengths of its months. -/
structure Calendar where
  start : ℤ → ℤ
  months : ℤ → List ℤ
  months_nonneg : ∀ a, ∀ w ∈ months a, 0 ≤ w
  start_succ : ∀ a, 0 ≤ a → start (a + 1) = start a + (months a).sum

namespace Calendar
variable (c : Calendar) {a b : ℤ}

theorem start_add_le (ha : 0 ≤ a) (hab : a + 1 ≤ b) : c.start a + (c.months a).sum ≤ c.start b := by
  induction b, hab using Int.leInduction with
  | base => rw [c.start_succ a ha]
  | succ b hb ih =>
    have hsum := sum_nonneg (c.months_nonneg b)
    rw [c.start_succ b (by omega)]
    omega

theorem start_mono (ha : 0 ≤ a) (hab : a ≤ b) : c.start a ≤ c.start b := by
  rcases hab.eq_or_lt with rfl | hlt
  · exact le_rfl
  · have hsum := sum_nonneg (c.months_nonneg a)
    have := c.start_add_le ha (Int.add_one_le_of_lt hlt)
    omega

theorem eq_of_start_add {p q : ℤ} (ha : 0 ≤ a) (hb : 0 ≤ b) (hp : 0 ≤ p)
    (hp' : p < (c.months a).sum) (hq : 0 ≤ q) (hq' : q < (c.months b).sum)
    (h : c.start a + p = c.start b + q) : a = b ∧ p = q := by
  rcases lt_trichotomy a b with hab | rfl | hab
  · have := c.start_add_le ha (Int.add_one_le_of_lt hab)
    omega
  · exact ⟨rfl, by omega⟩
  · have := c.start_add_le hb (Int.add_one_le_of_lt hab)
    omega

end Calendar
end Prj.Base
