import Mathlib.Data.List.Basic
import Mathlib.Data.List.Flatten
import Mathlib.Tactic.Ring

/-! A memory of slots of one size; a byte that nothing has been written to is `none`. -/
namespace Prj.Base
open List

section Memory
variable {α : Type} {m : ℕ → Option α} {d : List α} {off off' n k : ℕ}

def put (m : ℕ → Option α) (off : ℕ) (d : List α) : ℕ → Option α :=
  fun a => if off ≤ a ∧ a < off + d.length then d[a - off]? else m a

def get (m : ℕ → Option α) (off n : ℕ) : List (Option α) := (List.range n).map fun i => m (off + i)

@[simp] theorem length_get : (get m off n).length = n := by simp [get]

theorem get_put_self : get (put m off d) off d.length = d.map some := by
  refine ext_getElem (by simp) fun i h1 h2 => ?_
  have hi : i < d.length := by simpa using h2
  simp [get, put, hi]

theorem get_put_of_disjoint (h : off' + n ≤ off ∨ off + d.length ≤ off') : get (put m off d) off' n = get m off' n := by
  refine map_congr_left fun i hi => ?_
  rw [mem_range] at hi
  rw [put, if_neg (by omega)]

theorem get_add : get m off (n + k) = get m off n ++ get m (off + n) k := by
  simp [get, range_add, Nat.add_assoc]

end Memory

/-- The runs of successive numbers in a list, as first number and length. -/
def runs : List ℕ → List (ℕ × ℕ)
  | [] => []
  | e :: es =>
    match runs es with
    | [] => [(e, 1)]
    | (b, n) :: rs => if b = e + 1 then (e, n + 1) :: rs else (e, 1) :: (b, n) :: rs

theorem runs_eq_nil {es : List ℕ} : runs es = [] ↔ es = [] := by
  cases es with
  | nil => simp [runs]
  | cons e es =>
    rw [runs]
    split
    · simp
    · split_ifs <;> simp

theorem runs_range' (e n : ℕ) : runs (List.range' e (n + 1)) = [(e, n + 1)] := by
  induction n generalizing e with
  | zero => rfl
  | succ n ih =>
    rw [range'_succ, runs, ih (e + 1)]
    simp

section Slots
variable {α : Type} {m : ℕ → Option α} {w : ℕ}

theorem flatMap_runs (m : ℕ → Option α) (w : ℕ) (es : List ℕ) :
    (runs es).flatMap (fun r => get m (r.1 * w) (r.2 * w)) = es.flatMap fun e => get m (e * w) w := by
  induction es with
  | nil => rfl
  | cons e es ih =>
    rw [runs, flatMap_cons, ← ih]
    split
    · next hnil => simp [hnil]
    · next b n rs hcons =>
      rw [hcons]
      split_ifs with hb
      · have hadd : (n + 1) * w = w + n * w := by ring
        have hoff : e * w + w = b * w := by rw [hb]; ring
        rw [flatMap_cons, flatMap_cons, hadd, get_add, hoff, append_assoc]
      · simp

/-- Write the pieces of `d` of `w` elements, from piece `k` on, to the slots `es`; `none` when `d` is
too short. -/
def fillSlots (w : ℕ) (d : List α) : ℕ → List ℕ → (ℕ → Option α) → Option (ℕ → Option α)
  | _, [], m => some m
  | k, e :: es, m =>
    if (k + 1) * w ≤ d.length then
      fillSlots w d (k + 1) es (put m (e * w) ((d.drop (k * w)).take w))
    else none

variable {d : List α} {k e : ℕ} {es : List ℕ} {m' : ℕ → Option α}

theorem fillSlots_isSome_iff : (fillSlots w d k es m).isSome ↔ es = [] ∨ (k + es.length) * w ≤ d.length := by
  induction es generalizing k m with
  | nil => simp [fillSlots]
  | cons e es ih =>
    rw [fillSlots]
    split_ifs with hk
    · rw [ih, show k + 1 + es.length = k + (es.length + 1) by omega]
      constructor
      · rintro (rfl | h)
        · exact .inr (by simpa using hk)
        · exact .inr h
      · rintro (h | h)
        · simp at h
        · exact .inr h
    · refine iff_of_false (by simp) ?_
      rintro (h | h)
      · simp at h
      · refine hk (le_trans (Nat.mul_le_mul_right w ?_) h)
        simp

theorem length_piece (h : (k + 1) * w ≤ d.length) : ((d.drop (k * w)).take w).length = w := by
  rw [length_take, length_drop]
  have hadd : (k + 1) * w = k * w + w := by ring
  omega

theorem get_fillSlots_of_notMem (h : fillSlots w d k es m = some m') (he : e ∉ es) :
    get m' (e * w) w = get m (e * w) w := by
  induction es generalizing k m with
  | nil => simp only [fillSlots, Option.some.injEq] at h; rw [h]
  | cons e' es ih =>
    rw [fillSlots] at h
    split_ifs at h with hk
    simp only [mem_cons, not_or] at he
    rw [ih h he.2, get_put_of_disjoint]
    rw [length_piece hk]
    have hne := he.1
    rcases Nat.lt_or_gt_of_ne hne with hlt | hgt
    · left
      calc e * w + w = (e + 1) * w := by ring
        _ ≤ e' * w := Nat.mul_le_mul_right w hlt
    · right
      calc e' * w + w = (e' + 1) * w := by ring
        _ ≤ e * w := Nat.mul_le_mul_right w hgt

theorem flatMap_fillSlots (h : fillSlots w d k es m = some m') (hnodup : es.Nodup) :
    es.flatMap (fun e => get m' (e * w) w) = ((d.drop (k * w)).take (es.length * w)).map some := by
  induction es generalizing k m with
  | nil => simp
  | cons e es ih =>
    rw [fillSlots] at h
    split_ifs at h with hk
    rw [nodup_cons] at hnodup
    have hlen := length_piece hk
    have hfirst : get m' (e * w) w = ((d.drop (k * w)).take w).map some := by
      rw [get_fillSlots_of_notMem h hnodup.1]
      conv_lhs => rw [← hlen]
      have hself := @get_put_self α m ((d.drop (k * w)).take w) (e * w)
      rw [hlen] at hself ⊢
      exact hself
    rw [flatMap_cons, hfirst, ih h hnodup.2, ← map_append]
    have hadd : (k + 1) * w = k * w + w := by ring
    rw [hadd, ← drop_drop, length_cons, show (es.length + 1) * w = w + es.length * w by ring, take_add]

end Slots
end Prj.Base
