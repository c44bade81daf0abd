import Mathlib.Data.List.Basic

/-! Writing into the middle of a list, and a list that is overwritten from the front. -/
namespace Prj.Base
open List
variable {α : Type} {l old new d : List α} {w i off : ℕ} {p : ℕ}

def splice (l : List α) (off : ℕ) (d : List α) : List α := l.take off ++ d ++ l.drop (off + d.length)

theorem length_splice (h : off + d.length ≤ l.length) : (splice l off d).length = l.length := by
  simp only [splice, length_append, length_take, length_drop]
  omega

theorem splice_zero (h : l.length ≤ d.length) : splice l 0 d = d := by
  simp [splice, drop_eq_nil_of_le h]

theorem getElem?_splice_of_lt (hoff : p < off) (hl : off ≤ l.length) : (splice l off d)[p]? = l[p]? := by
  have hlen : (l.take off).length = off := by simp [hl]
  rw [splice, append_assoc, getElem?_append_left (by omega), getElem?_take_of_lt hoff]

theorem getElem?_splice_of_le (hoff : off + d.length ≤ p) (hl : off ≤ l.length) : (splice l off d)[p]? = l[p]? := by
  have hlen : (l.take off ++ d).length = off + d.length := by simp [hl]
  rw [splice, getElem?_append_right (by omega), hlen, getElem?_drop]
  congr 1
  omega

/-- The first `w` elements of `old` are replaced by those of `new`. -/
def copied (new old : List α) (w : ℕ) : List α := new.take w ++ old.drop w

@[simp] theorem copied_zero : copied new old 0 = old := by simp [copied]

theorem copied_length : copied new old new.length = new ++ old.drop new.length := by simp [copied]

theorem splice_copied (h : w + i ≤ new.length) :
    splice (copied new old w) w ((new.drop w).take i) = copied new old (w + i) := by
  have hw : (new.take w).length = w := by simp; omega
  have hd : ((new.drop w).take i).length = i := by simp; omega
  have htake : (copied new old w).take w = new.take w := by
    rw [copied, take_append_of_le_length (by omega), take_take, Nat.min_self]
  have hdrop : (copied new old w).drop (w + i) = old.drop (w + i) := by
    rw [copied, drop_append, drop_eq_nil_of_le (by omega), hw, drop_drop]
    simp
  rw [splice, htake, hd, hdrop, copied, take_add]

end Prj.Base
