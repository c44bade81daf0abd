import Mathlib.Data.List.TakeWhile
import Prj.Base.Search

/-! Strings that end with a given value, in a memory of a fixed size. A read outside of the memory is a fault. -/
namespace Prj.Base
open List Option

section Model
variable {α : Type} [DecidableEq α] (nul : α)

def cstr (mem : List α) (p : ℕ) : Option (List α) :=
  if nul ∈ mem.drop p then some ((mem.drop p).takeWhile (· ≠ nul)) else none

/-- The place of the first value of the string with `f`. -/
def strfind (f : α → Bool) (mem : List α) (p : ℕ) : Option (Option ℕ) :=
  (cstr nul mem p).map fun s => (s.findIdx? f).map (p + ·)

end Model

variable {α : Type} [DecidableEq α] {nul : α} {f : α → Bool} {pre s u v junk : List α} {c : α}

theorem cstr_append (pre junk : List α) (h : nul ∉ s) : cstr nul (pre ++ (s ++ nul :: junk)) pre.length = some s := by
  have hs : ∀ a ∈ s, decide (a ≠ nul) = true := by
    intro a ha
    simp only [decide_eq_true_eq]
    rintro rfl
    exact h ha
  rw [cstr, drop_left, takeWhile_append_of_pos hs]
  simp

theorem strfind_append (hs : nul ∉ s) :
    strfind nul f (pre ++ (s ++ nul :: junk)) pre.length = some ((s.findIdx? f).map (pre.length + ·)) := by
  rw [strfind, cstr_append _ _ hs, map_some]

theorem strfind_first (h : First f s u c v) (hs : nul ∉ s) :
    strfind nul f (pre ++ (s ++ nul :: junk)) pre.length = some (some (pre.length + u.length)) := by
  rw [strfind_append hs, h.eq, findIdx?_append_cons h.before h.here]
  rfl

theorem strfind_none (hs : nul ∉ s) (hf : ∀ a ∈ s, f a = false) :
    strfind nul f (pre ++ (s ++ nul :: junk)) pre.length = some none := by
  rw [strfind_append hs, findIdx?_eq_none_iff.2 hf]
  rfl

end Prj.Base
