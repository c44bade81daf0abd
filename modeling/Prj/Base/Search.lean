import Mathlib.Data.List.Infix
import Mathlib.Tactic.Linarith

/-! The first occurrence of a word in a list, and of a value with a property. -/
namespace Prj.Base
open List

variable {α : Type} [DecidableEq α]

/-- What stands before and after the first occurrence of `d`. -/
def cut (d : List α) : List α → Option (List α × List α)
  | [] => if d = [] then some ([], []) else none
  | x :: s =>
    if d <+: x :: s then some ([], (x :: s).drop d.length)
    else (cut d s).map fun uv => (x :: uv.1, uv.2)

/-- In `a ++ d` the word `d` does not start before the end of `a`. -/
def FirstAt (d a : List α) : Prop := ∀ w z, a ++ d = w ++ (d ++ z) → a.length ≤ w.length

theorem cut_spec {d s u v : List α} (h : cut d s = some (u, v)) :
    s = u ++ (d ++ v) ∧ ∀ w z, s = w ++ (d ++ z) → u.length ≤ w.length := by
  induction s generalizing u v with
  | nil =>
    simp only [cut] at h
    split_ifs at h with hd
    cases h
    simp [hd]
  | cons x s ih =>
    simp only [cut] at h
    split_ifs at h with hd
    · cases h
      obtain ⟨t, ht⟩ := hd
      simp [← ht]
    · obtain ⟨⟨u', v'⟩, hc, huv⟩ := Option.map_eq_some_iff.1 h
      cases huv
      obtain ⟨heq, hle⟩ := ih hc
      refine ⟨by rw [heq]; rfl, fun w z hs => ?_⟩
      cases w with
      | nil => exact absurd ⟨z, hs.symm⟩ hd
      | cons y w => exact Nat.succ_le_succ (hle w z (List.cons.inj hs).2)

theorem cut_append {d s u v : List α} (h : cut d s = some (u, v)) : s = u ++ (d ++ v) := (cut_spec h).1

theorem cut_eq_none_iff {d s : List α} : cut d s = none ↔ ∀ w z, s ≠ w ++ (d ++ z) := by
  induction s with
  | nil =>
    simp only [cut]
    split_ifs with hd
    · simp [hd]
    · simp [hd]
  | cons x s ih =>
    simp only [cut]
    split_ifs with hd
    · obtain ⟨t, ht⟩ := hd
      simp only [false_iff, not_forall, ne_eq, not_not]
      exact ⟨[], t, ht.symm⟩
    · rw [Option.map_eq_none_iff, ih]
      constructor
      · intro h w z heq
        cases w with
        | nil => exact hd ⟨z, heq.symm⟩
        | cons y w => exact h w z (by simpa using (List.cons.inj heq).2)
      · intro h w z heq
        exact h (x :: w) z (by rw [heq]; rfl)

theorem cut_eq_some_iff {d s u v : List α} : cut d s = some (u, v) ↔
    s = u ++ (d ++ v) ∧ ∀ w z, s = w ++ (d ++ z) → u.length ≤ w.length := by
  refine ⟨cut_spec, ?_⟩
  rintro ⟨hs, hmin⟩
  cases h : cut d s with
  | none => exact absurd hs (cut_eq_none_iff.1 h u v)
  | some uv =>
    obtain ⟨u', v'⟩ := uv
    obtain ⟨heq, hmin'⟩ := cut_spec h
    have hle := hmin u' v' heq
    have hge := hmin' u v hs
    obtain ⟨rfl, h2⟩ := append_inj (hs.symm.trans heq) (by omega)
    rw [append_cancel_left h2]

theorem cut_append_iff {d a v : List α} : cut d (a ++ (d ++ v)) = some (a, v) ↔ FirstAt d a := by
  rw [cut_eq_some_iff]
  constructor
  · rintro ⟨-, h⟩ w z heq
    exact h w (z ++ v) (by rw [← append_assoc, heq]; simp)
  · intro h
    refine ⟨rfl, fun w z heq => ?_⟩
    by_contra hlt
    -- an occurrence that starts inside `a` ends inside `a ++ d`
    have h1 : w ++ d <+: a ++ (d ++ v) := ⟨z, by rw [heq, append_assoc]⟩
    have h2 : a ++ d <+: a ++ (d ++ v) := ⟨v, by rw [append_assoc]⟩
    have hpre : w ++ d <+: a ++ d := by
      refine prefix_of_prefix_length_le h1 h2 ?_
      simp only [length_append]
      omega
    obtain ⟨t, ht⟩ := hpre
    exact hlt (h w t (by rw [← ht, append_assoc]))

section First
variable {α : Type} {f : α → Bool} {s u v : List α} {c : α}

/-- `d` is the first value with `f`, between `u` and `v`. -/
structure First (f : α → Bool) (s u : List α) (d : α) (v : List α) : Prop where
  eq : s = u ++ d :: v
  before : ∀ a ∈ u, f a = false
  here : f d = true

theorem findIdx?_append_cons (hu : ∀ a ∈ u, f a = false) (hc : f c = true) :
    (u ++ c :: v).findIdx? f = some u.length := by
  rw [findIdx?_append, findIdx?_eq_none_iff.2 hu]
  simp [findIdx?_cons, hc]

theorem forall_or_exists_first (f : α → Bool) (s : List α) : (∀ a ∈ s, f a = false) ∨ ∃ u d v, First f s u d v := by
  cases hfind : s.find? f with
  | none => exact .inl fun a ha => by simpa using find?_eq_none.1 hfind a ha
  | some d =>
    obtain ⟨hd, u, v, hs, hu⟩ := find?_eq_some_iff_append.1 hfind
    exact .inr ⟨u, d, v, hs, fun a ha => by simpa using hu a ha, hd⟩

theorem First.forall_iff {P : List α → α → List α → Prop} (h : First f s u c v) :
    (∀ u' d v', First f s u' d v' → P u' d v') ↔ P u c v := by
  refine ⟨fun hP => hP u c v h, fun hP u' d v' h' => ?_⟩
  have hlen : u.length = u'.length := by
    have := h'.eq ▸ findIdx?_append_cons h'.before h'.here
    rw [h.eq, findIdx?_append_cons h.before h.here] at this
    exact Option.some.inj this
  obtain ⟨rfl, hrest⟩ := append_inj (h.eq.symm.trans h'.eq) hlen
  cases hrest
  exact hP

end First
end Prj.Base
