import Mathlib.Data.List.Infix
import Mathlib.Data.List.DropRight

/-! Glob patterns and the strings they match. -/
namespace Prj.Base
open List

inductive Glob (α : Type) where
  | any
  | one
  | char (c : α)
deriving DecidableEq, Repr

namespace Glob
variable {α : Type}

/-- The string `s` is in the language of the pattern. -/
def Matches : List (Glob α) → List α → Prop
  | [], s => s = []
  | any :: p, s => ∃ t, t <:+ s ∧ Matches p t
  | one :: p, s => ∃ a t, s = a :: t ∧ Matches p t
  | char c :: p, s => ∃ t, s = c :: t ∧ Matches p t

instance decidableMatches [DecidableEq α] : (p : List (Glob α)) → (s : List α) → Decidable (Matches p s)
  | [], s => inferInstanceAs (Decidable (s = []))
  | any :: p, s =>
    have := decidableMatches p
    decidable_of_iff (∃ t ∈ s.tails, Matches p t) (by simp [Matches])
  | one :: _, [] => isFalse (by simp [Matches])
  | one :: p, _ :: s =>
    have := decidableMatches p s
    decidable_of_iff (Matches p s) (by simp [Matches])
  | char _ :: _, [] => isFalse (by simp [Matches])
  | char c :: p, a :: s =>
    have := decidableMatches p s
    decidable_of_iff (a = c ∧ Matches p s) (by simp [Matches])

variable {p : List (Glob α)} {s t : List α} {a c : α}

@[simp] theorem matches_nil : Matches [] s ↔ s = [] := Iff.rfl

@[simp] theorem matches_one_cons : Matches (one :: p) (a :: s) ↔ Matches p s := by
  simp [Matches]

@[simp] theorem matches_one_nil : ¬Matches (one :: p) [] := by simp [Matches]

@[simp] theorem matches_char_cons : Matches (char c :: p) (a :: s) ↔ a = c ∧ Matches p s := by
  simp [Matches]

@[simp] theorem matches_char_nil : ¬Matches (char c :: p) [] := by simp [Matches]

theorem matches_any_any : Matches (any :: any :: p) s ↔ Matches (any :: p) s := by
  constructor
  · rintro ⟨t, ht, u, hu, hp⟩
    exact ⟨u, hu.trans ht, hp⟩
  · intro h
    exact ⟨s, suffix_refl s, h⟩

/-- The pattern is a number of `one` and then `any`, which leaves room in front of it. -/
def Opens : List (Glob α) → Bool
  | any :: _ => true
  | one :: p => Opens p
  | _ => false

theorem matches_cons_of_opens (hp : Opens p = true) (h : Matches p s) : Matches p (a :: s) := by
  induction p generalizing s a with
  | nil => simp [Opens] at hp
  | cons i p ih =>
    cases i with
    | any =>
      obtain ⟨t, ht, hm⟩ := h
      exact ⟨t, ht.trans (suffix_cons a s), hm⟩
    | one =>
      obtain ⟨b, t, rfl, hm⟩ := h
      exact matches_one_cons.2 (ih hp hm)
    | char c => simp [Opens] at hp

theorem matches_of_suffix (hp : Opens p = true) (hs : t <:+ s) (h : Matches p t) : Matches p s := by
  obtain ⟨u, rfl⟩ := hs
  induction u with
  | nil => exact h
  | cons a u ih => exact matches_cons_of_opens hp ih

theorem suffix_of_dropWhile_ne [DecidableEq α] (h : c :: t <:+ s) : ∃ u, s.dropWhile (· ≠ c) = c :: u ∧ t <:+ u := by
  induction s with
  | nil => simp at h
  | cons a s ih =>
    by_cases hac : a = c
    · subst hac
      refine ⟨s, by simp, ?_⟩
      obtain ⟨v, hv⟩ := h
      cases v with
      | nil => exact ⟨[], (List.cons.inj hv).2⟩
      | cons b v => exact ⟨v ++ [a], by simpa using (List.cons.inj hv).2⟩
    · have hsuf : c :: t <:+ s := by
        rcases suffix_cons_iff.1 h with heq | h
        · exact absurd (List.cons.inj heq).1.symm hac
        · exact h
      simpa [hac] using ih hsuf

/-- After a star the first occurrence of a character is the one to take, if what follows leaves
room. -/
theorem matches_any_char [DecidableEq α] (hp : Opens p = true) : Matches (any :: char c :: p) s ↔
    ∃ u, s.dropWhile (· ≠ c) = c :: u ∧ Matches p u := by
  constructor
  · rintro ⟨_, ht, t, rfl, h⟩
    obtain ⟨u, hu, hsuf⟩ := suffix_of_dropWhile_ne ht
    exact ⟨u, hu, matches_of_suffix hp hsuf h⟩
  · rintro ⟨u, hu, h⟩
    refine ⟨c :: u, ?_, u, rfl, h⟩
    rw [← hu]
    exact dropWhile_suffix _

/-- The shortest string of the language, with `z` for every `one`. -/
def sample (z : α) : List (Glob α) → List α
  | [] => []
  | any :: p => sample z p
  | one :: p => z :: sample z p
  | char c :: p => c :: sample z p

theorem matches_sample (z : α) (p : List (Glob α)) : Matches p (sample z p) := by
  induction p with
  | nil => rfl
  | cons i p ih =>
    cases i with
    | any => exact ⟨_, suffix_refl _, ih⟩
    | one => exact ⟨_, _, rfl, ih⟩
    | char c => exact ⟨_, rfl, ih⟩

end Glob
end Prj.Base
