import Mathlib.Data.Nat.Digits.Defs

/-!
Numerals: digits with the highest one first, digits in groups, and texts of words.
-/
namespace Prj.Base
open List

section Value
variable {b : ℕ} {ds es : List ℕ}

/-- The value of digits in base `b`, the highest one first. -/
def value (b : ℕ) (ds : List ℕ) : ℕ := Nat.ofDigits b ds.reverse

@[simp] theorem value_nil : value b [] = 0 := rfl

theorem value_append : value b (ds ++ es) = value b ds * b ^ es.length + value b es := by
  rw [value, reverse_append, Nat.ofDigits_append, length_reverse, Nat.add_comm, Nat.mul_comm]
  rfl

@[simp] theorem value_singleton (d : ℕ) : value b [d] = d := Nat.ofDigits_singleton

theorem value_cons (d : ℕ) : value b (d :: ds) = d * b ^ ds.length + value b ds := by
  rw [← singleton_append, value_append, value_singleton]

theorem value_lt (hb : 1 < b) (hds : ∀ d ∈ ds, d < b) : value b ds < b ^ ds.length := by
  rw [← length_reverse]
  exact Nat.ofDigits_lt_base_pow_length hb fun d hd => hds d (mem_reverse.1 hd)

theorem value_dropWhile : value b (ds.dropWhile (· = 0)) = value b ds := by
  induction ds with
  | nil => rfl
  | cons d ds ih =>
    by_cases hd : d = 0
    · rw [dropWhile_cons_of_pos (by simpa using hd), ih, value_cons, hd, Nat.zero_mul, Nat.zero_add]
    · rw [dropWhile_cons_of_neg (by simpa using hd)]

theorem dropWhile_eq_digits (hb : 1 < b) (hds : ∀ d ∈ ds, d < b) :
    ds.dropWhile (· = 0) = (Nat.digits b (value b ds)).reverse := by
  have hlast : ∀ hne : (ds.dropWhile (· = 0)).reverse ≠ [], (ds.dropWhile (· = 0)).reverse.getLast hne ≠ 0 := by
    intro hne
    have hhead := head_dropWhile_not (· = 0) (l := ds) (fun hnil => hne (by rw [hnil, reverse_nil]))
    simpa using hhead
  have hlt : ∀ d ∈ (ds.dropWhile (· = 0)).reverse, d < b := fun d hd =>
    hds d ((dropWhile_suffix _).subset (mem_reverse.1 hd))
  rw [← value_dropWhile, value, Nat.digits_ofDigits b hb _ hlt hlast, reverse_reverse]

theorem eq_of_value_eq (hb : 1 < b) (hds : ∀ d ∈ ds, d < b) (hes : ∀ d ∈ es, d < b) (hd : ds.head? ≠ some 0)
    (he : es.head? ≠ some 0) (h : value b ds = value b es) : ds = es := by
  have hdrop : ∀ ls : List ℕ, ls.head? ≠ some 0 → ls.dropWhile (· = 0) = ls := by
    intro ls hls
    cases ls with
    | nil => rfl
    | cons l ls => exact dropWhile_cons_of_neg (by simpa using hls)
  rw [← hdrop ds hd, ← hdrop es he, dropWhile_eq_digits hb hds, dropWhile_eq_digits hb hes, h]

end Value

section Groups
variable {α β : Type*} {b k n : ℕ}

def chunks (k : ℕ) : ℕ → List α → List (List α)
  | 0, _ => []
  | n + 1, s => s.take k :: chunks k n (s.drop k)

@[simp] theorem length_chunks (s : List α) : (chunks k n s).length = n := by
  induction n generalizing s with
  | zero => rfl
  | succ n ih => rw [chunks, length_cons, ih]

theorem map_chunks (f : α → β) (s : List α) : (chunks k n s).map (List.map f) = chunks k n (s.map f) := by
  induction n generalizing s with
  | zero => rfl
  | succ n ih => rw [chunks, map_cons, ih, map_take, map_drop, chunks]

theorem length_of_mem_chunks {s t : List α} (h : t ∈ chunks k n s) : t.length ≤ k ∧ t ⊆ s := by
  induction n generalizing s with
  | zero => cases h
  | succ n ih =>
    rcases mem_cons.1 h with rfl | h
    · exact ⟨length_take_le .., take_subset ..⟩
    · exact ⟨(ih h).1, List.Subset.trans (ih h).2 (drop_subset ..)⟩

theorem value_chunks {ds : List ℕ} (h : ds.length = k * n) :
    value (b ^ k) ((chunks k n ds).map (value b)) = value b ds := by
  induction n generalizing ds with
  | zero =>
    rw [length_eq_zero_iff.1 h]
    rfl
  | succ n ih =>
    have hlength : (ds.drop k).length = k * n := by
      rw [length_drop, h, Nat.mul_succ, Nat.add_sub_cancel]
    rw [chunks, map_cons, value_cons, ih hlength, length_map, length_chunks, ← pow_mul, ← hlength,
      ← value_append, take_append_drop]

end Groups

section Words
variable {α : Type*} (sep : α) {ws vs : List (List α)}

def spaced (ws : List (List α)) : List α := ws.flatMap (sep :: ·)

def joined (ws : List (List α)) : List α := [sep].intercalate ws

theorem spaced_append : spaced sep (ws ++ vs) = spaced sep ws ++ spaced sep vs := flatMap_append ..

theorem joined_cons (w : List α) : joined sep (w :: ws) = w ++ spaced sep ws := by
  induction ws generalizing w with
  | nil => simp [joined, spaced]
  | cons v ws ih =>
    have hcons : joined sep (w :: v :: ws) = w ++ [sep] ++ joined sep (v :: ws) := intercalate_cons_cons
    rw [hcons, ih]
    simp [spaced]

theorem spaced_cons (w : List α) : spaced sep (w :: ws) = sep :: joined sep (w :: ws) := by
  rw [joined_cons]
  rfl

theorem spaced_eq (h : ws ≠ []) : spaced sep ws = sep :: joined sep ws := by
  obtain ⟨w, ws, rfl⟩ := exists_cons_of_ne_nil h
  exact spaced_cons sep w

theorem joined_append (h : ws ≠ []) : joined sep (ws ++ vs) = joined sep ws ++ spaced sep vs := by
  obtain ⟨w, ws, rfl⟩ := exists_cons_of_ne_nil h
  rw [cons_append, joined_cons, joined_cons, spaced_append, append_assoc]

theorem length_spaced_le {k : ℕ} (h : ∀ w ∈ ws, w.length ≤ k) : (spaced sep ws).length ≤ (k + 1) * ws.length := by
  induction ws with
  | nil => exact Nat.zero_le _
  | cons w ws ih =>
    obtain ⟨hw, hws⟩ := forall_mem_cons.1 h
    have hcons : spaced sep (w :: ws) = sep :: (w ++ spaced sep ws) := rfl
    have hrest := ih hws
    rw [hcons, length_cons, length_append, length_cons, Nat.mul_succ]
    omega

theorem eq_of_joined_eq [DecidableEq α] (hws : ∀ w ∈ ws, sep ∉ w) (hvs : ∀ w ∈ vs, sep ∉ w) (hne : ws ≠ [])
    (hne' : vs ≠ []) (h : joined sep ws = joined sep vs) : ws = vs := by
  rw [← splitOn_intercalate sep hws hne, ← splitOn_intercalate sep hvs hne']
  exact congrArg (List.splitOn sep) h

end Words
end Prj.Base
