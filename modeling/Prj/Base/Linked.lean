import Prj.Base.Chain
import Mathlib.Data.List.Dedup

/-! Linked lists in a memory. -/
namespace Prj.Base
open List Option

structure Node (L α : Type) where
  val : α
  next : Option L

namespace Node
variable {L α : Type}

/-- The values from `l` on, if there are at most `k`. -/
def follow (m : L → Option (Node L α)) : ℕ → L → Option (List α)
  | 0, _ => none
  | k + 1, l =>
    match m l with
    | none => none
    | some nd =>
      match nd.next with
      | none => some [nd.val]
      | some l' => (follow m k l').map (nd.val :: ·)

def nexts (m : L → Option (Node L α)) (l : L) : Option L := (m l).bind next

def Path (m : L → Option (Node L α)) : List L → Prop
  | [] => True
  | l :: ls => (∃ a, m l = some ⟨a, ls.head?⟩) ∧ Path m ls

/-- `k` links can be followed from `l`. -/
def Long (nx : L → Option L) : ℕ → L → Prop
  | 0, _ => True
  | k + 1, l => ∃ l', nx l = some l' ∧ Long nx k l'

section
variable {m m' : L → Option (Node L α)} {l : L} {ls : List L} {as as' : List α} {j k : ℕ}

theorem follow_mono (h : follow m k l = some as) : follow m (k + 1) l = some as := by
  induction k generalizing l as with
  | zero => simp [follow] at h
  | succ k ih =>
    rw [follow] at h ⊢
    split at h
    · simp at h
    next nd _ =>
      split at h
      · exact h
      next l' _ =>
        obtain ⟨rest, hrest, rfl⟩ := map_eq_some_iff.mp h
        rw [ih hrest, map_some]

theorem follow_le (hjk : j ≤ k) (h : follow m j l = some as) : follow m k l = some as := by
  induction hjk with
  | refl => exact h
  | step _ ih => exact follow_mono ih

theorem follow_unique (h : follow m j l = some as) (h' : follow m k l = some as') : as = as' := by
  have hmax := follow_le (Nat.le_max_left j k) h
  rw [follow_le (Nat.le_max_right j k) h'] at hmax
  exact (some.inj hmax).symm

theorem Path.congr (h : Path m ls) (hm : ∀ l ∈ ls, m' l = m l) : Path m' ls := by
  induction ls with
  | nil => trivial
  | cons l ls ih =>
    obtain ⟨⟨a, ha⟩, hrest⟩ := h
    exact ⟨⟨a, (hm l (by simp)).trans ha⟩, ih hrest fun l' hl' => hm l' (by simp [hl'])⟩

theorem Path.isSome (h : Path m ls) (hl : l ∈ ls) : (m l).isSome := by
  induction ls with
  | nil => cases hl
  | cons l' ls ih =>
    obtain ⟨⟨a, ha⟩, hrest⟩ := h
    rcases mem_cons.1 hl with rfl | hl
    · rw [ha]
      rfl
    · exact ih hrest hl

end

section Update
variable [DecidableEq L]

def setNext (m : L → Option (Node L α)) (l : L) (next : Option L) : L → Option (Node L α) :=
  Function.update m l ((m l).map fun nd => ⟨nd.val, next⟩)

def link (m : L → Option (Node L α)) : List L → L → Option (Node L α)
  | [] => m
  | l :: ls => link (setNext m l ls.head?) ls

/-- Links from each address to the one behind it. -/
def relink (nx : L → Option L) : List L → L → Option L
  | [] => nx
  | l :: ls => relink (Function.update nx l ls.head?) ls

/-- Write the values along the links from an address; `none` if the links end first. -/
def fill : (L → Option (Node L α)) → List α → Option L → Option (L → Option (Node L α))
  | m, [], _ => some m
  | _, _ :: _, none => none
  | m, a :: as, some l =>
    match m l with
    | none => none
    | some nd => fill (Function.update m l (some ⟨a, nd.next⟩)) as nd.next

variable {m m' : L → Option (Node L α)} {l : L} {ls : List L} {a : α} {as : List α} {k : ℕ}

theorem link_of_notMem (h : l ∉ ls) : link m ls l = m l := by
  induction ls generalizing m with
  | nil => rfl
  | cons l' ls ih =>
    simp only [mem_cons, not_or] at h
    rw [link, ih h.2, setNext, Function.update_of_ne h.1]

theorem path_link (hnodup : ls.Nodup) (hm : ∀ l ∈ ls, (m l).isSome) : Path (link m ls) ls := by
  induction ls generalizing m with
  | nil => trivial
  | cons l ls ih =>
    rw [nodup_cons] at hnodup
    obtain ⟨nd, hnd⟩ := isSome_iff_exists.mp (hm l (by simp))
    refine ⟨⟨nd.val, ?_⟩, ih hnodup.2 fun l' hl' => ?_⟩
    · rw [link, link_of_notMem hnodup.1, setNext, Function.update_self, hnd, map_some]
    · have hne : l' ≠ l := fun heq => hnodup.1 (heq ▸ hl')
      rw [setNext, Function.update_of_ne hne]
      exact hm l' (by simp [hl'])

theorem link_of_path (h : Path m ls) : link m ls = m := by
  induction ls with
  | nil => rfl
  | cons l ls ih =>
    obtain ⟨⟨a, ha⟩, hrest⟩ := h
    rw [link, setNext, ha, map_some, ← ha, Function.update_eq_self, ih hrest]

theorem relink_of_notMem {nx : L → Option L} (h : l ∉ ls) : relink nx ls l = nx l := by
  induction ls generalizing nx with
  | nil => rfl
  | cons l' ls ih =>
    simp only [mem_cons, not_or] at h
    rw [relink, ih h.2, Function.update_of_ne h.1]

theorem chain_relink {nx : L → Option L} (hnodup : ls.Nodup) : Chain (relink nx ls) ls.head? ls := by
  induction ls generalizing nx with
  | nil => rfl
  | cons l ls ih =>
    rw [nodup_cons] at hnodup
    refine ⟨rfl, ?_⟩
    rw [relink, relink_of_notMem hnodup.1, Function.update_self]
    exact ih hnodup.2

theorem exists_fill (hpath : Path m ls) (hnodup : ls.Nodup) (hlen : as.length = ls.length) :
    ∃ m', fill m as ls.head? = some m' ∧ (∀ l ∉ ls, m' l = m l) ∧ Path m' ls ∧
      ∀ l ∈ ls.head?, follow m' as.length l = some as := by
  induction ls generalizing m as with
  | nil =>
    rw [length_nil, length_eq_zero_iff] at hlen
    exact ⟨m, by rw [hlen]; rfl, fun _ _ => rfl, trivial, by simp⟩
  | cons l ls ih =>
    obtain ⟨a, as, rfl⟩ := exists_cons_of_length_eq_add_one hlen
    obtain ⟨⟨old, hl⟩, hrest⟩ := hpath
    rw [nodup_cons] at hnodup
    have hother : ∀ l' ∈ ls, Function.update m l (some ⟨a, ls.head?⟩) l' = m l' := by
      intro l' hl'
      exact Function.update_of_ne (ne_of_mem_of_not_mem hl' hnodup.1) _ _
    obtain ⟨m', hfill, hframe, hpath, hfollow⟩ := ih (hrest.congr hother) hnodup.2 (by simpa using hlen)
    have hself : m' l = some ⟨a, ls.head?⟩ := by
      rw [hframe l hnodup.1, Function.update_self]
    refine ⟨m', by simpa only [head?_cons, fill, hl] using hfill, fun l' hl' => ?_, ⟨⟨a, hself⟩, hpath⟩,
      fun l' hl' => ?_⟩
    · simp only [mem_cons, not_or] at hl'
      rw [hframe l' hl'.2, Function.update_of_ne hl'.1]
    · obtain rfl : l = l' := by simpa using hl'
      rw [length_cons, follow, hself]
      cases ls with
      | nil =>
        obtain rfl : as = [] := by simpa using hlen
        rfl
      | cons l' ls => simp only [head?_cons, hfollow l' rfl, map_some]

theorem nexts_update_val {nd : Node L α} (h : m l = some nd) :
    nexts (Function.update m l (some ⟨a, nd.next⟩)) = nexts m := by
  funext l'
  by_cases hl : l' = l
  · rw [hl, nexts, Function.update_self, nexts, h]
    rfl
  · rw [nexts, Function.update_of_ne hl, nexts]

theorem long_of_fill (h : fill m (a :: as) (some l) = some m') : Long (nexts m) as.length l := by
  induction as generalizing m l a with
  | nil => trivial
  | cons a' as ih =>
    rw [fill] at h
    split at h
    · exact absurd h (by simp)
    next nd hnd =>
      cases hnext : nd.next with
      | none => simp [hnext, fill] at h
      | some l' =>
        rw [hnext] at h
        have hlong := ih h
        rw [← hnext, nexts_update_val hnd] at hlong
        exact ⟨l', by rw [nexts, hnd, bind_some, hnext], hlong⟩

theorem lt_length_dedup_of_long (hl : l ∈ ls) (h : Long (nexts (link m ls)) k l) : k < ls.dedup.length := by
  induction ls generalizing m l k with
  | nil => simp at hl
  | cons l0 ls ih =>
    by_cases hmem : l ∈ ls
    · have hk := ih hmem h
      by_cases h0 : l0 ∈ ls
      · rwa [dedup_cons_of_mem h0]
      · rw [dedup_cons_of_notMem h0, length_cons]
        omega
    · obtain rfl : l = l0 := by simpa [hmem] using hl
      rw [dedup_cons_of_notMem hmem, length_cons]
      cases k with
      | zero => omega
      | succ k =>
        obtain ⟨l', hnext, hlong⟩ := h
        rw [nexts, link, link_of_notMem hmem, setNext, Function.update_self] at hnext
        have hl' : l' ∈ ls := by
          cases hm : m l <;> rw [hm] at hnext
          · simp at hnext
          · exact mem_of_mem_head? hnext
        have := ih hl' hlong
        omega

theorem nodup_of_fill_link (hlen : as.length = ls.length) (h : fill (link m ls) as ls.head? = some m') : ls.Nodup := by
  cases ls with
  | nil => exact nodup_nil
  | cons l ls =>
    obtain ⟨a, as, rfl⟩ := exists_cons_of_length_eq_add_one hlen
    have hlt := lt_length_dedup_of_long (mem_cons_self) (long_of_fill h)
    have hsub := dedup_sublist (l :: ls)
    have heq : (l :: ls).dedup = l :: ls := hsub.eq_of_length_le (by
      simp only [length_cons] at hlen ⊢
      omega)
    exact heq ▸ nodup_dedup _

end Update
end Node
end Prj.Base
