import Mathlib.Data.List.Nodup

/-! Singly linked lists kept in a map of successors. A node may be written while another list runs
through the same map, so every lemma says which nodes a write leaves alone. -/
namespace Prj.Base
open Function List

variable {α : Type*} {f g : α → Option α} {p q r : Option α} {x y : α} {xs ys : List α}

/-- Following `f` from `p` meets `xs` and then ends. -/
def Chain (f : α → Option α) : Option α → List α → Prop
  | p, [] => p = none
  | p, x :: xs => p = some x ∧ Chain f (f x) xs

@[simp] theorem chain_nil : Chain f p [] ↔ p = none := Iff.rfl

@[simp] theorem chain_cons : Chain f p (x :: xs) ↔ p = some x ∧ Chain f (f x) xs := Iff.rfl

/-- Following `f` from `p` meets `xs` and arrives at `q`. -/
def Seg (f : α → Option α) : Option α → List α → Option α → Prop
  | p, [], q => p = q
  | p, x :: xs, q => p = some x ∧ Seg f (f x) xs q

namespace Seg

theorem append (hx : Seg f p xs q) (hy : Seg f q ys r) : Seg f p (xs ++ ys) r := by
  induction xs generalizing p with
  | nil => exact (show p = q from hx) ▸ hy
  | cons x xs ih => exact ⟨hx.1, ih hx.2⟩

theorem congr (h : Seg f p xs q) (hfg : ∀ x ∈ xs, g x = f x) : Seg g p xs q := by
  induction xs generalizing p with
  | nil => exact h
  | cons x xs ih =>
    refine ⟨h.1, ?_⟩
    rw [hfg x (by simp)]
    exact ih h.2 fun y hy => hfg y (by simp [hy])

theorem chain_iff : Seg f p xs none ↔ Chain f p xs := by
  induction xs generalizing p with
  | nil => rfl
  | cons x xs ih => exact and_congr_right fun _ => ih

end Seg

namespace Chain

theorem congr (h : Chain f p xs) (hfg : ∀ x ∈ xs, g x = f x) : Chain g p xs :=
  Seg.chain_iff.1 ((Seg.chain_iff.2 h).congr hfg)

theorem unique (hx : Chain f p xs) (hy : Chain f p ys) : xs = ys := by
  induction xs generalizing p ys with
  | nil =>
    cases ys with
    | nil => rfl
    | cons y ys => exact absurd (hx.symm.trans hy.1) (by simp)
  | cons x xs ih =>
    cases ys with
    | nil => exact absurd (hx.1.symm.trans hy) (by simp)
    | cons y ys =>
      obtain rfl := Option.some.inj (hx.1.symm.trans hy.1)
      rw [ih hx.2 hy.2]

theorem drop (h : Chain f p (xs ++ y :: ys)) : Chain f (some y) (y :: ys) := by
  induction xs generalizing p with
  | nil => exact ⟨rfl, h.2⟩
  | cons x xs ih => exact ih h.2

theorem nodup (h : Chain f p xs) : xs.Nodup := by
  induction xs generalizing p with
  | nil => exact nodup_nil
  | cons x xs ih =>
    refine nodup_cons.2 ⟨fun hmem => ?_, ih h.2⟩
    obtain ⟨as, bs, rfl⟩ := append_of_mem hmem
    have hdrop : Chain f (some x) (x :: bs) := drop h.2
    have heq := h.2.unique hdrop.2
    have hlen := congrArg List.length heq
    simp at hlen
    omega

variable [DecidableEq α]

theorem update (h : Chain f p xs) (hy : y ∉ xs) : Chain (update f y q) p xs :=
  h.congr fun x hx => update_of_ne (fun heq : x = y => hy (heq ▸ hx)) _ _

theorem push (h : Chain f p xs) (hy : y ∉ xs) : Chain (Function.update f y p) (some y) (y :: xs) := by
  refine ⟨rfl, ?_⟩
  rw [update_self]
  exact h.update hy

theorem snoc (h : Chain f p (xs ++ [x])) (hy : y ∉ xs ++ [x]) :
    Chain (Function.update (Function.update f y none) x (some y)) p (xs ++ [x, y]) := by
  induction xs generalizing p with
  | nil =>
    have hyx : y ≠ x := by simpa using hy
    simp [h.1, hyx]
  | cons a xs ih =>
    have ha : a ∉ xs ++ [x] := (nodup_cons.1 h.nodup).1
    refine ⟨h.1, ?_⟩
    have hax : a ≠ x := fun heq => ha (by simp [heq])
    have hay : a ≠ y := fun heq => hy (by simp [heq])
    rw [update_of_ne hax, update_of_ne hay]
    exact ih h.2 fun hmem => hy (mem_cons_of_mem a hmem)

end Chain
end Prj.Base
