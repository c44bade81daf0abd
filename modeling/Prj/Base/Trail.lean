import Prj.Base.Chain
import Prj.Base.Linked

/-! Linked lists with their values, in a memory where nodes are allocated and freed. -/
namespace Prj.Base
open Function List Option

variable {L α : Type} {m m' : L → Option (Node L α)} {p q r next : Option L} {x y : L} {a b : α} {xs ys : List (L × α)}

/-- From `p` the nodes `xs` are met, with their values, before `q`. -/
def Trail (m : L → Option (Node L α)) : Option L → List (L × α) → Option L → Prop
  | p, [], q => p = q
  | p, x :: xs, q => p = some x.1 ∧ ∃ next, m x.1 = some ⟨x.2, next⟩ ∧ Trail m next xs q

@[simp] theorem trail_nil : Trail m p [] q ↔ p = q := Iff.rfl

@[simp] theorem trail_cons : Trail m p ((x, a) :: xs) q ↔
    p = some x ∧ ∃ next, m x = some ⟨a, next⟩ ∧ Trail m next xs q := Iff.rfl

theorem trail_append : Trail m p (xs ++ ys) r ↔ ∃ q, Trail m p xs q ∧ Trail m q ys r := by
  induction xs generalizing p with
  | nil => simp
  | cons x xs ih =>
    obtain ⟨x, a⟩ := x
    simp only [cons_append, trail_cons, ih]
    constructor
    · rintro ⟨hp, next, hx, q, hxs, hys⟩
      exact ⟨q, ⟨hp, next, hx, hxs⟩, hys⟩
    · rintro ⟨q, ⟨hp, next, hx, hxs⟩, hys⟩
      exact ⟨hp, next, hx, q, hxs, hys⟩

namespace Trail

theorem congr (h : Trail m p xs q) (hm : ∀ x ∈ xs.map Prod.fst, m' x = m x) : Trail m' p xs q := by
  induction xs generalizing p with
  | nil => exact h
  | cons x xs ih =>
    obtain ⟨x, a⟩ := x
    obtain ⟨hp, next, hx, hxs⟩ := h
    refine ⟨hp, next, (hm x (by simp)).trans hx, ih hxs fun y hy => hm y (by simp [hy])⟩

theorem unique (hx : Trail m p xs none) (hy : Trail m p ys none) : xs = ys := by
  induction xs generalizing p ys with
  | nil =>
    cases ys with
    | nil => rfl
    | cons y ys => exact absurd (hx.symm.trans hy.1) (by simp)
  | cons x xs ih =>
    obtain ⟨hp, next, hm, hxs⟩ := hx
    cases ys with
    | nil => exact absurd (hp.symm.trans hy) (by simp)
    | cons y ys =>
      obtain ⟨hp', next', hm', hys⟩ := hy
      have hfst : x.1 = y.1 := some.inj (hp.symm.trans hp')
      rw [← hfst, hm, some.injEq, Node.mk.injEq] at hm'
      obtain ⟨hsnd, rfl⟩ := hm'
      rw [Prod.ext hfst hsnd, ih hxs hys]

theorem chain (h : Trail m p xs none) : Chain (Node.nexts m) p (xs.map Prod.fst) := by
  induction xs generalizing p with
  | nil => exact h
  | cons x xs ih =>
    obtain ⟨hp, next, hx, hxs⟩ := h
    refine ⟨hp, ?_⟩
    rw [Node.nexts, hx]
    exact ih hxs

theorem nodup (h : Trail m p xs none) : (xs.map Prod.fst).Nodup := h.chain.nodup

theorem val_of_mem {x : L × α} (h : Trail m p xs q) (hx : x ∈ xs) : (m x.1).map Node.val = some x.2 := by
  induction xs generalizing p with
  | nil => cases hx
  | cons y ys ih =>
    obtain ⟨hp, next, hy, hys⟩ := h
    rcases mem_cons.1 hx with rfl | hx
    · rw [hy]
      rfl
    · exact ih hys hx

theorem isSome_of_mem (h : Trail m p xs q) (hx : x ∈ xs.map Prod.fst) : (m x).isSome = true := by
  obtain ⟨y, hy, rfl⟩ := List.mem_map.1 hx
  rw [← Option.isSome_map, h.val_of_mem hy]
  rfl

section
variable [DecidableEq L] {next : Option L} (h : Trail m p ((x, a) :: xs) none) (hx : m x = some ⟨a, next⟩)
include h hx

theorem tail_update (v : Option (Node L α)) : Trail (update m x v) next xs none := by
  have hnotin : x ∉ xs.map Prod.fst := (nodup_cons.1 h.nodup).1
  obtain ⟨hp, next', hx', hxs⟩ := h
  obtain rfl : next = next' := by simpa [hx] using hx'
  refine hxs.congr fun y hy => update_of_ne ?_ _ _
  rintro rfl
  exact hnotin hy

theorem set_head : Trail (update m x (some ⟨b, next⟩)) p ((x, b) :: xs) none :=
  ⟨h.1, next, by simp, h.tail_update hx _⟩

end

theorem snoc [DecidableEq L] (h : Trail m p (xs ++ [(x, a)]) none) (hy : m y = none) :
    Trail (update (update m x (some ⟨a, some y⟩)) y (some ⟨b, none⟩)) p (xs ++ [(x, a), (y, b)]) none := by
  have hnodup := h.nodup
  have hnoty : y ∉ (xs ++ [(x, a)]).map Prod.fst := fun hmem => by simpa [hy] using h.isSome_of_mem hmem
  simp only [map_append, map_cons, map_nil, mem_append, mem_singleton, not_or] at hnoty
  obtain ⟨hyxs, hyx⟩ := hnoty
  rw [map_append, nodup_append] at hnodup
  obtain ⟨q, hxs, hq, next, hx, hnext⟩ := trail_append.1 h
  refine trail_append.2 ⟨q, hxs.congr fun z hz => ?_, hq, some y, ?_, rfl, none, by simp, rfl⟩
  · have hzy : z ≠ y := fun heq => hyxs (heq ▸ hz)
    have hzx : z ≠ x := hnodup.2.2 z hz x (by simp)
    rw [update_of_ne hzy, update_of_ne hzx]
  · rw [update_of_ne (Ne.symm hyx), update_self]

theorem unlink [DecidableEq L] (h : Trail m p (xs ++ (x, a) :: (y, b) :: ys) none) (hy : m y = some ⟨b, next⟩) :
    Trail (update (update m x (some ⟨a, next⟩)) y none) p (xs ++ (x, a) :: ys) none := by
  have hnodup := h.nodup
  simp only [map_append, map_cons, nodup_append, nodup_cons, mem_cons, not_or] at hnodup
  obtain ⟨-, ⟨⟨hxy, hxys⟩, hyys, -⟩, hdisj⟩ := hnodup
  obtain ⟨q, hxs, hq, next', hx, hq', next'', hy', hys⟩ := trail_append.1 h
  obtain rfl : next = next'' := by simpa [hy] using hy'
  refine trail_append.2 ⟨q, hxs.congr fun z hz => ?_, hq, next, ?_, hys.congr fun z hz => ?_⟩
  · rw [update_of_ne (hdisj z hz y (by simp)), update_of_ne (hdisj z hz x (by simp))]
  · rw [update_of_ne hxy, update_self]
  · have hzy : z ≠ y := fun heq => hyys (heq ▸ hz)
    have hzx : z ≠ x := fun heq => hxys (heq ▸ hz)
    rw [update_of_ne hzy, update_of_ne hzx]

end Trail

section Map
variable [DecidableEq L] (f : α → α)

/-- Change the values in their places, from `p` on. -/
def mapLoop : ℕ → (L → Option (Node L α)) → Option L → Option (L → Option (Node L α))
  | 0, _, _ => none
  | _ + 1, m, none => some m
  | fuel + 1, m, some x => do
    let nd ← m x
    mapLoop fuel (update m x (some ⟨f nd.val, nd.next⟩)) nd.next

variable {fuel : ℕ}

theorem Trail.mapLoop (h : Trail m p xs none) (hfuel : xs.length < fuel) :
    ∃ m', mapLoop f fuel m p = some m' ∧ Trail m' p (xs.map fun x => (x.1, f x.2)) none ∧
      ∀ y ∉ xs.map Prod.fst, m' y = m y := by
  induction xs generalizing m p fuel with
  | nil =>
    obtain ⟨fuel, rfl⟩ := Nat.exists_eq_succ_of_ne_zero (Nat.ne_zero_of_lt hfuel)
    obtain rfl : p = none := h
    exact ⟨m, rfl, rfl, fun y _ => rfl⟩
  | cons x xs ih =>
    obtain ⟨x, a⟩ := x
    obtain ⟨fuel, rfl⟩ := Nat.exists_eq_succ_of_ne_zero (Nat.ne_zero_of_lt hfuel)
    have hnotin : x ∉ xs.map Prod.fst := (nodup_cons.1 h.nodup).1
    obtain ⟨rfl, next, hx, -⟩ := id h
    obtain ⟨m', hrun, htrail, hframe⟩ := ih (h.tail_update hx (some ⟨f a, next⟩)) (Nat.lt_of_succ_lt_succ hfuel)
    refine ⟨m', ?_, ⟨rfl, next, ?_, htrail⟩, fun y hy => ?_⟩
    · rw [Base.mapLoop]
      simp only [hx, bind_eq_bind, bind_some, hrun]
    · rw [hframe x hnotin, update_self]
    · simp only [map_cons, mem_cons, not_or] at hy
      rw [hframe y hy.2, update_of_ne hy.1]

end Map
end Prj.Base
