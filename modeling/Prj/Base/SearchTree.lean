import Mathlib.Data.List.Nodup
import Mathlib.Data.Tree.Basic
import Mathlib.Order.Lattice

/-! Binary search trees, and how they are kept in a memory. -/
namespace Prj.Base
open Function List Option

structure Fork (L α : Type) where
  val : α
  left : Option L
  right : Option L
  deriving DecidableEq, Repr

section Pure
variable {α κ : Type} [LinearOrder κ] {key : α → κ} {x : α} {t : BinaryTree α}

def inorder : BinaryTree α → List α
  | .nil => []
  | .node a l r => inorder l ++ a :: inorder r

def Ordered (key : α → κ) : BinaryTree α → Prop
  | .nil => True
  | .node a l r =>
    (∀ b ∈ inorder l, key b < key a) ∧ (∀ b ∈ inorder r, key a < key b) ∧ Ordered key l ∧ Ordered key r

def insertTree (key : α → κ) (x : α) : BinaryTree α → BinaryTree α
  | .nil => .node x .nil .nil
  | .node a l r => if key x < key a then .node a (insertTree key x l) r else .node a l (insertTree key x r)

theorem inorder_insertTree_perm (key : α → κ) (x : α) (t : BinaryTree α) :
    (inorder (insertTree key x t)).Perm (x :: inorder t) := by
  induction t with
  | nil => exact .refl _
  | node a l r ihl ihr =>
    rw [insertTree]
    split_ifs
    · exact ihl.append_right _
    · have hright : (a :: inorder (insertTree key x r)).Perm (x :: a :: inorder r) :=
        (ihr.cons a).trans (.swap ..)
      exact (hright.append_left _).trans perm_middle

theorem insertTree_node (key : α → κ) (x a : α) (l r : BinaryTree α) :
    ∃ l' r', insertTree key x (.node a l r) = .node a l' r' := by
  rw [insertTree]
  split_ifs
  · exact ⟨_, r, rfl⟩
  · exact ⟨l, _, rfl⟩

theorem Ordered.insertTree (h : Ordered key t) (hx : ∀ b ∈ inorder t, key b ≠ key x) :
    Ordered key (insertTree key x t) := by
  induction t with
  | nil => exact ⟨by simp [inorder], by simp [inorder], trivial, trivial⟩
  | node a l r ihl ihr =>
    obtain ⟨hl, hr, hol, hor⟩ := h
    simp only [inorder, forall_mem_append, forall_mem_cons] at hx
    obtain ⟨hxl, hxa, hxr⟩ := hx
    rw [Base.insertTree]
    split_ifs with hlt
    · refine ⟨fun b hb => ?_, hr, ihl hol hxl, hor⟩
      rcases mem_cons.1 ((inorder_insertTree_perm ..).mem_iff.1 hb) with rfl | hb
      · exact hlt
      · exact hl b hb
    · refine ⟨hl, fun b hb => ?_, hol, ihr hor hxr⟩
      rcases mem_cons.1 ((inorder_insertTree_perm ..).mem_iff.1 hb) with rfl | hb
      · exact lt_of_le_of_ne (not_lt.1 hlt) hxa
      · exact hr b hb

variable {a e : α} {l r : BinaryTree α}

section
variable (h : Ordered key (.node a l r)) (hmem : e ∈ inorder (.node a l r))
include h hmem

theorem Ordered.mem_left (hlt : key e < key a) : e ∈ inorder l := by
  obtain ⟨-, habove, -, -⟩ := h
  rcases mem_append.1 hmem with hmem | hmem
  · exact hmem
  rcases mem_cons.1 hmem with rfl | hmem
  · exact absurd hlt (lt_irrefl _)
  · exact absurd hlt (habove e hmem).not_gt

theorem Ordered.mem_right (hlt : key a < key e) : e ∈ inorder r := by
  obtain ⟨hbelow, -, -, -⟩ := h
  rcases mem_append.1 hmem with hmem | hmem
  · exact absurd hlt (hbelow e hmem).not_gt
  rcases mem_cons.1 hmem with rfl | hmem
  · exact absurd hlt (lt_irrefl _)
  · exact hmem

theorem Ordered.eq_of_key_eq (heq : key e = key a) : e = a := by
  obtain ⟨hbelow, habove, -, -⟩ := h
  rcases mem_append.1 hmem with hmem | hmem
  · exact absurd heq (hbelow e hmem).ne
  rcases mem_cons.1 hmem with rfl | hmem
  · rfl
  · exact absurd heq (habove e hmem).ne'

end

def searchTree (key : α → κ) (k : κ) : BinaryTree α → Option α
  | .nil => none
  | .node a l r => if key a = k then some a else if k < key a then searchTree key k l else searchTree key k r

theorem Ordered.searchTree_of_mem (h : Ordered key t) (hx : x ∈ inorder t) : searchTree key (key x) t = some x := by
  induction t with
  | nil => cases hx
  | node a l r ihl ihr =>
    obtain ⟨-, -, hol, hor⟩ := id h
    unfold searchTree
    rcases lt_trichotomy (key x) (key a) with hlt | heq | hgt
    · rw [if_neg hlt.ne', if_pos hlt, ihl hol (h.mem_left hx hlt)]
    · rw [if_pos heq.symm, h.eq_of_key_eq hx heq]
    · rw [if_neg hgt.ne, if_neg hgt.not_gt, ihr hor (h.mem_right hx hgt)]

theorem searchTree_eq_none {k : κ} (hk : ∀ b ∈ inorder t, key b ≠ k) : searchTree key k t = none := by
  induction t with
  | nil => rfl
  | node a l r ihl ihr =>
    simp only [inorder, forall_mem_append, forall_mem_cons] at hk
    unfold searchTree
    rw [if_neg hk.2.1, ihl hk.1, ihr hk.2.2, ite_self]

theorem Ordered.pairwise_inorder (h : Ordered key t) : (inorder t).Pairwise (key · < key ·) := by
  induction t with
  | nil => exact .nil
  | node a l r ihl ihr =>
    obtain ⟨hl, hr, hol, hor⟩ := h
    refine pairwise_append.2 ⟨ihl hol, pairwise_cons.2 ⟨hr, ihr hor⟩, fun b hb c hc => ?_⟩
    rcases mem_cons.1 hc with rfl | hc
    · exact hl b hb
    · exact (hl b hb).trans (hr c hc)

end Pure

section Memory
variable {L α : Type} {m m' : L → Option (Fork L α)} {p s : Option L} {y : L} {t l r : BinaryTree (L × α)} {a e : L × α}
  {x : L}

/-- The tree from `p` on, with the address of each value. -/
def Holds (m : L → Option (Fork L α)) : Option L → BinaryTree (L × α) → Prop
  | p, .nil => p = none
  | p, .node x l r =>
    p = some x.1 ∧ ∃ left right, m x.1 = some ⟨x.2, left, right⟩ ∧ Holds m left l ∧ Holds m right r

def addresses (t : BinaryTree (L × α)) : List L := (inorder t).map Prod.fst

@[simp] theorem addresses_nil : addresses (.nil : BinaryTree (L × α)) = [] := rfl

@[simp] theorem addresses_node : addresses (.node a l r) = addresses l ++ a.1 :: addresses r := by
  simp [addresses, inorder]

theorem nodup_addresses_node : (addresses (.node a l r)).Nodup ↔ (addresses l).Nodup ∧
    (addresses r).Nodup ∧ a.1 ∉ addresses l ∧ a.1 ∉ addresses r ∧ (addresses l).Disjoint (addresses r) := by
  rw [addresses_node, nodup_append', nodup_cons, disjoint_cons_right]
  tauto

theorem addresses_ne_nil (ht : t ≠ .nil) : addresses t ≠ [] := by
  cases t with
  | nil => exact absurd rfl ht
  | node a l r => simp

theorem getLast?_addresses_node (hr : r ≠ .nil) : (addresses (.node a l r)).getLast? = (addresses r).getLast? := by
  rw [addresses_node, getLast?_append_of_ne_nil _ (cons_ne_nil _ _), getLast?_cons_of_ne_nil (addresses_ne_nil hr)]

/-- Following the children from `p` comes to `y`. -/
inductive Reaches (m : L → Option (Fork L α)) : Option L → L → Prop
  | here {y : L} : Reaches m (some y) y
  | left {x y : L} {f : Fork L α} : m x = some f → Reaches m f.left y → Reaches m (some x) y
  | right {x y : L} {f : Fork L α} : m x = some f → Reaches m f.right y → Reaches m (some x) y

theorem Holds.congr (h : Holds m p t) (hm : ∀ x ∈ addresses t, m' x = m x) : Holds m' p t := by
  induction t generalizing p with
  | nil => exact h
  | node a l r ihl ihr =>
    simp only [addresses_node, forall_mem_append, forall_mem_cons] at hm
    obtain ⟨hp, left, right, ha, hl, hr⟩ := h
    exact ⟨hp, left, right, hm.2.1.trans ha, ihl hl hm.1, ihr hr hm.2.2⟩

theorem Holds.update [DecidableEq L] {f : Option (Fork L α)} (h : Holds m p t) (hx : x ∉ addresses t) :
    Holds (update m x f) p t := by
  refine h.congr fun q hq => update_of_ne ?_ _ _
  rintro rfl
  exact hx hq

theorem Holds.leaf {v : α} (h : m x = some ⟨v, none, none⟩) : Holds m (some x) (.node (x, v) .nil .nil) :=
  ⟨rfl, none, none, h, rfl, rfl⟩

theorem Holds.eq_nil (h : Holds m none t) : t = .nil := by
  cases t with
  | nil => rfl
  | node a l r => cases h.1

theorem Holds.eq_some_of_mem (h : Holds m p t) (he : e ∈ inorder t) : ∃ x, p = some x := by
  cases t with
  | nil => cases he
  | node a l r => exact ⟨a.1, h.1⟩

theorem Holds.isSome_of_reaches (h : Holds m p t) (hy : Reaches m p y) : (m y).isSome = true := by
  induction hy generalizing t with
  | here =>
    cases t with
    | nil => cases h
    | node a l r =>
      obtain ⟨hp, left, right, ha, -, -⟩ := h
      rw [some.inj hp, ha, isSome_some]
  | left hx hy ih =>
    cases t with
    | nil => cases h
    | node a l r =>
      obtain ⟨hp, left, right, ha, hl, -⟩ := h
      obtain rfl := some.inj (hx.symm.trans ((some.inj hp) ▸ ha))
      exact ih hl
  | right hx hy ih =>
    cases t with
    | nil => cases h
    | node a l r =>
      obtain ⟨hp, left, right, ha, -, hr⟩ := h
      obtain rfl := some.inj (hx.symm.trans ((some.inj hp) ▸ ha))
      exact ih hr

/-- A tree whose last node is linked to `s` on its right. -/
def HoldsTo (m : L → Option (Fork L α)) : Option L → BinaryTree (L × α) → Option L → Prop
  | p, .nil, s => p = s
  | p, .node x l r, s =>
    p = some x.1 ∧ ∃ left right, m x.1 = some ⟨x.2, left, right⟩ ∧ Holds m left l ∧ HoldsTo m right r s

theorem holdsTo_none : HoldsTo m p t none ↔ Holds m p t := by
  induction t generalizing p with
  | nil => exact Iff.rfl
  | node a l r _ ihr => simp only [HoldsTo, Holds, ihr]

theorem HoldsTo.exists_last [DecidableEq L] (h : HoldsTo m p t s) (hnodup : (addresses t).Nodup)
    (ht : t ≠ .nil) : ∃ x f, (addresses t).getLast? = some x ∧ m x = some f ∧ f.right = s ∧
      ∀ s', HoldsTo (update m x (some { f with right := s' })) p t s' := by
  induction t generalizing p with
  | nil => exact absurd rfl ht
  | node a l r _ ihr =>
    obtain ⟨hp, left, right, ha, hl, hr⟩ := h
    obtain ⟨-, hndr, hal, har, hdisj⟩ := nodup_addresses_node.1 hnodup
    cases r with
    | nil =>
      refine ⟨a.1, _, by simp, ha, hr, fun s' => ⟨hp, left, s', update_self .., hl.update hal, rfl⟩⟩
    | node b rl rr =>
      obtain ⟨x, f, hlast, hx, hf, hset⟩ := ihr hr hndr (by simp)
      have hmem : x ∈ addresses (.node b rl rr) := mem_of_getLast? hlast
      refine ⟨x, f, ?_, hx, hf, fun s' => ⟨hp, left, right, ?_, hl.update fun hxl => hdisj hxl hmem, hset s'⟩⟩
      · rw [getLast?_addresses_node (by simp), hlast]
      · rw [update_of_ne (by rintro rfl; exact har hmem), ha]

end Memory
end Prj.Base
