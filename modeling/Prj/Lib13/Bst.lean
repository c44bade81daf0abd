import Mathlib.Order.Nat
import Prj.Base.SearchTree

/-!
The tree of objects (`obj13_bst_insert_node`, `obj13_bst_delete_node`, `obj13_bst_find_node` and
`obj13_bst_inorder_traversal` in `lib13/obj13.c`).

A call gives `none` where the source follows `NULL` or a freed node. `fuel` bounds the recursion.
`obj13_bst_free_node`, of which there is only a declaration, is a parameter.
The walk has no stack: the last node of a left subtree is linked to the node above while the walk is in the subtree.
The call that is made for a node is taken to leave the tree alone, and is recorded.
-/
namespace Prj.Lib13.Bst
open Prj.Base List Option
open Function

section Model
variable {Ptr : Type} [DecidableEq Ptr]

structure Obj where
  objid : UInt64
  objptr : UInt32
  deriving DecidableEq, Repr

abbrev Heap (Ptr : Type) := Ptr → Option (Fork Ptr Obj)

inductive Ret
  | ok
  | notfound
  deriving DecidableEq, Repr

def obj13BstCreateNode (h : Heap Ptr) (node : Ptr) (obj : Obj) : Heap Ptr := update h node (some ⟨obj, none, none⟩)

def obj13BstInsertNode : ℕ → Heap Ptr → Ptr → Ptr → Option (Heap Ptr)
  | 0, _, _, _ => none
  | fuel + 1, h, root, node => do
    let r ← h root
    let n ← h node
    if n.val.objid < r.val.objid then
      match r.left with
      | none => some (update h root (some { r with left := some node }))
      | some left => obj13BstInsertNode fuel h left node
    else
      match r.right with
      | none => some (update h root (some { r with right := some node }))
      | some right => obj13BstInsertNode fuel h right node

def build (root : Ptr × Obj) (nodes : List (Ptr × Obj)) : Option (Heap Ptr) :=
  nodes.foldlM (fun h node =>
      obj13BstInsertNode (nodes.length + 1) (obj13BstCreateNode h node.1 node.2) root.1 node.1)
    (obj13BstCreateNode (fun _ => none) root.1 root.2)

/-- `while(!temp->left)`, with `parent` and `temp` at its end. -/
def skipLeft : ℕ → Heap Ptr → Option Ptr → Option Ptr → Option (Option Ptr × Ptr)
  | 0, _, _, _ => none
  | fuel + 1, h, parent, temp => do
    let temp ← temp
    let n ← h temp
    match n.left with
    | none => skipLeft fuel h (some temp) n.left
    | some _ => some (parent, temp)

/-- `parent->left`, or `root->right` without a parent. -/
def replaced (h : Heap Ptr) (root : Fork Ptr Obj) : Option Ptr → Option Ptr
  | none => root.right
  | some parent => (h parent).bind Fork.left

variable (freeNode : Heap Ptr → Ptr → Heap Ptr)

/-- The assignments `root = temp` change only the parameter. -/
def obj13BstDeleteNode : ℕ → Heap Ptr → Option Ptr → UInt64 → Option (Ret × Heap Ptr)
  | 0, _, _, _ => none
  | _ + 1, h, none, _ => some (.notfound, h)
  | fuel + 1, h, some root, objid => do
    let n ← h root
    if objid < n.val.objid then
      let r ← obj13BstDeleteNode fuel h n.left objid
      some (.ok, r.2)
    else if n.val.objid < objid then
      let r ← obj13BstDeleteNode fuel h n.right objid
      some (.ok, r.2)
    else if n.left = none ∨ n.right = none then some (.ok, update (freeNode h root) root none)
    else
      let w ← skipLeft fuel h none n.right
      let temp ← h w.2
      let h := update h root (some { n with val := { n.val with objptr := temp.val.objptr } })
      let child ← replaced h n w.1
      let c ← h child
      let r ← obj13BstDeleteNode fuel h (some child) c.val.objid
      some (.ok, r.2)

end Model

section Spec
variable {Ptr : Type} [DecidableEq Ptr] (freeNode : Heap Ptr → Ptr → Heap Ptr)

/-- `obj13_bst_free_node` changes no node but the one that it is called for. -/
def FreesOnly : Prop := ∀ h p q, q ≠ p → freeNode h p q = h q

def objidOf (e : Ptr × Obj) : ℕ := e.2.objid.toNat

/-- An id that is there is taken out of the tree and the rest stays; for another one nothing changes. -/
def Deletes (h : Heap Ptr) (root : Ptr) (objs : List Obj) (objid : UInt64) : Prop :=
  if ∃ o ∈ objs, o.objid = objid then
    ∃ fuel r t, obj13BstDeleteNode freeNode fuel h (some root) objid = some r ∧ Holds r.2 (some root) t ∧
      Ordered objidOf t ∧ ∀ o, o ∈ (inorder t).map Prod.snd ↔ o ∈ objs ∧ o.objid ≠ objid
  else ∃ fuel, obj13BstDeleteNode freeNode fuel h (some root) objid = some (.notfound, h)

end Spec

section Insert
variable {Ptr : Type} [DecidableEq Ptr] {h h' : Heap Ptr} {p node : Ptr} {obj : Obj} {t : BinaryTree (Ptr × Obj)}
  {fuel : ℕ}

theorem obj13BstInsertNode_holds (hfuel : (inorder t).length ≤ fuel) (ht : Holds h (some p) t)
    (hnode : h node = some ⟨obj, none, none⟩) (hnotin : node ∉ addresses t) (hnodup : (addresses t).Nodup) :
    ∃ h', obj13BstInsertNode fuel h p node = some h' ∧ Holds h' (some p) (insertTree objidOf (node, obj) t) ∧
      ∀ q ∉ addresses t, h' q = h q := by
  induction t generalizing p fuel with
  | nil => cases ht
  | node a l r ihl ihr =>
    obtain ⟨hp, left, right, hx, hl, hr⟩ := ht
    obtain ⟨hndl, hndr, hxl, hxr, hdisj⟩ := nodup_addresses_node.1 hnodup
    obtain ⟨x, o⟩ := a
    simp only [some.injEq] at hp hx hxl hxr
    subst hp
    simp only [addresses_node, mem_append, mem_cons, not_or] at hnotin ⊢
    obtain ⟨hnl, hnx, hnr⟩ := hnotin
    simp only [inorder, length_append, length_cons] at hfuel
    cases fuel with
    | zero => omega
    | succ fuel =>
    simp only [obj13BstInsertNode, hx, hnode, bind_eq_bind, bind_some, insertTree, objidOf, ← UInt64.lt_iff_toNat_lt]
    -- the side that the new node goes to changes, the node and the other side do not
    split_ifs with hlt
    · cases left with
      | none =>
        obtain rfl := hl.eq_nil
        refine ⟨_, rfl, ⟨rfl, some node, right, by simp, .leaf ?_, hr.update hxr⟩, ?_⟩
        · rw [update_of_ne hnx, hnode]
        · rintro q ⟨-, hq, -⟩
          exact update_of_ne hq _ _
      | some left =>
        obtain ⟨h', hrun, hholds, hframe⟩ := ihl (show (inorder l).length ≤ fuel by omega) hl hnl hndl
        refine ⟨h', hrun, ⟨rfl, some left, right, (hframe p hxl).trans hx, hholds, hr.congr ?_⟩, ?_⟩
        · exact fun q hq => hframe q fun hql => hdisj hql hq
        · exact fun q hq => hframe q hq.1
    · cases right with
      | none =>
        obtain rfl := hr.eq_nil
        refine ⟨_, rfl, ⟨rfl, left, some node, by simp, hl.update hxl, .leaf ?_⟩, ?_⟩
        · rw [update_of_ne hnx, hnode]
        · rintro q ⟨-, hq, -⟩
          exact update_of_ne hq _ _
      | some right =>
        obtain ⟨h', hrun, hholds, hframe⟩ := ihr (show (inorder r).length ≤ fuel by omega) hr hnr hndr
        refine ⟨h', hrun, ⟨rfl, left, some right, (hframe p hxr).trans hx, hl.congr ?_, hholds⟩, ?_⟩
        · exact fun q hq => hframe q fun hqr => hdisj hq hqr
        · exact fun q hq => hframe q hq.2.2

theorem foldlM_holds {root : Ptr × Obj} {l r : BinaryTree (Ptr × Obj)} {nodes : List (Ptr × Obj)}
    (ht : Holds h (some root.1) (.node root l r)) (hordered : Ordered objidOf (.node root l r))
    (haddrs : ((inorder (.node root l r) ++ nodes).map Prod.fst).Nodup)
    (hids : ((inorder (.node root l r) ++ nodes).map objidOf).Nodup)
    (hfuel : (inorder (.node root l r) ++ nodes).length ≤ fuel) : ∃ h' l' r', nodes.foldlM (fun h node =>
          obj13BstInsertNode fuel (obj13BstCreateNode h node.1 node.2) root.1 node.1) h = some h' ∧
      Holds h' (some root.1) (.node root l' r') ∧ Ordered objidOf (.node root l' r') ∧
      (inorder (.node root l' r')).Perm (inorder (.node root l r) ++ nodes) := by
  induction nodes generalizing h l r with
  | nil => exact ⟨h, l, r, rfl, ht, hordered, by simp⟩
  | cons node nodes ih =>
    have hperm : (inorder (insertTree objidOf node (.node root l r)) ++ nodes).Perm
        (inorder (.node root l r) ++ node :: nodes) :=
      ((inorder_insertTree_perm ..).append_right nodes).trans perm_middle.symm
    have hnotin : node.1 ∉ addresses (.node root l r) := by
      rw [map_append, nodup_append] at haddrs
      exact fun hmem => haddrs.2.2 _ hmem _ (by simp) rfl
    have hnodup : (addresses (.node root l r)).Nodup := by
      rw [map_append, nodup_append] at haddrs
      exact haddrs.1
    have hids' : ∀ e ∈ inorder (.node root l r), objidOf e ≠ objidOf node := by
      rw [map_append, nodup_append] at hids
      exact fun e he => hids.2.2 _ (mem_map_of_mem he) _ (by simp)
    have hcreate : Holds (obj13BstCreateNode h node.1 node.2) (some root.1) (.node root l r) :=
      ht.update hnotin
    obtain ⟨h', hrun, hholds, -⟩ := obj13BstInsertNode_holds
      ((length_append ▸ Nat.le_add_right ..).trans hfuel) hcreate (update_self ..) hnotin hnodup
    have hordered' := hordered.insertTree hids'
    obtain ⟨l', r', hnode⟩ := insertTree_node objidOf node root l r
    rw [hnode] at hholds hperm hordered'
    obtain ⟨h'', l'', r'', hfold, hholds'', hordered'', hperm''⟩ := ih hholds hordered'
      ((hperm.map _).nodup_iff.2 haddrs) ((hperm.map _).nodup_iff.2 hids) (hperm.length_eq ▸ hfuel)
    refine ⟨h'', l'', r'', ?_, hholds'', hordered'', hperm''.trans hperm⟩
    rw [foldlM_cons, hrun, bind_eq_bind, bind_some, hfold]

theorem build_holds (root : Ptr × Obj) (nodes : List (Ptr × Obj))
    (haddrs : ((root :: nodes).map Prod.fst).Nodup) (hids : ((root :: nodes).map objidOf).Nodup) :
    ∃ h l r, build root nodes = some h ∧ Holds h (some root.1) (.node root l r) ∧
      Ordered objidOf (.node root l r) ∧ (inorder (.node root l r)).Perm (root :: nodes) := by
  have ht : Holds (obj13BstCreateNode (fun _ => none) root.1 root.2) (some root.1) (.node root .nil .nil) :=
    .leaf (update_self ..)
  have hordered : Ordered objidOf (.node root .nil .nil) := ⟨by simp [inorder], by simp [inorder], trivial, trivial⟩
  exact foldlM_holds ht hordered haddrs hids (by simp [inorder])

end Insert

section Delete
variable {Ptr : Type} [DecidableEq Ptr] {h : Heap Ptr} {p temp : Ptr} {t : BinaryTree (Ptr × Obj)}
  {objid : UInt64} {fuel : ℕ} {r : Ret × Heap Ptr} {freeNode : Heap Ptr → Ptr → Heap Ptr}

omit [DecidableEq Ptr] in
theorem skipLeft_eq {parent : Option Ptr} {w : Option Ptr × Ptr}
    (hw : skipLeft fuel h parent (some temp) = some w) : w = (parent, temp) := by
  cases fuel with
  | zero => cases hw
  | succ fuel =>
    cases hn : h temp with
    | none => simp [skipLeft, hn] at hw
    | some n =>
      cases hleft : n.left with
      | none =>
        -- the next round follows `NULL`
        cases fuel <;> simp [skipLeft, hn, hleft] at hw
      | some left => simpa [skipLeft, hn, hleft] using hw.symm

theorem FreesOnly.update_eq (hfree : FreesOnly freeNode) (h : Heap Ptr) (p : Ptr) :
    update (freeNode h p) p none = update h p none := by
  refine funext fun q => ?_
  by_cases hq : q = p
  · rw [hq, update_self, update_self]
  · rw [update_of_ne hq, update_of_ne hq, hfree h p q hq]

section
variable (hfree : FreesOnly freeNode)
include hfree

theorem obj13BstDeleteNode_cases (hr : obj13BstDeleteNode freeNode (fuel + 1) h (some p) objid = some r) :
    ∃ n, h p = some n ∧
      ((objid < n.val.objid ∧ ∃ r', obj13BstDeleteNode freeNode fuel h n.left objid = some r' ∧ r = (.ok, r'.2)) ∨
      (n.val.objid < objid ∧ ∃ r', obj13BstDeleteNode freeNode fuel h n.right objid = some r' ∧ r = (.ok, r'.2)) ∨
      r = (.ok, update h p none) ∨ ∃ c val m r', n.right = some c ∧ update h p (some { n with val }) c = some m ∧
        obj13BstDeleteNode freeNode fuel (update h p (some { n with val })) (some c) m.val.objid = some r' ∧
        r = (.ok, r'.2)) := by
  rw [obj13BstDeleteNode, bind_eq_bind, bind_eq_some_iff] at hr
  obtain ⟨n, hn, hr⟩ := hr
  refine ⟨n, hn, ?_⟩
  split_ifs at hr with hlt hgt hchild
  · obtain ⟨r', hr', heq⟩ := bind_eq_some_iff.1 hr
    exact .inl ⟨hlt, r', hr', (some.inj heq).symm⟩
  · obtain ⟨r', hr', heq⟩ := bind_eq_some_iff.1 hr
    exact .inr (.inl ⟨hgt, r', hr', (some.inj heq).symm⟩)
  · rw [hfree.update_eq] at hr
    exact .inr (.inr (.inl (some.inj hr).symm))
  · rw [not_or] at hchild
    obtain ⟨c, hc⟩ := ne_none_iff_exists'.1 hchild.2
    obtain ⟨w, hw, hr⟩ := bind_eq_some_iff.1 hr
    obtain ⟨temp, -, hr⟩ := bind_eq_some_iff.1 hr
    obtain ⟨child, hchild', hr⟩ := bind_eq_some_iff.1 hr
    obtain ⟨m, hm, hr⟩ := bind_eq_some_iff.1 hr
    obtain ⟨r', hr', heq⟩ := bind_eq_some_iff.1 hr
    -- the search for the next node ends at once, and without a parent
    rw [hc] at hw
    obtain rfl := skipLeft_eq hw
    obtain rfl : c = child := some.inj (hc.symm.trans hchild')
    exact .inr (.inr (.inr ⟨c, _, m, r', hc, hm, hr', (some.inj heq).symm⟩))

theorem fst_obj13BstDeleteNode (hr : obj13BstDeleteNode freeNode fuel h (some p) objid = some r) : r.1 = .ok := by
  cases fuel with
  | zero => cases hr
  | succ fuel =>
    obtain ⟨n, -, ⟨-, r', -, rfl⟩ | ⟨-, r', -, rfl⟩ | rfl | ⟨c, val, m, r', -, -, -, rfl⟩⟩ :=
      obj13BstDeleteNode_cases hfree hr
    all_goals rfl

/-- The call leaves a node in the tree that it has freed, and changes nothing outside of the tree. -/
theorem obj13BstDeleteNode_freed (ht : Holds h (some p) t) (hordered : Ordered objidOf t)
    (hnodup : (addresses t).Nodup) (hmem : ∃ e ∈ inorder t, e.2.objid = objid)
    (hr : obj13BstDeleteNode freeNode fuel h (some p) objid = some r) :
    (∃ y, Reaches r.2 (some p) y ∧ r.2 y = none) ∧ ∀ q ∉ addresses t, r.2 q = h q := by
  induction fuel generalizing h p t objid r with
  | zero => cases hr
  | succ fuel ih =>
    cases t with
    | nil => cases ht
    | node a left right =>
      obtain ⟨hp, lp, rp, hx, hl, hright⟩ := ht
      obtain ⟨hndl, hndr, hxl, hxr, hdisj⟩ := nodup_addresses_node.1 hnodup
      obtain ⟨hol, hor⟩ := hordered.2.2
      obtain ⟨x, o⟩ := a
      simp only [some.injEq] at hp hx hxl hxr
      subst hp
      obtain ⟨e, hmem, rfl⟩ := hmem
      simp only [addresses_node, mem_append, mem_cons, not_or]
      obtain ⟨n, hn, hcases⟩ := obj13BstDeleteNode_cases hfree hr
      obtain rfl := some.inj (hx.symm.trans hn)
      rcases hcases with ⟨hlt, r', hr', rfl⟩ | ⟨hgt, r', hr', rfl⟩ | rfl | ⟨c, val, m, r', hc, hm, hr', rfl⟩
      · have hmem' : e ∈ inorder left := hordered.mem_left hmem hlt
        obtain ⟨c, rfl⟩ := hl.eq_some_of_mem hmem'
        obtain ⟨⟨y, hreach, hfreed⟩, hframe⟩ := ih hl hol hndl ⟨e, hmem', rfl⟩ hr'
        exact ⟨⟨y, .left ((hframe p hxl).trans hx) hreach, hfreed⟩, fun q hq => hframe q hq.1⟩
      · have hmem' : e ∈ inorder right := hordered.mem_right hmem hgt
        obtain ⟨c, rfl⟩ := hright.eq_some_of_mem hmem'
        obtain ⟨⟨y, hreach, hfreed⟩, hframe⟩ := ih hright hor hndr ⟨e, hmem', rfl⟩ hr'
        exact ⟨⟨y, .right ((hframe p hxr).trans hx) hreach, hfreed⟩, fun q hq => hframe q hq.2.2⟩
      · exact ⟨⟨p, .here, update_self ..⟩, fun q hq => update_of_ne hq.2.1 _ _⟩
      · obtain rfl : rp = some c := hc
        have hright' : Holds (update h p (some ⟨val, lp, some c⟩)) (some c) right := hright.update hxr
        have hmem' : ∃ e ∈ inorder right, e.2.objid = m.val.objid := by
          cases right with
          | nil => cases hright
          | node a l r =>
            obtain ⟨hroot, _, _, ha, -, -⟩ := hright'
            cases hroot
            refine ⟨a, by simp [inorder], ?_⟩
            rw [some.inj (hm.symm.trans ha)]
        obtain ⟨⟨y, hreach, hfreed⟩, hframe⟩ := ih hright' hor hndr hmem' hr'
        refine ⟨⟨y, .right ((hframe p hxr).trans (update_self ..)) hreach, hfreed⟩, fun q hq => ?_⟩
        rw [hframe q hq.2.2, update_of_ne hq.2.1]

theorem not_deletes_of_holds {root : Ptr × Obj} {left right : BinaryTree (Ptr × Obj)} {nodes : List (Ptr × Obj)}
    (ht : Holds h (some root.1) (.node root left right)) (hordered : Ordered objidOf (.node root left right))
    (hperm : (inorder (.node root left right)).Perm (root :: nodes)) (haddrs : ((root :: nodes).map Prod.fst).Nodup) :
    ¬ Deletes freeNode h root.1 ((root :: nodes).map Prod.snd) objid := by
  have hnodup : (addresses (.node root left right)).Nodup := (hperm.map Prod.fst).nodup_iff.2 haddrs
  unfold Deletes
  split_ifs with hmem
  · rintro ⟨fuel, r, t, hr, hholds, -, -⟩
    have hmem' : ∃ e ∈ inorder (.node root left right), e.2.objid = objid := by
      obtain ⟨o, ho, hid⟩ := hmem
      obtain ⟨e, he, rfl⟩ := mem_map.1 ho
      exact ⟨e, hperm.mem_iff.2 he, hid⟩
    obtain ⟨⟨y, hreach, hfreed⟩, -⟩ := obj13BstDeleteNode_freed hfree ht hordered hnodup hmem' hr
    have hsome := hholds.isSome_of_reaches hreach
    rw [hfreed] at hsome
    cases hsome
  · rintro ⟨fuel, hr⟩
    cases fst_obj13BstDeleteNode hfree hr

/-- Whatever tree is built and whatever id is asked for, the tree is not what it should be after the call, or an id
that is not there is not reported. -/
theorem build_not_deletes (root : Ptr × Obj) (nodes : List (Ptr × Obj))
    (haddrs : ((root :: nodes).map Prod.fst).Nodup) (hids : ((root :: nodes).map objidOf).Nodup)
    (objid : UInt64) :
    ∃ h, build root nodes = some h ∧ ¬ Deletes freeNode h root.1 ((root :: nodes).map Prod.snd) objid := by
  obtain ⟨h, l, r, hbuild, hholds, hordered, hperm⟩ := build_holds root nodes haddrs hids
  exact ⟨h, hbuild, not_deletes_of_holds hfree hholds hordered hperm haddrs⟩

end

theorem build_not_deletes_two : ∃ h, build ((0 : ℕ), ⟨5, 50⟩) [(1, ⟨3, 30⟩)] = some h ∧
    ¬ Deletes (fun h _ => h) h 0 [⟨5, 50⟩, ⟨3, 30⟩] 3 :=
  build_not_deletes (fun _ _ _ _ => rfl) (0, ⟨5, 50⟩) [(1, ⟨3, 30⟩)] (by decide) (by decide) 3

/-- The node with the id 3 is freed, and is still the left child of the root. -/
theorem not_deletes_leaf : ∃ h r, build ((0 : ℕ), ⟨5, 50⟩) [(1, ⟨3, 30⟩)] = some h ∧
    obj13BstDeleteNode (fun h _ => h) 3 h (some 0) 3 = some r ∧ (r.2 0).map Fork.left = some (some 1) ∧ r.2 1 = none ∧
    ¬ Deletes (fun h _ => h) h 0 [⟨5, 50⟩, ⟨3, 30⟩] 3 := by
  obtain ⟨h, left, right, hbuild, hholds, hordered, hperm⟩ :=
    build_holds ((0 : ℕ), ⟨5, 50⟩) [(1, ⟨3, 30⟩)] (by decide) (by decide)
  have hrun : ((build ((0 : ℕ), ⟨5, 50⟩) [(1, ⟨3, 30⟩)]).bind fun h =>
      (obj13BstDeleteNode (fun h _ => h) 3 h (some 0) 3).map fun r => ((r.2 0).map Fork.left, r.2 1)) =
      some (some (some 1), none) := by decide
  rw [hbuild, bind_some, map_eq_some_iff] at hrun
  obtain ⟨r, hr, heq⟩ := hrun
  rw [Prod.mk.injEq] at heq
  exact ⟨h, r, hbuild, hr, heq.1, heq.2, not_deletes_of_holds (fun _ _ _ _ => rfl) hholds hordered hperm (by decide)⟩

end Delete

section Model
variable {Ptr : Type} [DecidableEq Ptr]

/-- `while(*node)`; the result has `*node` at its end. -/
def obj13BstFindNode : ℕ → Heap Ptr → Option Ptr → UInt64 → Option (Ret × Option Ptr)
  | 0, _, _, _ => none
  | _ + 1, _, none, _ => some (.notfound, none)
  | fuel + 1, h, some node, objid => do
    let n ← h node
    if n.val.objid = objid then some (.ok, some node)
    else if objid < n.val.objid then obj13BstFindNode fuel h n.left objid
    else obj13BstFindNode fuel h n.right objid

def insertNodes (fuel : ℕ) (root : Ptr) (nodes : List (Ptr × Obj)) (h : Heap Ptr) : Option (Heap Ptr) :=
  nodes.foldlM (fun h node => obj13BstInsertNode fuel (obj13BstCreateNode h node.1 node.2) root node.1) h

end Model

variable {Ptr : Type} {h : Heap Ptr} {p : Option Ptr} {t : BinaryTree (Ptr × Obj)} {fuel : ℕ} {objid : UInt64}

def found : Option (Ptr × Obj) → Ret × Option Ptr
  | none => (.notfound, none)
  | some e => (.ok, some e.1)

theorem obj13BstFindNode_eq (hfuel : (inorder t).length < fuel) (ht : Holds h p t) :
    obj13BstFindNode fuel h p objid = some (found (searchTree objidOf objid.toNat t)) := by
  induction t generalizing p fuel with
  | nil =>
    obtain ⟨fuel, rfl⟩ : ∃ n, fuel = n + 1 := ⟨fuel - 1, by omega⟩
    obtain rfl : p = none := ht
    rfl
  | node a l r ihl ihr =>
    obtain ⟨hp, left, right, ha, hl, hr⟩ := ht
    subst hp
    simp only [inorder, List.length_append, List.length_cons] at hfuel
    obtain ⟨fuel, rfl⟩ : ∃ n, fuel = n + 1 := ⟨fuel - 1, by omega⟩
    rw [obj13BstFindNode, ha, Option.bind_eq_bind, Option.bind_some, searchTree]
    by_cases heq : a.2.objid = objid
    · rw [if_pos heq, if_pos (show objidOf a = objid.toNat from congrArg UInt64.toNat heq)]
      rfl
    · have hne : objidOf a ≠ objid.toNat := fun h => heq (UInt64.toNat_inj.1 h)
      rw [if_neg heq, if_neg hne]
      by_cases hlt : objid < a.2.objid
      · have hkey : objid.toNat < objidOf a := UInt64.lt_iff_toNat_lt.1 hlt
        rw [if_pos hlt, if_pos hkey]
        exact ihl (by omega) hl
      · have hkey : ¬objid.toNat < objidOf a := fun h => hlt (UInt64.lt_iff_toNat_lt.2 h)
        rw [if_neg hlt, if_neg hkey]
        exact ihr (by omega) hr

variable [DecidableEq Ptr]

/-- Nodes with new ids are inserted. After that each id of the tree is found with its node, and no other id. -/
theorem insertNodes_finds (h : Heap Ptr) (root : Ptr × Obj) (l r : BinaryTree (Ptr × Obj)) (nodes : List (Ptr × Obj))
    (fuel : ℕ) (ht : Holds h (some root.1) (.node root l r)) (hordered : Ordered objidOf (.node root l r))
    (haddrs : ((inorder (.node root l r) ++ nodes).map Prod.fst).Nodup)
    (hids : ((inorder (.node root l r) ++ nodes).map objidOf).Nodup)
    (hfuel : (inorder (.node root l r) ++ nodes).length < fuel) :
    ∃ h' t', insertNodes fuel root.1 nodes h = some h' ∧ Holds h' (some root.1) t' ∧
      (inorder t').Perm (inorder (.node root l r) ++ nodes) ∧ ((inorder t').map objidOf).Pairwise (· < ·) ∧
      (∀ e ∈ inorder (.node root l r) ++ nodes,
        obj13BstFindNode fuel h' (some root.1) e.2.objid = some (.ok, some e.1)) ∧
      ∀ objid, (∀ e ∈ inorder (.node root l r) ++ nodes, e.2.objid ≠ objid) →
        obj13BstFindNode fuel h' (some root.1) objid = some (.notfound, none) := by
  obtain ⟨h', l', r', hrun, hholds, hordered', hperm⟩ := foldlM_holds ht hordered haddrs hids hfuel.le
  have hfuel' : (inorder (.node root l' r')).length < fuel := by
    rw [hperm.length_eq]
    exact hfuel
  refine ⟨h', _, hrun, hholds, hperm, ?_, ?_, ?_⟩
  · rw [List.pairwise_map]
    exact hordered'.pairwise_inorder
  · intro e he
    have hsearch : searchTree objidOf e.2.objid.toNat (.node root l' r') = some e :=
      hordered'.searchTree_of_mem (hperm.mem_iff.2 he)
    rw [obj13BstFindNode_eq hfuel' hholds, hsearch]
    rfl
  · intro objid hid
    have hsearch : searchTree objidOf objid.toNat (.node root l' r') = none := by
      apply searchTree_eq_none
      intro e he heq
      exact hid e (hperm.mem_iff.1 he) (UInt64.toNat_inj.1 heq)
    rw [obj13BstFindNode_eq hfuel' hholds, hsearch]
    rfl

theorem insertNodes_finds_three : ∃ h' t', insertNodes 5 (0 : ℕ) [(1, ⟨3, 30⟩), (2, ⟨4, 40⟩), (3, ⟨9, 90⟩)]
        (obj13BstCreateNode (fun _ => none) 0 ⟨5, 50⟩) = some h' ∧ Holds h' (some 0) t' ∧
      (inorder t').Perm [(0, ⟨5, 50⟩), (1, ⟨3, 30⟩), (2, ⟨4, 40⟩), (3, ⟨9, 90⟩)] ∧
      ((inorder t').map objidOf).Pairwise (· < ·) ∧
      (∀ e ∈ [((0 : ℕ), (⟨5, 50⟩ : Obj)), (1, ⟨3, 30⟩), (2, ⟨4, 40⟩), (3, ⟨9, 90⟩)],
        obj13BstFindNode 5 h' (some 0) e.2.objid = some (.ok, some e.1)) ∧
      ∀ objid, (∀ e ∈ [((0 : ℕ), (⟨5, 50⟩ : Obj)), (1, ⟨3, 30⟩), (2, ⟨4, 40⟩), (3, ⟨9, 90⟩)], e.2.objid ≠ objid) →
        obj13BstFindNode 5 h' (some 0) objid = some (.notfound, none) :=
  insertNodes_finds _ (0, ⟨5, 50⟩) .nil .nil [(1, ⟨3, 30⟩), (2, ⟨4, 40⟩), (3, ⟨9, 90⟩)] 5 (.leaf (update_self ..))
    ⟨by simp [inorder], by simp [inorder], trivial, trivial⟩ (by decide) (by decide) (by decide)

section Model
variable {Ptr : Type} [DecidableEq Ptr]

/-- `while(pre->right && pre->right != cur) pre = pre->right;` -/
def lastLeft : ℕ → Heap Ptr → Ptr → Ptr → Option Ptr
  | 0, _, _, _ => none
  | fuel + 1, h, cur, pre => do
    let n ← h pre
    match n.right with
    | none => some pre
    | some right => if right ≠ cur then lastLeft fuel h cur right else some pre

/-- `while(cur)`, with the nodes that `cb` has been called for. -/
def traverse : ℕ → Heap Ptr → Option Ptr → List (Ptr × Obj) → Option (List (Ptr × Obj) × Heap Ptr)
  | 0, _, _, _ => none
  | _ + 1, h, none, called => some (called, h)
  | fuel + 1, h, some cur, called => do
    let c ← h cur
    match c.left with
    | none => traverse fuel h c.right (called ++ [(cur, c.val)])
    | some left =>
      let pre ← lastLeft fuel h cur left
      let n ← h pre
      match n.right with
      | none =>
        let h := update h pre (some { n with right := some cur })
        let c ← h cur
        traverse fuel h c.left called
      | some _ =>
        let h := update h pre (some { n with right := none })
        let c ← h cur
        traverse fuel h c.right (called ++ [(cur, c.val)])

def obj13BstInorderTraversal (fuel : ℕ) (h : Heap Ptr) (root : Option Ptr) : Option (List (Ptr × Obj) × Heap Ptr) :=
  match root with
  | none => some ([], h)
  | some root => traverse fuel h (some root) []

end Model

variable {Ptr : Type} [DecidableEq Ptr] {h : Heap Ptr} {p right : Option Ptr} {t l : BinaryTree (Ptr × Obj)} {fuel : ℕ}
  {s : Option Ptr}

theorem lastLeft_eq {cur pre x : Ptr} (hl : HoldsTo h (some pre) l s) (hs : s = none ∨ s = some cur)
    (hcur : cur ∉ addresses l) (hlast : (addresses l).getLast? = some x) (hfuel : (addresses l).length ≤ fuel) :
    lastLeft fuel h cur pre = some x := by
  induction l generalizing pre fuel with
  | nil => cases hlast
  | node a l r _ ihr =>
    obtain ⟨hp, left, right, ha, -, hr⟩ := hl
    cases hp
    simp only [addresses_node, length_append, length_cons] at hfuel
    obtain ⟨fuel, rfl⟩ : ∃ n, fuel = n + 1 := ⟨fuel - 1, by omega⟩
    rw [lastLeft, ha, bind_eq_bind, bind_some]
    cases r with
    | nil =>
      obtain rfl : right = s := hr
      obtain rfl : a.1 = x := by simpa using hlast
      rcases hs with rfl | rfl
      · rfl
      · simp
    | node b rl rr =>
      obtain rfl := hr.1
      have hne : b.1 ≠ cur := by
        rintro rfl
        simp at hcur
      simp only [ne_eq, hne, not_false_eq_true, if_true]
      refine ihr hr (fun hmem => hcur ?_) ?_ (by omega)
      · rw [addresses_node]
        exact mem_append_right _ (mem_cons_of_mem _ hmem)
      · rwa [getLast?_addresses_node (by simp)] at hlast

theorem traverse_left {a left x : Ptr} {o : Obj} {f : Fork Ptr Obj} {called : List (Ptr × Obj)}
    (ha : h a = some ⟨o, some left, right⟩) (hlast : lastLeft fuel h a left = some x) (hx : h x = some f)
    (hxa : x ≠ a) : traverse (fuel + 1) h (some a) called =
      if f.right = none then traverse fuel (update h x (some { f with right := some a })) (some left) called
      else traverse fuel (update h x (some { f with right := none })) right (called ++ [(a, o)]) := by
  have ha' : ∀ g, update h x g a = some ⟨o, some left, right⟩ := fun g => by rw [update_of_ne hxa.symm, ha]
  cases hf : f.right <;> simp [traverse, ha, hlast, hx, hf, ha']

/-- From a tree whose last node is linked to `s`, the walk comes to `s` with all links as before. -/
theorem traverse_holdsTo (ht : HoldsTo h p t s) (hnodup : (addresses t).Nodup)
    (hs : ∀ x ∈ s, x ∉ addresses t) (called : List (Ptr × Obj)) : ∃ k, ∀ fuel, (addresses t).length ≤ fuel →
      traverse (fuel + k) h p called = traverse fuel h s (called ++ inorder t) := by
  induction t generalizing h p s called with
  | nil =>
    obtain rfl : p = s := ht
    exact ⟨0, fun fuel _ => by rw [inorder, append_nil, Nat.add_zero]⟩
  | node a l r ihl ihr =>
    obtain ⟨hp, left, right, ha, hl, hr⟩ := ht
    obtain ⟨hndl, hndr, hal, har, hdisj⟩ := nodup_addresses_node.1 hnodup
    subst hp
    simp only [addresses_node, length_append, length_cons, mem_append, mem_cons, not_or] at hs ⊢
    -- behind the node, the right subtree leads to `s`
    obtain ⟨kr, hkr⟩ := ihr hr hndr (fun x hx => (hs x hx).2.2) (called ++ inorder l ++ [a])
    have hrest : called ++ inorder l ++ [a] ++ inorder r = called ++ inorder (.node a l r) := by simp [inorder]
    rw [hrest] at hkr
    cases l with
    | nil =>
      obtain rfl : left = none := hl
      refine ⟨kr + 1, fun fuel hfuel => ?_⟩
      rw [← hkr fuel (by omega), ← Nat.add_assoc, traverse, ha]
      simp [inorder]
    | node b ll lr =>
      obtain rfl := hl.1
      obtain ⟨x, f, hlast, hx, hf, hset⟩ := (holdsTo_none.2 hl).exists_last hndl (by simp)
      have hxa : x ≠ a.1 := by
        rintro rfl
        exact hal (mem_of_getLast? hlast)
      have hback : update (update h x (some { f with right := some a.1 })) x (some { f with right := none }) = h := by
        rw [update_idem, ← hf]
        exact update_eq_self_iff.2 hx.symm
      have ha' : update h x (some { f with right := some a.1 }) a.1 = some ⟨a.2, some b.1, right⟩ := by
        rw [update_of_ne hxa.symm, ha]
      obtain ⟨kl, hkl⟩ := ihl (hset (some a.1)) hndl (by simpa using hal) called
      refine ⟨kr + 1 + kl + 1, fun fuel hfuel => ?_⟩
      have hdown : lastLeft (fuel + kr + 1 + kl) h a.1 b.1 = some x :=
        lastLeft_eq (holdsTo_none.2 hl) (.inl rfl) hal hlast (by omega)
      have hup : lastLeft (fuel + kr) (update h x (some { f with right := some a.1 })) a.1 b.1 = some x :=
        lastLeft_eq (hset (some a.1)) (.inr rfl) hal hlast (by omega)
      rw [show fuel + (kr + 1 + kl + 1) = fuel + kr + 1 + kl + 1 by omega]
      calc traverse (fuel + kr + 1 + kl + 1) h (some a.1) called
          = traverse (fuel + kr + 1 + kl) (update h x (some { f with right := some a.1 })) (some b.1) called :=
            (traverse_left ha hdown hx hxa).trans (if_pos hf)
        _ = traverse (fuel + kr + 1) (update h x (some { f with right := some a.1 })) (some a.1)
              (called ++ inorder (.node b ll lr)) := hkl _ (by omega)
        _ = traverse (fuel + kr) h right (called ++ inorder (.node b ll lr) ++ [a]) := by
            rw [traverse_left ha' hup (update_self ..) hxa, if_neg (by simp), hback]
        _ = traverse fuel h s (called ++ inorder (.node a (.node b ll lr) r)) := hkr fuel (by omega)

/-- The walk ends, calls each node once in order, and leaves all links of the tree as before. -/
theorem obj13BstInorderTraversal_eq (h : Heap Ptr) (root : Option Ptr) (t : BinaryTree (Ptr × Obj))
    (ht : Holds h root t) (hnodup : (addresses t).Nodup) :
    ∃ n, ∀ fuel ≥ n, obj13BstInorderTraversal fuel h root = some (inorder t, h) := by
  obtain ⟨k, hk⟩ := traverse_holdsTo (holdsTo_none.2 ht) hnodup (by simp) []
  refine ⟨(addresses t).length + 1 + k, fun fuel hfuel => ?_⟩
  cases root with
  | none => rw [ht.eq_nil]; rfl
  | some root =>
    have hrun := hk (fuel - k) (by omega)
    rw [Nat.sub_add_cancel (by omega)] at hrun
    obtain ⟨n, hn⟩ : ∃ n, fuel - k = n + 1 := ⟨fuel - k - 1, by omega⟩
    rw [obj13BstInorderTraversal, hrun, hn]
    rfl

def bent : Heap (Fin 3)
  | 0 => some ⟨⟨5, 50⟩, some 1, none⟩
  | 1 => some ⟨⟨3, 30⟩, none, some 2⟩
  | 2 => some ⟨⟨4, 40⟩, none, none⟩

theorem obj13BstInorderTraversal_bent : ∃ n, ∀ fuel ≥ n,
    obj13BstInorderTraversal fuel bent (some 0) = some ([(1, ⟨3, 30⟩), (2, ⟨4, 40⟩), (0, ⟨5, 50⟩)], bent) :=
  obj13BstInorderTraversal_eq bent (some 0)
    (.node (0, ⟨5, 50⟩) (.node (1, ⟨3, 30⟩) .nil (.node (2, ⟨4, 40⟩) .nil .nil)) .nil)
    ⟨rfl, some 1, none, rfl, ⟨rfl, none, some 2, rfl, rfl, .leaf rfl⟩, rfl⟩ (by decide)

/-- A tree that is built of nodes with different ids is walked by increasing id: each node is called once, and the
links stay as they are. -/
theorem traversal_build (root : Ptr × Obj) (nodes : List (Ptr × Obj)) (haddrs : ((root :: nodes).map Prod.fst).Nodup)
    (hids : ((root :: nodes).map objidOf).Nodup) :
    ∃ h called, build root nodes = some h ∧ called.Perm (root :: nodes) ∧ (called.map objidOf).Pairwise (· < ·) ∧
      ∃ n, ∀ fuel ≥ n, obj13BstInorderTraversal fuel h (some root.1) = some (called, h) := by
  obtain ⟨h, l, r, hbuild, hholds, hord, hperm⟩ := build_holds root nodes haddrs hids
  have hnodup : (addresses (.node root l r)).Nodup := (hperm.map Prod.fst).nodup_iff.2 haddrs
  obtain ⟨k, hk⟩ := traverse_holdsTo (holdsTo_none.2 hholds) hnodup (by simp) []
  refine ⟨h, _, hbuild, hperm, pairwise_map.2 hord.pairwise_inorder, (addresses (.node root l r)).length + 1 + k, ?_⟩
  intro fuel hfuel
  obtain ⟨n, rfl⟩ : ∃ n, fuel = n + 1 + k := ⟨fuel - k - 1, by omega⟩
  exact hk (n + 1) (by omega)

theorem traversal_build_two : ∃ h called, build ((0 : ℕ), ⟨5, 50⟩) [(1, ⟨3, 30⟩)] = some h ∧
    called.Perm [(0, ⟨5, 50⟩), (1, ⟨3, 30⟩)] ∧ (called.map objidOf).Pairwise (· < ·) ∧
      ∃ n, ∀ fuel ≥ n, obj13BstInorderTraversal fuel h (some 0) = some (called, h) :=
  traversal_build (0, ⟨5, 50⟩) _ (by decide) (by decide)

end Prj.Lib13.Bst
