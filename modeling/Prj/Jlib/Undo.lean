import Prj.Base.Chain

/-!
The lists of changes of a table (`jlib/src/jdb_undo.c`). Nothing declares `struct jdb_changelog_list`; it has the
fields that the code names. A result `none` follows `NULL`, or its loop does not end.
-/
namespace Prj.Jlib.Undo
open Prj.Base Function List

structure ChangelogList (L : Type) where
  first : Option L
  last : Option L
  cnt : ℕ
  cnd : ℕ

/-- The two lists of a handle and the links of all entries. -/
structure Handle (L : Type) where
  next : L → Option L
  undo : ChangelogList L
  redo : ChangelogList L

variable {L : Type} [DecidableEq L]

/-- `_jdb_add_to_changelog_list`, which sets `cnd` for the first entry. -/
def addToChangelogList (next : L → Option L) (list : ChangelogList L) (entry : L) :
    Option ((L → Option L) × ChangelogList L) :=
  match list.first, list.last with
  | none, _ => some (next, { list with first := some entry, last := some entry, cnd := 1 })
  | some _, none => none
  | some _, some last => some (update next last (some entry), { list with last := some entry, cnt := list.cnt + 1 })

/-- `while (prev->next) prev = prev->next;` -/
def lastLoop (next : L → Option L) : ℕ → L → Option L
  | 0, _ => none
  | fuel + 1, prev =>
    match next prev with
    | none => some prev
    | some prev => lastLoop next fuel prev

/-- What `_jdb_undo_to_redo` does with its two lists, and `_jdb_redo_to_undo` with the same two the other way. -/
def moveLast (fuel : ℕ) (next : L → Option L) (src dst : ChangelogList L) :
    Option ((L → Option L) × ChangelogList L × ChangelogList L) :=
  match src.first with
  | none => some (next, src, dst)
  | some first => do
    let last ← src.last
    let (next, dst) ← addToChangelogList next dst last
    if first = last then some (next, { src with first := none }, dst)
    else
      let prev ← lastLoop next fuel first
      some (next, { src with last := some prev, cnt := src.cnt - 1 }, dst)

def undoToRedo (fuel : ℕ) (h : Handle L) : Option (Handle L) :=
  (moveLast fuel h.next h.undo h.redo).map fun (next, undo, redo) => ⟨next, undo, redo⟩

def redoToUndo (fuel : ℕ) (h : Handle L) : Option (Handle L) :=
  (moveLast fuel h.next h.redo h.undo).map fun (next, redo, undo) => ⟨next, undo, redo⟩

structure Holds (next : L → Option L) (list : ChangelogList L) (xs : List L) : Prop where
  chain : Chain next list.first xs
  last_eq : ∀ x ∈ xs.getLast?, list.last = some x
  cnt_eq : list.cnt = xs.length

structure Handle.Lists (h : Handle L) (us rs : List L) : Prop where
  undo : Holds h.next h.undo us
  redo : Holds h.next h.redo rs
  disjoint : us.Disjoint rs

/-- The last entry of each list is moved to the end of the other, and back from where it was moved to. -/
def Moves (h : Handle L) (us rs : List L) : Prop :=
  ∃ n, ∀ fuel ≥ n, (∃ h', undoToRedo fuel h = some h' ∧ h'.Lists us.dropLast (rs ++ us.getLast?.toList)) ∧
    (∃ h', redoToUndo fuel h = some h' ∧ h'.Lists (us ++ rs.getLast?.toList) rs.dropLast) ∧
    ∃ h', (undoToRedo fuel h).bind (redoToUndo fuel) = some h' ∧ h'.Lists us rs

variable {next next' : L → Option L} {src dst src' dst' : ChangelogList L} {xs ys us rs : List L} {fuel : ℕ}

omit [DecidableEq L] in
theorem Holds.first_eq_none (h : Holds next src xs) : src.first = none ↔ xs = [] := by
  cases xs with
  | nil => simpa using h.chain
  | cons x xs => simp [h.chain.1]

theorem addToChangelogList_next {z : L} (hdst : Holds next dst ys)
    (hadd : addToChangelogList next dst z = some (next', dst')) {x : L} (hx : x ∉ ys) : next' x = next x := by
  unfold addToChangelogList at hadd
  split at hadd
  · cases hadd
    rfl
  · cases hadd
  · next first last hfirst hlast =>
    cases hadd
    have hne : ys ≠ [] := fun hnil => by simp [hdst.first_eq_none.2 hnil] at hfirst
    have hend := hdst.last_eq _ (getLast?_eq_some_getLast hne)
    refine update_of_ne ?_ _ _
    rintro rfl
    exact hx (Option.some.inj (hlast.symm.trans hend) ▸ getLast_mem hne)

/-- An entry that is moved is still counted, or still in the list. -/
theorem not_holds_moveLast (hsrc : Holds next src xs) (hdst : Holds next dst ys) (hdisj : xs.Disjoint ys)
    (hne : xs ≠ []) (hmove : moveLast fuel next src dst = some (next', src', dst')) :
    ¬ Holds next' src' xs.dropLast := by
  intro h
  obtain ⟨x, xs, rfl⟩ := exists_cons_of_ne_nil hne
  have hlast := hsrc.last_eq _ (getLast?_eq_some_getLast hne)
  rw [moveLast, hsrc.chain.1] at hmove
  simp only [hlast, Option.bind_eq_bind, Option.bind_some] at hmove
  obtain ⟨⟨next₁, dst₁⟩, hadd, hmove⟩ := Option.bind_eq_some_iff.1 hmove
  have hkept : Chain next₁ src.first (x :: xs) :=
    hsrc.chain.congr fun y hy => addToChangelogList_next hdst hadd (hdisj hy)
  rw [hsrc.chain.1] at hkept
  have hlen := h.cnt_eq
  split_ifs at hmove with hone
  · cases hmove
    simp only [hsrc.cnt_eq, length_dropLast, length_cons] at hlen
    omega
  · obtain ⟨prev, -, hmove⟩ := Option.bind_eq_some_iff.1 hmove
    cases hmove
    have heq := congrArg List.length (h.chain.unique hkept)
    rw [length_dropLast, length_cons] at heq
    omega

/-- The entries are moved as they should be only if there are none. -/
theorem moves_iff (h : Handle L) (hlists : h.Lists us rs) : Moves h us rs ↔ us = [] ∧ rs = [] := by
  constructor
  · rintro ⟨n, hn⟩
    obtain ⟨⟨h₁, hundo, hlists₁⟩, ⟨h₂, hredo, hlists₂⟩, -⟩ := hn n (Nat.le_refl n)
    obtain ⟨⟨_, _, _⟩, hmove, rfl⟩ := Option.map_eq_some_iff.1 hundo
    obtain ⟨⟨_, _, _⟩, hmove', rfl⟩ := Option.map_eq_some_iff.1 hredo
    constructor
    · by_contra hne
      exact not_holds_moveLast hlists.undo hlists.redo hlists.disjoint hne hmove hlists₁.undo
    · by_contra hne
      exact not_holds_moveLast hlists.redo hlists.undo (disjoint_comm.1 hlists.disjoint) hne hmove' hlists₂.redo
  · rintro ⟨rfl, rfl⟩
    have hundo : ∀ fuel, undoToRedo fuel h = some h := fun fuel => by
      rw [undoToRedo, moveLast, hlists.undo.first_eq_none.2 rfl]
      rfl
    have hredo : ∀ fuel, redoToUndo fuel h = some h := fun fuel => by
      rw [redoToUndo, moveLast, hlists.redo.first_eq_none.2 rfl]
      rfl
    exact ⟨0, fun fuel _ => ⟨⟨h, hundo fuel, hlists⟩, ⟨h, hredo fuel, hlists⟩, h,
      by rw [hundo]; exact hredo fuel, hlists⟩⟩

theorem moves_iff_empty : Moves (⟨fun _ => none, ⟨none, none, 0, 0⟩, ⟨none, none, 0, 0⟩⟩ : Handle Unit) [] [] := by
  refine (moves_iff _ ⟨⟨?_, ?_, ?_⟩, ⟨?_, ?_, ?_⟩, ?_⟩).2 ⟨rfl, rfl⟩ <;> simp

/-- The only entry is moved, and the count of its list is still 1. -/
theorem not_moves_one : (⟨fun _ => none, ⟨some (), some (), 1, 0⟩, ⟨none, none, 0, 0⟩⟩ : Handle Unit).Lists [()] [] ∧
    ¬ Moves (⟨fun _ => none, ⟨some (), some (), 1, 0⟩, ⟨none, none, 0, 0⟩⟩ : Handle Unit) [()] [] := by
  refine ⟨⟨⟨⟨rfl, rfl⟩, fun _ _ => rfl, rfl⟩, ⟨rfl, by simp, rfl⟩, by simp⟩, ?_⟩
  rintro ⟨n, hn⟩
  obtain ⟨⟨h', hmove, hlists⟩, -⟩ := hn n (Nat.le_refl n)
  cases hmove
  exact absurd hlists.undo.cnt_eq (by decide)

end Prj.Jlib.Undo
