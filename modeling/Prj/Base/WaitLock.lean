import Mathlib.Data.List.Basic

/-!
Locks with counters and a condition to wait for.

Any number of threads use them. A call is one step up to the place where it waits; each time that a waiting thread
wakes up is another step, which tests the condition again.
-/
namespace Prj.Base
open Function

inductive Mode
  | read
  | write
  deriving DecidableEq, Repr

/-- What a lock for the resources `R` does with its counters. -/
structure WaitLock (C R : Type) where
  /-- A call of the lock before its test. -/
  enter : C → R → Mode → C
  blocked : C → R → Mode → Bool
  /-- A call of the lock after its test. -/
  grant : C → R → Mode → C
  /-- A call of the unlock; it can fail. -/
  leave : C → R → Mode → Option C

structure LockState (T C R : Type) where
  counters : C
  waits : T → Option (R × Mode)
  holders : R → List (T × Mode)

variable {T C R : Type} [DecidableEq T] [DecidableEq R]

namespace WaitLock
variable (L : WaitLock C R) (s : LockState T C R) (t : T) (r : R) (m : Mode)

/-- The test, after which the thread waits or holds the resource. -/
def attempt : LockState T C R :=
  if L.blocked s.counters r m then { s with waits := update s.waits t (some (r, m)) }
  else
    { counters := L.grant s.counters r m
      waits := update s.waits t none
      holders := update s.holders r ((t, m) :: s.holders r) }

def lock : LockState T C R := L.attempt { s with counters := L.enter s.counters r m } t r m

def unlock : Option (LockState T C R) :=
  (L.leave s.counters r m).map fun c =>
    { s with counters := c, holders := update s.holders r ((s.holders r).erase (t, m)) }

end WaitLock

/-- The states that threads can come to which lock as `may` and unlock as `mayUnlock` say. -/
inductive Reachable (L : WaitLock C R) (may mayUnlock : T → R → Mode → Prop) (c₀ : C) : LockState T C R → Prop
  | start : Reachable L may mayUnlock c₀ ⟨c₀, fun _ => none, fun _ => []⟩
  | lock {s : LockState T C R} {t : T} {r : R} {m : Mode} (h : Reachable L may mayUnlock c₀ s)
      (hidle : s.waits t = none) (hmay : may t r m) : Reachable L may mayUnlock c₀ (L.lock s t r m)
  | wake {s : LockState T C R} {t : T} {r : R} {m : Mode} (h : Reachable L may mayUnlock c₀ s)
      (hwaits : s.waits t = some (r, m)) : Reachable L may mayUnlock c₀ (L.attempt s t r m)
  | unlock {s s' : LockState T C R} {t : T} {r : R} {m : Mode} (h : Reachable L may mayUnlock c₀ s)
      (hidle : s.waits t = none) (hmay : mayUnlock t r m) (hleave : L.unlock s t r m = some s') :
      Reachable L may mayUnlock c₀ s'

def Exclusive (holders : List (T × Mode)) : Prop := ∀ t, (t, .write) ∈ holders → ∀ e ∈ holders, e.1 = t

section Invariants
variable {L : WaitLock C R} {may mayUnlock : T → R → Mode → Prop} {c₀ : C} {s : LockState T C R} {t : T} {r : R}
  {m : Mode}

/-- The threads wait for what they may lock, and hold nothing else. -/
def Permitted (may : T → R → Mode → Prop) (s : LockState T C R) : Prop :=
  (∀ t, ∀ w ∈ s.waits t, may t w.1 w.2) ∧ ∀ r, ∀ e ∈ s.holders r, may e.1 r e.2

theorem forall_update {α β : Type} [DecidableEq α] {P : α → β → Prop} {f : α → β} {a : α} {b : β}
    (h : ∀ x, P x (f x)) (hb : P a b) : ∀ x, P x (update f a b x) := (forall_update_iff f P).2 ⟨hb, fun x _ => h x⟩

theorem Permitted.attempt (h : Permitted may s) (hmay : may t r m) : Permitted may (L.attempt s t r m) := by
  unfold WaitLock.attempt
  split
  · constructor
    · apply forall_update (P := fun u (v : Option (R × Mode)) => ∀ w ∈ v, may u w.1 w.2) h.1
      rintro w ⟨⟩
      exact hmay
    · exact h.2
  · constructor
    · apply forall_update (P := fun u (v : Option (R × Mode)) => ∀ w ∈ v, may u w.1 w.2) h.1
      rintro w ⟨⟩
    · apply forall_update (P := fun q (es : List (T × Mode)) => ∀ e ∈ es, may e.1 q e.2) h.2
      exact List.forall_mem_cons.2 ⟨hmay, h.2 r⟩

section
variable (h : Reachable L may mayUnlock c₀ s)
include h

theorem Reachable.permitted : Permitted may s := by
  induction h with
  | start =>
    constructor
    · rintro t w ⟨⟩
    · rintro r e ⟨⟩
  | lock _ _ hmay ih => exact Permitted.attempt ih hmay
  | wake _ hwaits ih => exact ih.attempt (ih.1 _ _ hwaits)
  | @unlock s _ t r m _ _ _ hleave ih =>
    obtain ⟨c, -, rfl⟩ := Option.map_eq_some_iff.1 hleave
    refine ⟨ih.1, forall_update (P := fun q (es : List (T × Mode)) => ∀ e ∈ es, may e.1 q e.2) ih.2 fun e he => ?_⟩
    exact ih.2 r e (List.mem_of_mem_erase he)

theorem Reachable.counters_inv {P : C → Prop} (hstart : P c₀)
    (henter : ∀ c t r m, P c → may t r m → P (L.enter c r m)) (hgrant : ∀ c r m, P c → P (L.grant c r m))
    (hleave : ∀ c c' r m, P c → L.leave c r m = some c' → P c') : P s.counters := by
  have hattempt : ∀ (s : LockState T C R) t r m, P s.counters → P (L.attempt s t r m).counters := by
    intro s t r m hs
    unfold WaitLock.attempt
    split
    · exact hs
    · exact hgrant _ _ _ hs
  induction h with
  | start => exact hstart
  | lock _ _ hmay ih => exact hattempt _ _ _ _ (henter _ _ _ _ ih hmay)
  | wake _ _ ih => exact hattempt _ _ _ _ ih
  | unlock _ _ _ hun ih =>
    obtain ⟨c, hc, rfl⟩ := Option.map_eq_some_iff.1 hun
    exact hleave _ _ _ _ ih hc

theorem Reachable.exclusive
    (hmay : ∀ t u r m, t ≠ u → may t r .write → ¬may u r m) (r : R) : Exclusive (s.holders r) := by
  intro t ht e he
  by_contra hne
  exact hmay t e.1 r e.2 (Ne.symm hne) (h.permitted.2 r _ ht) (h.permitted.2 r e he)

end
end Invariants
end Prj.Base
