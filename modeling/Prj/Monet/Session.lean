import Mathlib.Data.List.Basic

/-!
New sessions (`_monet_create_session` in `libmonetr/monet_sess.c`).

The mutex `sess_array.mx` is not recursive: a call that locks it twice does not return, and is `none`.
-/
namespace Prj.Monet
open List Option

structure Session where
  owner : BitVec 32
  name : List UInt8

/-- A slot is `NULL`, or points to a session or to what `malloc` has left there. -/
abbrev Slot := Option (Option Session)

/-- `struct monet_session_array`; the array has `nalloc` slots. -/
structure SessArray where
  locked : Bool
  array : Option (List Slot)
  npause : ℕ
  nactive : ℕ

/-- A call, and which of the things that it needs the system does not give. Where `junk` says so, a new slot is not
`NULL`. -/
structure Call where
  sess : Session
  noArray : Bool
  noSession : Bool
  noPipe : Bool
  junk : ℕ → Bool

section Model
variable (bulk : ℕ) (call : Call)

/-- `_monet_init_session`. The thread that it starts unlocks the mutex. -/
def initSession (i : ℕ) (s : SessArray) : Option SessArray :=
  if call.noSession || call.noPipe then some s
  else if s.locked then none
  else some { s with array := s.array.map (·.set i (some (some call.sess))) }

/-- The rest of the call: what `_monet_init_session` returns is dropped. -/
def activate (i : ℕ) (s : SessArray) : Option SessArray := do
  let s ← initSession call i s
  some { s with nactive := s.nactive + 1, locked := false }

def createSession (s : SessArray) : Option SessArray :=
  match s.array with
  | none =>
    if call.noArray then some { s with locked := true }
    else
      let slots := (List.range bulk).map fun i => if call.junk i then some none else none
      activate call 0 ⟨true, some slots, 0, 0⟩
  | some slots =>
    if s.locked then none
    else if s.nactive + s.npause = slots.length then
      -- `realloc` has no memory, and the array is lost
      if call.noArray then some { s with locked := true, array := none }
      else activate call slots.length { s with locked := true, array := some (slots ++ List.replicate bulk none) }
    else activate call (slots.findIdx (· = none)) { s with locked := true }

end Model

/-- The session is in a slot that was not used before, the slots in use are counted, and the mutex is free. -/
def Stores (call : Call) (s s' : SessArray) : Prop :=
  ∃ slots i, s'.array = some slots ∧ i < slots.length ∧ (∀ x, (s.array.getD [])[i]? ≠ some (some x)) ∧
    slots[i]? = some (some (some call.sess)) ∧ s'.nactive = slots.countP Option.isSome ∧ s'.locked = false

/-- Every call returns and does what it should. -/
def CreatesAll (bulk : ℕ) : SessArray → List Call → Prop
  | _, [] => True
  | s, call :: calls => ∃ s', createSession bulk call s = some s' ∧ Stores call s s' ∧ CreatesAll bulk s' calls

variable {bulk i : ℕ} {call : Call} {s s' : SessArray}

theorem array_activate (hs : activate call i s = some s') (hlocked : s.locked = true) : s'.array = s.array := by
  obtain ⟨s₁, hinit, hs⟩ := bind_eq_some_iff.1 hs
  cases hs
  rw [initSession] at hinit
  split_ifs at hinit
  cases hinit
  rfl

/-- A call that returns has not stored its session. -/
theorem not_stores (hs : createSession bulk call s = some s') : ¬ Stores call s s' := by
  rintro ⟨slots, i, hslots, -, hunused, hi, -, -⟩
  unfold createSession at hs
  cases harray : s.array with
  | none =>
    simp only [harray] at hs
    split_ifs at hs
    · cases hs
      cases hslots
    · cases hslots.symm.trans (array_activate hs rfl)
      rw [getElem?_map] at hi
      obtain ⟨j, -, hj⟩ := map_eq_some_iff.1 hi
      split_ifs at hj
      all_goals cases hj
  | some old =>
    rw [harray] at hunused
    simp only [harray] at hs
    split_ifs at hs
    · cases hs
      cases hslots
    · cases hslots.symm.trans (array_activate hs rfl)
      rw [getElem?_append, getElem?_replicate] at hi
      split_ifs at hi
      · exact hunused _ hi
      · cases hi
    · cases hslots.symm.trans (array_activate hs rfl)
      exact hunused _ hi

/-- The second lock of the mutex in one call, so that only a run without calls is right. -/
theorem createsAll_iff (bulk : ℕ) (s : SessArray) (calls : List Call) : CreatesAll bulk s calls ↔ calls = [] := by
  constructor
  · intro h
    cases calls with
    | nil => rfl
    | cons call calls =>
      obtain ⟨s', hs, hstores, -⟩ := h
      exact absurd hstores (not_stores hs)
  · rintro rfl
    trivial

/-- The first call has all that it needs, and does not return. -/
theorem not_createsAll_first :
    ¬ CreatesAll 4 ⟨false, none, 0, 0⟩ [⟨⟨1, []⟩, false, false, false, fun _ => false⟩] := by
  rintro ⟨s', hs, -⟩
  cases hs

end Prj.Monet
