import Prj.Base.Search
import Prj.Base.WaitLock

/-!
Locks for regions of object ids (`obj13_ctl_find_type_array`, `obj13_ctl_region_lock` and `obj13_ctl_region_unlock` in
`lib13/obj13.c`).

The members of a region that a lock changes are kept apart from the list of regions. A thread may wake up at any time.
-/
namespace Prj.Lib13.RegionLock
open Prj.Base List
open Function

section Model
/-- `struct obj13_region`; `norefrd` and `norefwr` are bits of its flags. -/
structure Region where
  norefrd : Bool
  norefwr : Bool
  start : UInt64
  endId : UInt64
  deriving DecidableEq

/-- The bits of `obj13_region_lock_t`. -/
structure LockBits where
  wr : Bool
  rd : Bool
  deriving DecidableEq

/-- What a call does: it returns an error or `E13_OK`, or it goes on with a region. -/
inductive Outcome
  | notfound
  | perm
  | ok
  | asks (reg : ℕ) (mode : Mode)
  deriving DecidableEq

def obj13CtlFindTypeArray (ctl : List Region) (objid : UInt64) : Option (Region × ℕ) :=
  ctl.zipIdx.find? fun e => e.1.start ≥ objid ∧ e.1.endId ≤ objid

/-- Both functions test for `OBJ13_REGION_LOCK_WR` first. -/
def LockBits.asks (lock : LockBits) (reg : ℕ) : Outcome :=
  if lock.wr then .asks reg .write else if lock.rd then .asks reg .read else .ok

/-- `obj13_ctl_region_lock` up to its loops. -/
def obj13CtlRegionLock (ctl : List Region) (objid : UInt64) (lock : LockBits) : Outcome :=
  match obj13CtlFindTypeArray ctl objid with
  | none => .notfound
  | some (r, reg) =>
    if lock.rd ∧ r.norefrd then .perm
    else if lock.wr ∧ r.norefwr then .perm
    else lock.asks reg

/-- `obj13_ctl_region_unlock` up to its counters. -/
def obj13CtlRegionUnlock (ctl : List Region) (objid : UInt64) (lock : LockBits) : Outcome :=
  match obj13CtlFindTypeArray ctl objid with
  | none => .notfound
  | some (_, reg) => lock.asks reg

/-- `ref_rd` and `ref_wr` of the regions. -/
structure Refs where
  refRd : ℕ → UInt32
  refWr : ℕ → UInt32

def addRef (refs : ℕ → UInt32) (reg : ℕ) : ℕ → UInt32 := update refs reg (refs reg + 1)

def dropRef (refs : ℕ → UInt32) (reg : ℕ) : ℕ → UInt32 :=
  if refs reg ≠ 0 then update refs reg (refs reg - 1) else refs

/-- The loops and counters. A writer waits while there are both readers and writers, a reader while there are
writers. -/
def regionLock : WaitLock Refs ℕ where
  enter c _ _ := c
  blocked
    | c, reg, .write => c.refRd reg ≠ 0 ∧ c.refWr reg ≠ 0
    | c, reg, .read => c.refWr reg ≠ 0
  grant
    | c, reg, .write => { c with refWr := addRef c.refWr reg }
    | c, reg, .read => { c with refRd := addRef c.refRd reg }
  leave
    | c, reg, .write => some { c with refWr := dropRef c.refWr reg }
    | c, reg, .read => some { c with refRd := dropRef c.refRd reg }

end Model

section Spec
variable {T : Type} [DecidableEq T] (ctl : List Region) (calls : T → UInt64 → LockBits → Prop)

/-- A call of the thread, if it makes only those of `calls`, can ask for the region. -/
def Asks (t : T) (reg : ℕ) (m : Mode) : Prop :=
  ∃ objid lock, calls t objid lock ∧ obj13CtlRegionLock ctl objid lock = .asks reg m

def Releases (_ : T) (reg : ℕ) (m : Mode) : Prop := ∃ objid lock, obj13CtlRegionUnlock ctl objid lock = .asks reg m

/-- The states of threads that make only the calls of `calls`. -/
def Runs (s : LockState T Refs ℕ) : Prop :=
  Reachable regionLock (Asks ctl calls) (Releases ctl) ⟨fun _ => 0, fun _ => 0⟩ s

def Region.Contains (reg : Region) (objid : UInt64) : Prop := reg.start ≤ objid ∧ objid ≤ reg.endId

/-- The region that is found contains the id, and one is found if there is any. -/
def Selects (objid : UInt64) : Prop :=
  (∀ e ∈ obj13CtlFindTypeArray ctl objid, e.1.Contains objid) ∧
    ((∃ reg ∈ ctl, reg.Contains objid) → (obj13CtlFindTypeArray ctl objid).isSome = true)

end Spec

variable {T : Type} [DecidableEq T] {ctl : List Region} {calls : T → UInt64 → LockBits → Prop} {t u : T} {reg : ℕ}
  {m : Mode} {objid : UInt64}

theorem runs_shared (hwrite : Asks ctl calls t reg .write) (hother : Asks ctl calls u reg m) :
    ∃ s, Runs ctl calls s ∧ s.holders reg = [(t, .write), (u, m)] := by
  have hstart : Runs ctl calls ⟨⟨fun _ => 0, fun _ => 0⟩, fun _ => none, fun _ => []⟩ := .start
  have hfirst := hstart.lock (t := u) rfl hother
  have hidle : (regionLock.lock ⟨⟨fun _ => 0, fun _ => 0⟩, fun _ => none, fun _ => []⟩ u reg m).waits t = none := by
    cases m with
    | read | write => simp [WaitLock.lock, WaitLock.attempt, regionLock]
  refine ⟨_, hfirst.lock hidle hwrite, ?_⟩
  cases m with
  | read | write => simp [WaitLock.lock, WaitLock.attempt, regionLock, addRef]

/-- What `obj13_ctl_find_type_array` looks for. -/
def Region.Turned (objid : UInt64) (reg : Region) : Bool := objid ≤ reg.start ∧ reg.endId ≤ objid

def Region.IsPoint (reg : Region) (objid : UInt64) : Prop := reg.start = objid ∧ reg.endId = objid

theorem map_fst_find (ctl : List Region) (objid : UInt64) :
    (obj13CtlFindTypeArray ctl objid).map Prod.fst = ctl.find? (Region.Turned objid) := by
  conv_rhs => rw [← zipIdx_map_fst 0 ctl, find?_map]
  rfl

theorem contains_iff_isPoint {r : Region} (h : r.Turned objid = true) : r.Contains objid ↔ r.IsPoint objid := by
  obtain ⟨hstart, hend⟩ : objid ≤ r.start ∧ r.endId ≤ objid := by simpa [Region.Turned] using h
  constructor
  · exact fun h => ⟨UInt64.le_antisymm h.1 hstart, UInt64.le_antisymm hend h.2⟩
  · exact fun h => ⟨UInt64.le_of_eq h.1, UInt64.le_of_eq h.2.symm⟩

theorem selects_iff (ctl : List Region) (objid : UInt64) : Selects ctl objid ↔
    (∀ pre reg post, First (Region.Turned objid) ctl pre reg post → reg.IsPoint objid) ∧
      ((∃ reg ∈ ctl, reg.Contains objid) → ∃ reg ∈ ctl, reg.IsPoint objid) := by
  have hselects : Selects ctl objid ↔ (∀ r ∈ ctl.find? (Region.Turned objid), r.Contains objid) ∧
      ((∃ reg ∈ ctl, reg.Contains objid) → (ctl.find? (Region.Turned objid)).isSome = true) := by
    rw [Selects, ← map_fst_find, Option.isSome_map]
    simp
  rw [hselects]
  obtain hnone | ⟨pre, r, post, h⟩ := forall_or_exists_first (Region.Turned objid) ctl
  · have hfind : ctl.find? (Region.Turned objid) = none := find?_eq_none.2 (by simpa using hnone)
    rw [hfind]
    refine and_congr (iff_of_true nofun fun pre reg post h => ?_) (imp_congr_right fun _ => iff_of_false nofun ?_)
    · exact absurd h.here (by simp [hnone reg (by simp [h.eq])])
    · rintro ⟨reg, hreg, rfl, hend⟩
      simpa [Region.Turned, hend] using hnone reg hreg
  · have hfind : ctl.find? (Region.Turned objid) = some r :=
      find?_eq_some_iff_append.2 ⟨h.here, pre, post, h.eq, by simpa using h.before⟩
    rw [hfind, h.forall_iff]
    simp only [Option.mem_some_iff, forall_eq', Option.isSome_some, implies_true, and_true, contains_iff_isPoint h.here]
    exact ⟨fun hr => ⟨hr, fun _ => ⟨r, by simp [h.eq], hr⟩⟩, And.left⟩

/-- Nobody shares a region with a writer if and only if no other thread asks for the regions that a thread writes to:
the lock keeps nobody apart. The search for a region is right only for regions of one id. -/
theorem regions_exclusive_iff (ctl : List Region) (calls : T → UInt64 → LockBits → Prop) :
    ((∀ s, Runs ctl calls s → ∀ reg, Exclusive (s.holders reg)) ↔
      ∀ t u reg m, t ≠ u → Asks ctl calls t reg .write → ¬Asks ctl calls u reg m) ∧
    ∀ objid, Selects ctl objid ↔
      (∀ pre reg post, First (Region.Turned objid) ctl pre reg post → reg.IsPoint objid) ∧
        ((∃ reg ∈ ctl, reg.Contains objid) → ∃ reg ∈ ctl, reg.IsPoint objid) := by
  refine ⟨⟨fun h t u reg m hne hwrite hother => ?_, fun h s hs => hs.exclusive h⟩, selects_iff ctl⟩
  obtain ⟨s, hs, hholders⟩ := runs_shared hwrite hother
  have hexclusive := h s hs reg t (by simp [hholders]) (u, m) (by simp [hholders])
  exact hne hexclusive.symm

/-- A reader and a writer hold the region of the id 5. The region from 1 to 9 is not found for the id 3. -/
theorem not_exclusive_reader : (∃ s, Runs (T := Bool) [⟨false, false, 5, 5⟩] (fun _ _ _ => True) s ∧
      ¬Exclusive (s.holders 0)) ∧
    obj13CtlFindTypeArray [⟨false, false, 1, 9⟩] 3 = none ∧ ¬Selects [⟨false, false, 1, 9⟩] 3 := by
  refine ⟨?_, by decide, ?_⟩
  · have hasks : Asks [⟨false, false, 5, 5⟩] (fun (_ : Bool) _ _ => True) true 0 .write :=
      ⟨5, ⟨true, false⟩, trivial, by decide⟩
    have hother : Asks [⟨false, false, 5, 5⟩] (fun (_ : Bool) _ _ => True) false 0 .read :=
      ⟨5, ⟨false, true⟩, trivial, by decide⟩
    obtain ⟨s, hs, hholders⟩ := runs_shared hasks hother
    refine ⟨s, hs, fun h => ?_⟩
    rw [hholders] at h
    exact absurd (h true (by simp) (false, .read) (by simp)) (by decide)
  · intro h
    exact absurd (h.2 ⟨⟨false, false, 1, 9⟩, by simp, by decide, by decide⟩) (by decide)

end Prj.Lib13.RegionLock
