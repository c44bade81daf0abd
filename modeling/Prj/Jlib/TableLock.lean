import Prj.Base.WaitLock

/-!
Locks for tables (`_jdb_lock_table` and `_jdb_unlock_table` in `jlib/src/jdb_lock.c`).

`isOpen` says for which names `_jdb_table_handle` finds a table; for another one both functions return its error. A
thread may wake up at any time.
-/
namespace Prj.Jlib.TableLock
open Prj.Base
open Function

section Model
variable {N : Type} [DecidableEq N]

/-- `wr_ref` and `rd_ref` of the handle, `lock_wr` and `lock_rd` of the tables. -/
structure Counters (N : Type) where
  wrRef : UInt32
  rdRef : UInt32
  lockWr : N → UInt32
  lockRd : N → UInt32

def Counters.zero : Counters N := ⟨0, 0, fun _ => 0, fun _ => 0⟩

/-- The counters go up before the test, and each of its branches waits for `lock_wr`. A failed assertion ends the
program. -/
def tableLock : WaitLock (Counters N) N where
  enter
    | c, n, .write => { c with wrRef := c.wrRef + 1, lockWr := update c.lockWr n (c.lockWr n + 1) }
    | c, n, .read => { c with rdRef := c.rdRef + 1, lockRd := update c.lockRd n (c.lockRd n + 1) }
  blocked c n _ := c.lockWr n ≠ 0
  grant c _ _ := c
  leave
    | c, n, .write =>
      if c.lockWr n ≠ 0 then
        if c.wrRef = 0 then none
        else some { c with wrRef := c.wrRef - 1, lockWr := update c.lockWr n (c.lockWr n - 1) }
      else some c
    | c, n, .read =>
      if c.lockRd n ≠ 0 then
        if c.rdRef = 0 then none
        else some { c with rdRef := c.rdRef - 1, lockRd := update c.lockRd n (c.lockRd n - 1) }
      else some c

end Model

section Spec
variable {T N : Type} [DecidableEq T] [DecidableEq N] (isOpen : N → Bool) (calls : T → N → Mode → Prop)

/-- The requests of threads that make only the calls of `calls`. -/
def Asks (t : T) (n : N) (m : Mode) : Prop := isOpen n = true ∧ calls t n m

def Releases (_ : T) (n : N) (_ : Mode) : Prop := isOpen n = true

def Runs (s : LockState T (Counters N) N) : Prop :=
  Reachable tableLock (Asks isOpen calls) (Releases isOpen) Counters.zero s

def Completes (s : LockState T (Counters N) N) (t : T) (n : N) (m : Mode) : Prop :=
  (tableLock.lock s t n m).waits t = none ∧ (t, m) ∈ (tableLock.lock s t n m).holders n

structure Correct (s : LockState T (Counters N) N) : Prop where
  /-- Nobody waits for a table that nobody has. -/
  free : ∀ t n m, s.waits t = none → Asks isOpen calls t n m → s.holders n = [] → Completes s t n m
  exclusive : ∀ n, Exclusive (s.holders n)
  /-- A reader does not wait for other readers. -/
  shared : ∀ t n, s.waits t = none → Asks isOpen calls t n .read → (∀ e ∈ s.holders n, e.2 = .read) →
    Completes s t n .read

end Spec

variable {T N : Type} [DecidableEq T] [DecidableEq N] {isOpen : N → Bool} {calls : T → N → Mode → Prop}
  {s : LockState T (Counters N) N} {t : T} {n : N}

theorem waits_of_write (h : s.counters.lockWr n = 0) : (tableLock.lock s t n .write).waits t = some (n, .write) := by
  simp [WaitLock.lock, WaitLock.attempt, tableLock, h]

theorem completes_of_read (h : s.counters.lockWr n = 0) : Completes s t n .read := by
  simp [Completes, WaitLock.lock, WaitLock.attempt, tableLock, h]

theorem lockWr_eq_zero (hcalls : ∀ t n, isOpen n = true → ¬calls t n .write) (h : Runs isOpen calls s) (n : N) :
    s.counters.lockWr n = 0 := by
  refine Reachable.counters_inv (P := fun c => ∀ n, c.lockWr n = 0) h (fun _ => rfl) ?_ (fun _ _ _ hc => hc) ?_ n
  · intro c t r m hc hasks
    cases m with
    | read => exact hc
    | write => exact absurd hasks.2 (hcalls t r hasks.1)
  · intro c c' r m hc hleave
    cases m with
    | write =>
      have hsame : tableLock.leave c r .write = some c := if_neg (not_not.2 (hc r))
      rw [hsame, Option.some_inj] at hleave
      rwa [← hleave]
    | read =>
      simp only [tableLock] at hleave
      split_ifs at hleave
      all_goals
        cases hleave
        exact hc

/-- The locks are as they should be if and only if no thread ever asks to write. -/
theorem correct_iff_readers (isOpen : N → Bool) (calls : T → N → Mode → Prop) :
    (∀ s, Runs isOpen calls s → Correct isOpen calls s) ↔ ∀ t n, isOpen n = true → ¬calls t n .write := by
  constructor
  · intro h t n hopen hcall
    obtain ⟨hwaits, -⟩ := (h _ .start).free t n .write rfl ⟨hopen, hcall⟩ rfl
    rw [waits_of_write rfl] at hwaits
    cases hwaits
  · intro hcalls s hs
    have hzero := lockWr_eq_zero hcalls hs
    have hreaders : ∀ n, ∀ e ∈ s.holders n, e.2 = .read := by
      intro n e he
      have hasks := hs.permitted.2 n e he
      cases hmode : e.2 with
      | read => rfl
      | write =>
        rw [hmode] at hasks
        exact absurd hasks.2 (hcalls e.1 n hasks.1)
    refine ⟨fun t n m _ hasks _ => ?_, fun n t ht => (nomatch hreaders n _ ht), fun t n _ _ _ => ?_⟩
    · cases m with
      | read => exact completes_of_read (hzero n)
      | write => exact absurd hasks.2 (hcalls t n hasks.1)
    · exact completes_of_read (hzero n)

/-- The first request to write a table waits, and is still there after each time that it wakes up. -/
theorem waits_first_writer : ∃ s : LockState Unit (Counters Unit) Unit,
    Runs (fun _ => true) (fun _ _ _ => True) s ∧ s.holders () = [] ∧ s.waits () = none ∧
    (tableLock.lock s () () .write).waits () = some ((), .write) ∧
    (tableLock.attempt (tableLock.lock s () () .write) () () .write).waits () = some ((), .write) := by
  refine ⟨_, .start, rfl, rfl, waits_of_write rfl, ?_⟩
  simp [WaitLock.lock, WaitLock.attempt, tableLock, Counters.zero]

end Prj.Jlib.TableLock
