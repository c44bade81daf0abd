import Prj.Jlib.JournalRec
import Mathlib.Logic.Function.Basic

/-! Calls of `_jdb_jrnl_reg` in several threads, with the thread that writes the journal (`jlib/src/jdb_jrnl.c`). The
state of the cipher is shared and has no lock; each call of `rc4` is one step. -/
namespace Prj.Jlib.Journal
open Prj.Base List Function

/-- The steps of the call `t`, and one of `_jdb_jrnl_thread`. -/
inductive Step (T : Type)
  | header (t : T)
  | args (t : T)
  | request (t : T)
  | write

/-- The place in the stream of the cipher, the buffers of the calls, the queue and the file. -/
structure Threads (T : Type) where
  pos : ℕ
  buf : T → List UInt8
  fifo : List (List UInt8)
  file : List UInt8

variable {T : Type} [DecidableEq T] {ks : ℕ → UInt8} {recs : T → Hdr × List UInt8} {s s' : Threads T} {calls : List T}
  {steps : List (Step T)}

def step (ks : ℕ → UInt8) (recs : T → Hdr × List UInt8) (s : Threads T) : Step T → Threads T
  | .header t => { s with
      pos := s.pos + (recs t).1.bytes.length
      buf := update s.buf t (mask ks s.pos (recs t).1.bytes) }
  | .args t => { s with
      pos := s.pos + (recs t).2.length
      buf := update s.buf t (s.buf t ++ mask ks s.pos (recs t).2) }
  | .request t => { s with fifo := s.fifo ++ [s.buf t] }
  | .write =>
    match s.fifo with
    | [] => s
    | buf :: fifo => { s with fifo := fifo, file := s.file ++ buf }

def run (ks : ℕ → UInt8) (recs : T → Hdr × List UInt8) (steps : List (Step T)) : Threads T :=
  steps.foldl (step ks recs) ⟨0, fun _ => [], [], []⟩

def callSteps (t : T) : List (Step T) := [.header t, .args t, .request t]

def plain (recs : T → Hdr × List UInt8) (t : T) : List UInt8 := (recs t).1.bytes ++ (recs t).2

def Step.ofCall : Step T → Bool
  | .write => false
  | _ => true

/-- The file once the queue has been written. -/
def Threads.journal (s : Threads T) : List UInt8 := s.file ++ s.fifo.flatten

def Same (s s' : Threads T) : Prop := s.pos = s'.pos ∧ s.buf = s'.buf ∧ s.journal = s'.journal

theorem same_write : Same (step ks recs s .write) s := by
  cases hfifo : s.fifo with
  | nil => simp [step, hfifo, Same]
  | cons buf fifo => simp [step, hfifo, Same, Threads.journal]

theorem Same.step (h : Same s s') {a : Step T} (ha : a.ofCall = true) :
    Same (step ks recs s a) (step ks recs s' a) := by
  obtain ⟨hpos, hbuf, hjournal⟩ := h
  simp only [Threads.journal] at hjournal
  cases a with
  | header t | args t => simp [Journal.step, Same, Threads.journal, hpos, hbuf, hjournal]
  | request t => simp [Journal.step, Same, Threads.journal, hpos, hbuf, ← append_assoc, hjournal]
  | write => cases ha

theorem Same.foldl (h : Same s s') (steps : List (Step T)) :
    Same (steps.foldl (Journal.step ks recs) s) ((steps.filter Step.ofCall).foldl (Journal.step ks recs) s') := by
  induction steps generalizing s s' with
  | nil => exact h
  | cons a steps ih =>
    rw [foldl_cons, filter_cons]
    split_ifs with ha
    · exact ih (h.step ha)
    · cases a with
      | write =>
        obtain ⟨hpos, hbuf, hjournal⟩ : Same (Journal.step ks recs s .write) s := same_write
        exact ih ⟨hpos.trans h.1, hbuf.trans h.2.1, hjournal.trans h.2.2⟩
      | header | args | request => exact absurd rfl ha

theorem foldl_callSteps (hpos : s.pos = s.journal.length) (calls : List T) :
    ((calls.flatMap callSteps).foldl (step ks recs) s).journal =
      s.journal ++ mask ks s.pos (calls.flatMap (plain recs)) := by
  induction calls generalizing s with
  | nil => simp [mask]
  | cons t calls ih =>
    have hone : ((callSteps t).foldl (step ks recs) s).journal = s.journal ++ mask ks s.pos (plain recs t) := by
      simp [callSteps, step, Threads.journal, plain, mask_append]
    have hnext : ((callSteps t).foldl (step ks recs) s).pos = s.pos + (plain recs t).length := by
      simp [callSteps, step, plain, Nat.add_assoc]
    rw [flatMap_cons, foldl_append, ih (by rw [hone, hnext, hpos]; simp), hone, hnext, flatMap_cons, mask_append,
      append_assoc]

/-- If no step of another call comes between the first call of `rc4` and the request to write, the journal is
decrypted to the records in their order, whenever it is written. -/
theorem mask_journal (ks : ℕ → UInt8) (recs : T → Hdr × List UInt8)
    (h : steps.filter Step.ofCall = calls.flatMap callSteps) :
    mask ks 0 (run ks recs steps).journal = calls.flatMap (plain recs) := by
  rw [run, (Same.foldl ⟨rfl, rfl, rfl⟩ steps).2.2, h, foldl_callSteps rfl]
  exact mask_mask

theorem mask_journal_two : mask (fun p => .ofNat p) 0 (run (fun p => .ofNat p)
      (fun t : Bool => (⟨0, 0, if t then 1 else 2, 0, 0⟩, []))
      [.header true, .args true, .request true, .header false, .write, .args false, .request false]).journal =
    [true, false].flatMap (plain fun t : Bool => (⟨0, 0, if t then 1 else 2, 0, 0⟩, [])) :=
  mask_journal _ _ rfl

/-- Two calls of which the second one asks first. -/
theorem not_mask_journal : mask (fun p => .ofNat p) 0 (run (fun p => .ofNat p) (fun _ : Bool => (⟨0, 0, 0, 0, 0⟩, []))
      [.header true, .args true, .header false, .args false, .request false, .request true, .write, .write]).file ≠
    [true, false].flatMap (plain fun _ : Bool => (⟨0, 0, 0, 0, 0⟩, [])) := by
  decide

end Prj.Jlib.Journal
