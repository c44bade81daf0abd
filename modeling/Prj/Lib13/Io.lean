import Mathlib.Algebra.Group.Nat.Defs
import Prj.Base.Splice
import Prj.Lib13.Error

/-! Reading and writing files (`lib13/io13.c`). The answers of the system calls of a handle are a
list, and a function gives `none` when it needs one more. `open`, `stat` and `fsync` succeed, and
`read` and `write` move at most `INT_MAX` bytes at once. -/
namespace Prj.Lib13
open Prj.Base

/-- An answer of `read` or `write`: `EAGAIN` or `EINTR`, another error, or up to `k + 1` bytes. -/
inductive Sys
  | again
  | fail
  | part (k : ℕ)
deriving DecidableEq, Repr

/-- The counters of `struct io13`, and whether `rdflags` and `wrflags` have `IO13_IOF_HARD`. -/
structure Io13 where
  rddone : ℕ
  wrdone : ℕ
  lastrd : ℕ
  lastwr : ℕ
  rdhard : Bool
  wrhard : Bool
deriving DecidableEq, Repr

/-- `(size_t)-1` -/
def sizeMax : ℕ := 2 ^ 64 - 1

/-- What `io13_read` leaves: `rest` is what is still to be read. -/
structure RdRun where
  ret : Ret
  h : Io13
  buf : List UInt8
  rest : List UInt8
  answers : List Sys

def io13Read (count : ℕ) (hard : Bool) : List Sys → Io13 → List UInt8 → List UInt8 → Option RdRun
  | [], h, buf, rest => if h.rddone < count then none else some ⟨.ok, h, buf, rest, []⟩
  | a :: answers, h, buf, rest =>
    if h.rddone < count then
      match a with
      | .again =>
        let h := { h with lastrd := sizeMax }
        if h.rdhard || hard then io13Read count hard answers h buf rest
        else some ⟨.continue_, h, buf, rest, answers⟩
      | .fail => some ⟨.err .ioerr, { h with lastrd := sizeMax }, buf, rest, answers⟩
      | .part k =>
        let data := rest.take (min (count - h.rddone) (k + 1))
        let h := { h with lastrd := data.length }
        if data = [] then some ⟨.done, h, buf, rest, answers⟩
        else io13Read count hard answers { h with rddone := h.rddone + data.length }
          (splice buf h.rddone data) (rest.drop data.length)
    else some ⟨.ok, h, buf, rest, a :: answers⟩

/-- What `io13_write` leaves: the file and the offset in it. -/
structure WrRun where
  ret : Ret
  h : Io13
  file : List UInt8
  pos : ℕ
  answers : List Sys

def io13Write (buf : List UInt8) (count : ℕ) (hard : Bool) : List Sys → Io13 → List UInt8 → ℕ → Option WrRun
  | [], h, file, pos => if h.wrdone < count then none else some ⟨.ok, h, file, pos, []⟩
  | a :: answers, h, file, pos =>
    if h.wrdone < count then
      match a with
      | .again =>
        let h := { h with lastwr := sizeMax }
        if h.wrhard || hard then io13Write buf count hard answers h file pos
        else some ⟨.continue_, h, file, pos, answers⟩
      | .fail => some ⟨.err .ioerr, { h with lastwr := sizeMax }, file, pos, answers⟩
      | .part k =>
        let data := (buf.drop h.wrdone).take (min (count - h.wrdone) (k + 1))
        let h := { h with lastwr := data.length }
        if data = [] then some ⟨.done, h, file, pos, answers⟩
        else io13Write buf count hard answers { h with wrdone := h.wrdone + data.length }
          (splice file pos data) (pos + data.length)
    else some ⟨.ok, h, file, pos, a :: answers⟩

/-- What the loop of `io13_copy_file2` works on. -/
structure CopyState where
  inio : Io13
  outio : Io13
  buf : List UInt8
  rest : List UInt8
  rd : List Sys
  file : List UInt8
  pos : ℕ
  wr : List Sys

/-- One round of `while( io13_get_wrsize(&outio) < st.size )`; an error ends the function. -/
def copyRound (bufsize : ℕ) (s : CopyState) : Option (Ret × CopyState) := do
  let r ← io13Read bufsize false s.rd s.inio s.buf s.rest
  let s := { s with inio := r.h, buf := r.buf, rest := r.rest, rd := r.answers }
  if r.ret = .ok ∨ r.ret = .done then
    let w ← io13Write s.buf s.inio.lastrd false s.wr s.outio s.file s.pos
    let s := { s with outio := w.h, file := w.file, pos := w.pos, wr := w.answers }
    if w.ret = .ok ∨ w.ret = .done then return (.ok, s) else return (w.ret, s)
  else return (r.ret, s)

def copyLoop (size bufsize : ℕ) : ℕ → CopyState → Option (Ret × CopyState)
  | 0, _ => none
  | fuel + 1, s =>
    if s.outio.wrdone < size then
      match copyRound bufsize s with
      | some (.ok, s) => copyLoop size bufsize fuel s
      | r => r
    else some (.ok, s)

def maxCopyFileBufSize : ℕ := 10 * 1024 * 1024

def copyFileBufSize : ℕ := 1024 * 1024

structure CopyFlags where
  replace : Bool
  move : Bool

/-- `m13_malloc`: a block of the size, with anything in it, or `NULL`. -/
structure Alloc where
  malloc : ℕ → Option (List UInt8)
  length_malloc : ∀ n b, malloc n = some b → b.length = n

/-- `io13_init` and `io13_set_ioflags` with `IO13_IOF_HARD`. -/
def Io13.hard : Io13 := ⟨0, 0, 0, 0, true, true⟩

def CopyState.start (buf source file : List UInt8) (rd wr : List Sys) : CopyState :=
  ⟨.hard, .hard, buf, source, rd, file, 0, wr⟩

structure CopyRun where
  ret : Ret
  target : List UInt8
  source : Bool
deriving DecidableEq

def copyBufSize (size extbufsize : ℕ) : ℕ :=
  if extbufsize = 0 then if size < maxCopyFileBufSize then size else maxCopyFileBufSize
  else extbufsize

/-- `io13_copy_file2` with the buffer `extbuf`, which is empty when `extbufsize` is 0; `target` is
the file that is there before. The flags `outflags` that the function works out, with `O_TRUNC` or
`O_EXCL`, are not those it opens the target with. -/
def io13CopyFile2 (m : Alloc) (fuel : ℕ) (rd wr : List Sys) (target : Option (List UInt8))
    (source extbuf : List UInt8) (copyflags : CopyFlags) : Option CopyRun :=
  let bufsize := copyBufSize source.length extbuf.length
  match if extbuf.length = 0 then m.malloc bufsize else some extbuf with
  | none => some ⟨.err .nomem, target.getD [], true⟩
  | some buf =>
    (copyLoop source.length bufsize fuel (.start buf source (target.getD []) rd wr)).map
      fun (ret, s) => ⟨ret, s.file, !(ret = .ok && copyflags.move)⟩

/-- `io13_copy_file`, with what is in its buffer. -/
def io13CopyFile (m : Alloc) (fuel : ℕ) (rd wr : List Sys) (target : Option (List UInt8))
    (source : List UInt8) (buf : Vector UInt8 copyFileBufSize) (copyflags : CopyFlags) : Option CopyRun :=
  io13CopyFile2 m fuel rd wr target source buf.toList copyflags

end Prj.Lib13
