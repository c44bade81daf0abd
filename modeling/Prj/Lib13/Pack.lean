import Prj.Base.Bytes

/-! Packing and unpacking by format string (`lib13/pack13.c`, `lib13/include/pack13i.c`). Buffers
are lists or memories of bytes; buffers are shorter than 2^32, so that `unsigned int` holds their
lengths, and `size_t` holds all sums. -/
namespace Prj.Lib13
open Prj.Base

/-- `pack754` and `unpack754` on the number type, the width in bits and the exponent width. -/
structure Codec754 (F : Type) where
  pack754 : F → ℕ → ℕ → ℕ
  unpack754 : ℕ → ℕ → ℕ → F

structure CStr where
  bytes : List UInt8
  no_nul : 0 ∉ bytes

inductive Dir
  | c
  | int (w : ℕ) (signed : Bool)
  | flt (w expbits : ℕ)
  | s
  | b
  | digit (n : ℕ)
  | other
deriving DecidableEq

def dirOf (ch : Char) : Dir :=
  match ch with
  | 'c' => .c
  | 'C' => .int 1 false
  | 'h' => .int 2 true
  | 'H' => .int 2 false
  | 'l' => .int 4 true
  | 'L' => .int 4 false
  | 'q' => .int 8 true
  | 'Q' => .int 8 false
  | 'f' => .flt 2 5
  | 'd' => .flt 4 8
  | 'g' => .flt 8 11
  | 's' => .s
  | 'b' => .b
  | ch => if ch.isDigit then .digit (ch.toNat - '0'.toNat) else .other

theorem dirOf_of_isDigit {ch : Char} (h : ch.isDigit = true) : dirOf ch = .digit (ch.toNat - '0'.toNat) := by
  unfold dirOf
  split <;> first | exact absurd h (by decide) | exact if_pos h

theorem exists_of_bind_eq_ok {ε α β : Type} {x : Except ε α} {f : α → Except ε β} {b : β} (h : x >>= f = .ok b) :
    ∃ a, x = .ok a ∧ f a = .ok b := by
  cases x with
  | error e => cases h
  | ok a => exact ⟨a, rfl, h⟩

/-- An argument of `pack13`. The two arguments of `b` are one buffer of the given length. -/
inductive Arg (F : Type)
  | int (z : ℤ)
  | flt (x : F)
  | str (s : CStr)
  | buf (bs : List UInt8)

/-- `room` is the return value `(size_t)-1`; `args` is a call without the argument the format asks
for, which C leaves undefined. -/
inductive PackErr
  | room
  | args

structure PState (F : Type) where
  args : List (Arg F)
  size : ℕ
  out : List UInt8

/-- `size += n; ISROOM();` and the stores that follow. -/
def emit {F : Type} (bufsize n : ℕ) (bytes : List UInt8) (args : List (Arg F)) (st : PState F) :
    Except PackErr (PState F) :=
  if st.size + n > bufsize then .error .room
  else .ok ⟨args, st.size + n, st.out ++ bytes⟩

/-- One round of the loop of `pack13`. -/
def packStep {F : Type} (k : Codec754 F) (bufsize : ℕ) (ch : Char) (st : PState F) : Except PackErr (PState F) :=
  match dirOf ch, st.args with
  | .c, .int z :: args => emit bufsize 1 (bigEndian 1 z) args st
  | .int w _, .int z :: args => emit bufsize w (bigEndian w z) args st
  | .flt w e, .flt x :: args => emit bufsize w (bigEndian w (k.pack754 x (8 * w) e)) args st
  | .s, .str s :: args =>
    -- `unsigned int len = strlen(s)`; `len + 2` is computed in 32 bits, and `len` bytes are copied
    let len := s.bytes.length % 2 ^ 32
    if len = 0 then .error .room
    else emit bufsize ((len + 2) % 2 ^ 32) (bigEndian 2 len ++ s.bytes.take len) args st
  | .b, .buf bs :: args =>
    let len := bs.length
    -- `sizeof(unsigned int)` is counted for the length, two bytes are written
    if len = 0 then .error .room
    else emit bufsize (len + 4) (bigEndian 2 len ++ bs) args st
  | .digit _, _ => .ok st
  | .other, _ => .ok st
  | _, _ => .error .args

def packLoop {F : Type} (k : Codec754 F) (bufsize : ℕ) : List Char → PState F → Except PackErr (PState F)
  | [], st => .ok st
  | ch :: fmt, st => do
    let st ← packStep k bufsize ch st
    packLoop k bufsize fmt st

/-- `pack13`: the returned size and the bytes written to `buf`. -/
def pack13 {F : Type} (k : Codec754 F) (bufsize : ℕ) (fmt : List Char) (args : List (Arg F)) :
    Except PackErr (ℕ × List UInt8) := do
  let st ← packLoop k bufsize fmt ⟨args, 0, []⟩
  return (st.size, st.out)

/-- What `unpack13` stores through its pointers; `b` stores its length and then its bytes. -/
inductive Store (F : Type)
  | int (z : ℤ)
  | flt (x : F)
  | str (bytes : List UInt8)
  | len (n : ℕ)
  | bytes (bs : List UInt8)
deriving DecidableEq

/-- The state of `unpack13`: the index `pos` in the format, the index `cur` of `buf` in the input,
the number of buffers so far, the stores (with the index of their directive) and the indices read. -/
structure UState (F : Type) where
  pos : ℕ
  cur : ℕ
  size : ℕ
  maxstrlen : ℕ
  nbuf : ℕ
  out : List (ℕ × Store F)
  reads : List ℕ

namespace UState
variable {F : Type}

def init : UState F := ⟨0, 0, 0, 0, 0, [], []⟩

def store (st : UState F) (v : Store F) : UState F := { st with out := st.out ++ [(st.pos, v)] }

def read (st : UState F) (p n : ℕ) : UState F :=
  { st with reads := st.reads ++ List.range' p n }

/-- The end of a round: `if (!isdigit(*format)) maxstrlen = 0;` and `format++`. -/
def next (ch : Char) (st : UState F) : UState F :=
  { st with pos := st.pos + 1, maxstrlen := if ch.isDigit then st.maxstrlen else 0 }

end UState

/-- `unpacku16`, `unpacku32`, `unpacku64`. -/
def unpacku (bs : List UInt8) : ℕ := ofBigEndian bs

/-- `unpacki16`, `unpacki32`, `unpacki64`. -/
def unpacki (w : ℕ) (bs : List UInt8) : ℤ :=
  let i2 := unpacku bs
  if i2 ≤ 256 ^ w / 2 - 1 then i2 else -1 - (256 ^ w - 1 - i2)

/-- How many bytes of a string of length `len` are copied. -/
def strCount (maxstrlen len : ℕ) : ℕ :=
  if maxstrlen > 0 ∧ len > maxstrlen then maxstrlen - 1 else len

section
variable {F : Type} (mem : ℕ → UInt8) (bufsize : ℕ)

/-- The case `c`. The cursor `buf` moves in the first branch only. -/
def unpackC (st : UState F) : Except (UState F) (UState F) :=
  let st := { st with size := st.size + 1 }
  if st.size > bufsize then .error st
  else
    let b := mem st.cur
    let st := st.read st.cur 1
    if b ≤ 0x7f then .ok { st.store (.int b.toNat) with cur := st.cur + 1 }
    else .ok (st.store (.int (-1 - (0xff - b.toNat))))

/-- The other cases of a fixed width `w`; `value` is what is stored for the bytes read. -/
def unpackFixed (w : ℕ) (value : List UInt8 → Store F) (st : UState F) : Except (UState F) (UState F) :=
  let st := { st with size := st.size + w }
  if st.size > bufsize then .error st
  else
    let bs := fetch mem st.cur w
    let st := st.read st.cur w
    .ok { st.store (value bs) with cur := st.cur + w }

/-- The case `s`. The length is read before anything is checked. -/
def unpackS (st : UState F) : Except (UState F) (UState F) :=
  let len := unpacku (fetch mem st.cur 2)
  let st := { st.read st.cur 2 with size := st.size + (len + 2) }
  if len = 0 then .error st
  else if st.size > bufsize then .error st
  else
    let count := strCount st.maxstrlen len
    let bs := fetch mem (st.cur + 2) count
    let st := st.read (st.cur + 2) count
    .ok { st.store (.str (bs ++ [0])) with cur := st.cur + 2 + len }

/-- The case `b`. The capacity of the `n`th buffer destination is `caps n`. -/
def unpackB (caps : ℕ → ℕ) (st : UState F) : Except (UState F) (UState F) :=
  let len := caps st.nbuf
  let h := unpacku (fetch mem st.cur 2)
  let st := { (st.read st.cur 2).store (.len h) with nbuf := st.nbuf + 1 }
  if h = 0 ∨ len < h then .error st
  else
    let st := { st with size := st.size + (h + 2) }
    if st.size > bufsize then .error st
    else
      let bs := fetch mem (st.cur + 2) h
      let st := st.read (st.cur + 2) h
      .ok { st.store (.bytes bs) with cur := st.cur + 2 + h }

/-- One round of the switch of `unpack13`; an error is a return of `(size_t)-1` in that state. -/
def unpackStep (k : Codec754 F) (caps : ℕ → ℕ) (ch : Char) (st : UState F) : Except (UState F) (UState F) :=
  match dirOf ch with
  | .c => unpackC mem bufsize st
  | .int w signed =>
    unpackFixed mem bufsize w (fun bs => .int (if signed then unpacki w bs else unpacku bs)) st
  | .flt w e => unpackFixed mem bufsize w (fun bs => .flt (k.unpack754 (unpacku bs) (8 * w) e)) st
  | .s => unpackS mem bufsize st
  | .b => unpackB mem bufsize caps st
  | .digit n => .ok { st with maxstrlen := (st.maxstrlen * 10 + n) % 2 ^ 32 }
  | .other => .ok st

def unpackLoop (k : Codec754 F) (caps : ℕ → ℕ) : List Char → UState F → Except (UState F) (UState F)
  | [], st => .ok st
  | ch :: fmt, st => do
    let st ← unpackStep mem bufsize k caps ch st
    unpackLoop k caps fmt (st.next ch)

/-- `unpack13` on the memory that starts at `buf`. -/
def unpack13 (k : Codec754 F) (caps : ℕ → ℕ) (fmt : List Char) : Except (UState F) (UState F) :=
  unpackLoop mem bufsize k caps fmt .init

end
end Prj.Lib13
