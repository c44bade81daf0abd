import Prj.Base.Records

/-!
Packing and unpacking by format string (`jlib/src/jpack.c`, `jlib/include/jpacki.c`).

`char` is signed. A result `none` of `pack` is a call without the argument that the format asks for, which C
leaves undefined. Sizes are below 2^64.
-/
namespace Prj.Jlib.Jpack
open Prj.Base

structure Machine (F : Type) where
  pack754 : F → ℤ
  unpack754 : ℤ → F
  /-- A byte, as an `int` of 32 bits, shifted by 32 and more. C does not define this. -/
  wideShift : UInt8 → ℕ → BitVec 32

/-- An argument of `pack`, or what `unpack` stores for it. -/
inductive Arg (F : Type)
  | int (z : ℤ)
  | ll (z : ℤ)
  | flt (x : F)
  | str (bs : List UInt8)
  deriving DecidableEq

inductive Case
  | int (w : ℕ)
  | ll
  | flt
  | s
  | digit (n : ℕ)
  | other
  deriving DecidableEq

def caseOf (ch : Char) : Case :=
  match ch with
  | 'h' => .int 2
  | 'l' => .int 4
  | 't' => .ll
  | 'c' => .int 1
  | 'f' => .flt
  | 's' => .s
  | ch => if ch.isDigit then .digit (ch.toNat - '0'.toNat) else .other

/-- `len * 10 + digit` in a `size_t`. -/
def addDigit (len n : ℕ) : ℕ := (len * 10 + n) % 2 ^ 64

variable {F : Type} (m : Machine F)

structure PackState (F : Type) where
  args : List (Arg F)
  size : ℕ
  len : ℕ
  out : List UInt8

def PackState.emit (st : PackState F) (args : List (Arg F)) (bs : List UInt8) : PackState F :=
  { st with args := args, size := st.size + bs.length, out := st.out ++ bs }

/-- One round of the loop of `pack`. An error is the end of the call: its return value and the bytes that it
has written. -/
def packStep (ch : Char) (st : PackState F) : Except (Option (ℕ × List UInt8)) (PackState F) :=
  match caseOf ch, st.args with
  | .int w, .int z :: args => .ok (st.emit args (bigEndian w z))
  | .ll, .ll z :: args => .ok (st.emit args (bigEndian 8 z))
  | .flt, .flt x :: args => .ok (st.emit args (bigEndian 4 (m.pack754 x)))
  | .s, args =>
    if st.len = 0 then .error (some (0, st.out))
    else
      match args with
      | .str bs :: args =>
        if bs.length < st.len then .error none
        else .ok (st.emit args (bigEndian 2 st.len ++ bs.take st.len))
      | _ => .error none
  | .digit n, _ => .ok { st with len := addDigit st.len n }
  | .other, _ => .ok st
  | _, _ => .error none

/-- The end of a round: `if (!isdigit(*format)) len = 0;`. -/
def PackState.next (ch : Char) (st : PackState F) : PackState F :=
  { st with len := if ch.isDigit then st.len else 0 }

def packLoop : List Char → PackState F → Option (ℕ × List UInt8)
  | [], st => some (st.size, st.out)
  | ch :: format, st =>
    match packStep m ch st with
    | .error r => r
    | .ok st => packLoop format (st.next ch)

def pack (format : List Char) (args : List (Arg F)) : Option (ℕ × List UInt8) :=
  packLoop m format ⟨args, 0, 0, []⟩

/-- `unpacki16` and `unpacki32`. -/
def unpacki (bs : List UInt8) : ℕ := ofBigEndian bs

/-- The shifts by 56, 48, 40 and 32 are on an `int`, and so is the whole disjunction. The conversion to 64 bits
extends its sign. -/
def unpacki64 (mem : ℕ → UInt8) (p : ℕ) : ℤ :=
  (m.wideShift (mem p) 56 ||| m.wideShift (mem (p + 1)) 48 ||| m.wideShift (mem (p + 2)) 40 |||
    m.wideShift (mem (p + 3)) 32 ||| BitVec.ofNat 32 (unpacki (fetch mem (p + 4) 4))).toInt

/-- `stores` is what is stored through the pointers, in their order. -/
structure UnpackState (F : Type) where
  cur : ℕ
  size : ℕ
  maxstrlen : ℕ
  stores : List (Arg F)

def UnpackState.store (st : UnpackState F) (a : Arg F) (read size : ℕ) : UnpackState F :=
  { st with cur := st.cur + read, size := st.size + size, stores := st.stores ++ [a] }

/-- The return value `-JE_LOWBUF`. -/
def lowbuf : ℤ := -86

/-- The case `s`: the two bytes of the length are read, and not counted. -/
def unpackS (mem : ℕ → UInt8) (st : UnpackState F) : Except (ℤ × List (Arg F)) (UnpackState F) :=
  let len := unpacki (fetch mem st.cur 2)
  if st.maxstrlen > 0 ∧ len > st.maxstrlen then .error (lowbuf, st.stores)
  else .ok (st.store (.str (fetch mem (st.cur + 2) len)) (2 + len) len)

/-- One round of the loop of `unpack`; an error is the end of the call. -/
def unpackStep (mem : ℕ → UInt8) (ch : Char) (st : UnpackState F) : Except (ℤ × List (Arg F)) (UnpackState F) :=
  match caseOf ch with
  | .int w => .ok (st.store (.int (Int.bmod (unpacki (fetch mem st.cur w)) (256 ^ w))) w w)
  | .ll => .ok (st.store (.ll (unpacki64 m mem st.cur)) 8 8)
  | .flt => .ok (st.store (.flt (m.unpack754 (Int.bmod (unpacki (fetch mem st.cur 4)) (256 ^ 4)))) 4 4)
  | .s => unpackS mem st
  | .digit n => .ok { st with maxstrlen := addDigit st.maxstrlen n }
  | .other => .ok st

def UnpackState.next (ch : Char) (st : UnpackState F) : UnpackState F :=
  { st with maxstrlen := if ch.isDigit then st.maxstrlen else 0 }

def unpackLoop (mem : ℕ → UInt8) : List Char → UnpackState F → ℤ × List (Arg F)
  | [], st => (st.size, st.stores)
  | ch :: format, st =>
    match unpackStep m mem ch st with
    | .error r => r
    | .ok st => unpackLoop mem format (st.next ch)

def unpack (mem : ℕ → UInt8) (format : List Char) : ℤ × List (Arg F) :=
  unpackLoop m mem format ⟨0, 0, 0, []⟩

end Prj.Jlib.Jpack
