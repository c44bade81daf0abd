import Prj.Jlib.Jpack

/-! `unpack` on the bytes that `pack` wrote. -/
namespace Prj.Jlib.Jpack
open Prj.Base List Option

/-- The directives of integers that are passed as an `int`. -/
inductive Size
  | c
  | h
  | l
  deriving DecidableEq, Repr

namespace Size

def width : Size → ℕ
  | c => 1
  | h => 2
  | l => 4

def char : Size → Char
  | c => 'c'
  | h => 'h'
  | l => 'l'

def upperChar : Size → Char
  | c => 'C'
  | h => 'H'
  | l => 'L'

end Size

/-- The length that the digits before an `s` give. -/
def limitOf (ds : List (Fin 10)) : ℕ := ds.foldl (fun len (d : Fin 10) => addDigit len d.val) 0

inductive Field
  | int (k : Size) (z : ℤ) (hlo : -(256 ^ k.width / 2) ≤ z) (hhi : z < 256 ^ k.width / 2)
  | upper (k : Size) (z : ℤ) (hlo : 0 ≤ z) (hhi : z < 256 ^ k.width)
  | ll (z : ℤ) (hlo : -2 ^ 63 ≤ z) (hhi : z < 2 ^ 63)
  | str (d : Fin 10) (ds : List (Fin 10)) (bs : List UInt8) (hlen : bs.length = limitOf (d :: ds))

def digitChar (d : Fin 10) : Char := Char.ofNat ('0'.toNat + d)

variable {F : Type} {z : ℤ} {post : List Field}

namespace Field

def chars : Field → List Char
  | int k _ _ _ => [k.char]
  | upper k _ _ _ => [k.upperChar]
  | ll _ _ _ => ['t']
  | str d ds _ _ => (d :: ds).map digitChar ++ ['s']

def arg : Field → Arg F
  | int _ z _ _ | upper _ z _ _ => .int z
  | ll z _ _ => .ll z
  | str _ _ bs _ => .str bs

def bytes : Field → List UInt8
  | int k z _ _ => bigEndian k.width z
  | upper _ _ _ _ => []
  | ll z _ _ => bigEndian 8 z
  | str _ _ bs _ => bigEndian 2 bs.length ++ bs

def count : Field → ℕ
  | int k _ _ _ => k.width
  | upper _ _ _ _ => 0
  | ll _ _ _ => 8
  | str _ _ bs _ => bs.length

end Field

def wideBits (m : Machine F) (z : ℤ) : BitVec 32 :=
  let byte (i : ℕ) := UInt8.ofNat (z / 256 ^ i % 256).toNat
  m.wideShift (byte 7) 56 ||| m.wideShift (byte 6) 48 ||| m.wideShift (byte 5) 40 ||| m.wideShift (byte 4) 32

/-- A number of 32 bits, and the shifts of its high bytes set no other bits. -/
def Survives (m : Machine F) (z : ℤ) : Prop :=
  -2 ^ 31 ≤ z ∧ z < 2 ^ 31 ∧ wideBits m z ||| BitVec.ofInt 32 z = BitVec.ofInt 32 z

def Field.Restored (m : Machine F) : Field → Prop
  | .int _ _ _ _ => True
  | .upper _ _ _ _ => False
  | .ll z _ _ => Survives m z
  | .str _ _ _ _ => False

def formatOf (fs : List Field) : List Char := fs.flatMap Field.chars

/-- The values come back, and both functions return the number of bytes written. -/
def RoundTrips (m : Machine F) (fs : List Field) : Prop :=
  ∀ mem, ∃ n out, pack m (formatOf fs) (fs.map Field.arg) = some (n, out) ∧ out.length = n ∧
    unpack m (store mem 0 out) (formatOf fs) = ((n : ℤ), fs.map Field.arg)

section Chars
theorem caseOf_digitChar (d : Fin 10) : caseOf (digitChar d) = .digit d := by
  revert d
  decide

theorem isDigit_digitChar (d : Fin 10) : (digitChar d).isDigit = true := by
  revert d
  decide

theorem caseOf_char (k : Size) : caseOf k.char = .int k.width := by
  cases k <;> rfl

theorem caseOf_upperChar (k : Size) : caseOf k.upperChar = .other := by
  cases k <;> rfl

theorem isDigit_char (k : Size) : k.char.isDigit = false := by
  cases k <;> rfl

theorem isDigit_upperChar (k : Size) : k.upperChar.isDigit = false := by
  cases k <;> rfl

end Chars

namespace Field

/-- A length of zero ends the call of `pack`. -/
def stops : Field → Bool
  | str _ _ bs _ => bs.isEmpty
  | _ => false

def isUpper : Field → Bool
  | upper _ _ _ _ => true
  | _ => false

def isStr : Field → Bool
  | str _ _ _ _ => true
  | _ => false

end Field

def bytesOf (fs : List Field) : List UInt8 := fs.flatMap Field.bytes

section Packing
variable {m : Machine F} {format : List Char} {st : PackState F} {args : List (Arg F)} {ds : List (Fin 10)}
  {f g : Field} {fs pre : List Field}

theorem packLoop_digits : packLoop m (ds.map digitChar ++ format) st =
    packLoop m format { st with len := ds.foldl (fun len (d : Fin 10) => addDigit len d.val) st.len } := by
  induction ds generalizing st with
  | nil => rfl
  | cons d ds ih =>
    rw [map_cons, cons_append, packLoop, packStep]
    simp only [caseOf_digitChar, PackState.next, isDigit_digitChar, if_true]
    rw [ih, foldl_cons]

theorem packLoop_str (d : Fin 10) (args : List (Arg F)) (size : ℕ) (out : List UInt8) :
    packLoop m ((d :: ds).map digitChar ++ ['s'] ++ format) ⟨args, size, 0, out⟩ =
      packLoop m ('s' :: format) ⟨args, size, limitOf (d :: ds), out⟩ := by
  rw [append_assoc, packLoop_digits]
  rfl

theorem packLoop_field (hupper : f.isUpper = false) (hstops : f.stops = false) (size : ℕ)
    (out : List UInt8) : packLoop m (f.chars ++ format) ⟨f.arg :: args, size, 0, out⟩ =
      packLoop m format ⟨args, size + f.bytes.length, 0, out ++ f.bytes⟩ := by
  cases f with
  | int k z hlo hhi =>
    rw [Field.chars, singleton_append, packLoop, packStep]
    simp only [caseOf_char, Field.arg, PackState.next, isDigit_char, Bool.false_eq_true, if_false,
      PackState.emit, Field.bytes]
  | upper k z hlo hhi => cases hupper
  | ll z hlo hhi => rfl
  | str d ds bs hlen =>
    have hne : bs.length ≠ 0 := by simpa [Field.stops] using hstops
    have hcase : caseOf 's' = .s := rfl
    have hdigit : Char.isDigit 's' = false := rfl
    rw [Field.chars, packLoop_str, packLoop, packStep]
    simp only [hcase, ← hlen, Field.arg, hne, if_false, PackState.next, hdigit, PackState.emit,
      Field.bytes, Bool.false_eq_true, Nat.lt_irrefl, take_length]

theorem packLoop_stops (hstops : f.stops = true) (args : List (Arg F)) (size : ℕ) (out : List UInt8) :
    packLoop m (f.chars ++ format) ⟨args, size, 0, out⟩ = some (0, out) := by
  cases f with
  | int | upper | ll => cases hstops
  | str d ds bs hlen =>
    have hzero : limitOf (d :: ds) = 0 := by
      rw [← hlen, length_eq_zero_iff]
      exact isEmpty_iff.1 hstops
    have hcase : caseOf 's' = .s := rfl
    rw [Field.chars, packLoop_str, packLoop, packStep]
    simp only [hcase, hzero, if_true]

section
variable (hupper : ∀ f ∈ fs, f.isUpper = false) (hstops : ∀ f ∈ fs, f.stops = false)
include hupper hstops

theorem packLoop_fields (format : List Char) (args : List (Arg F)) (size : ℕ) (out : List UInt8) :
    packLoop m (formatOf fs ++ format) ⟨fs.map Field.arg ++ args, size, 0, out⟩ =
      packLoop m format ⟨args, size + (bytesOf fs).length, 0, out ++ bytesOf fs⟩ := by
  induction fs generalizing size out with
  | nil => simp [formatOf, bytesOf]
  | cons f fs ih =>
    rw [formatOf, flatMap_cons, append_assoc, map_cons, cons_append,
      packLoop_field (hupper f mem_cons_self) (hstops f mem_cons_self), ← formatOf,
      ih (fun f hf => hupper f (mem_cons_of_mem _ hf)) fun f hf => hstops f (mem_cons_of_mem _ hf)]
    simp [bytesOf, Nat.add_assoc]

theorem pack_eq : pack m (formatOf fs) (fs.map Field.arg) = some ((bytesOf fs).length, bytesOf fs) := by
  have h := packLoop_fields (m := m) hupper hstops [] [] 0 []
  rw [append_nil, append_nil, Nat.zero_add] at h
  exact h

end

theorem pack_stops (hupper : ∀ f ∈ pre, f.isUpper = false) (hstops : ∀ f ∈ pre, f.stops = false) (hg : g.stops = true) :
    pack m (formatOf (pre ++ g :: post)) ((pre ++ g :: post).map Field.arg) = some (0, bytesOf pre) := by
  have hformat : formatOf (pre ++ g :: post) = formatOf pre ++ (g.chars ++ formatOf post) := by
    simp [formatOf]
  rw [pack, hformat, map_append, packLoop_fields hupper hstops, packLoop_stops hg, nil_append]

end Packing

section Unpacking
variable {m : Machine F} {mem : ℕ → UInt8} {format : List Char} {st : UnpackState F} {ds : List (Fin 10)}
  {f : Field} {fs : List Field} {cur size n : ℕ} {stores out : List (Arg F)} {k : Size}

theorem unpackLoop_digits : unpackLoop m mem (ds.map digitChar ++ format) st = unpackLoop m mem format
    { st with maxstrlen := ds.foldl (fun len (d : Fin 10) => addDigit len d.val) st.maxstrlen } := by
  induction ds generalizing st with
  | nil => rfl
  | cons d ds ih =>
    rw [map_cons, cons_append, unpackLoop, unpackStep]
    simp only [caseOf_digitChar, UnpackState.next, isDigit_digitChar, if_true]
    rw [ih, foldl_cons]

theorem unpackLoop_int : unpackLoop m mem (k.char :: format) ⟨cur, size, 0, stores⟩ =
    unpackLoop m mem format ⟨cur + k.width, size + k.width, 0,
      stores ++ [.int (Int.bmod (unpacki (fetch mem cur k.width)) (256 ^ k.width))]⟩ := by
  rw [unpackLoop, unpackStep]
  simp only [caseOf_char, UnpackState.next, isDigit_char, UnpackState.store, Bool.false_eq_true, if_false]

theorem unpackLoop_ll : unpackLoop m mem ('t' :: format) ⟨cur, size, 0, stores⟩ =
    unpackLoop m mem format ⟨cur + 8, size + 8, 0, stores ++ [.ll (unpacki64 m mem cur)]⟩ := rfl

theorem unpackLoop_str (d : Fin 10) :
    unpackLoop m mem ((d :: ds).map digitChar ++ ['s'] ++ format) ⟨cur, size, 0, stores⟩ =
      if limitOf (d :: ds) > 0 ∧ unpacki (fetch mem cur 2) > limitOf (d :: ds) then (lowbuf, stores)
      else unpackLoop m mem format ⟨cur + (2 + unpacki (fetch mem cur 2)), size + unpacki (fetch mem cur 2),
        0, stores ++ [.str (fetch mem (cur + 2) (unpacki (fetch mem cur 2)))]⟩ := by
  have hcase : caseOf 's' = .s := rfl
  have hdigit : Char.isDigit 's' = false := rfl
  rw [append_assoc, unpackLoop_digits, singleton_append, unpackLoop, unpackStep]
  simp only [hcase, unpackS, UnpackState.next, UnpackState.store, hdigit, Bool.false_eq_true, if_false]
  unfold limitOf
  split_ifs
  · rfl
  · rfl

theorem unpackLoop_field (hupper : f.isUpper = false) (format : List Char) (cur size : ℕ)
    (stores : List (Arg F)) : unpackLoop m mem (f.chars ++ format) ⟨cur, size, 0, stores⟩ = (lowbuf, stores) ∨
      ∃ cur' n a, unpackLoop m mem (f.chars ++ format) ⟨cur, size, 0, stores⟩ =
        unpackLoop m mem format ⟨cur', size + n, 0, stores ++ [a]⟩ ∧ (a = f.arg → n = f.count) := by
  cases f with
  | int k z hlo hhi => exact .inr ⟨_, _, _, unpackLoop_int, fun _ => rfl⟩
  | upper k z hlo hhi => cases hupper
  | ll z hlo hhi => exact .inr ⟨_, _, _, unpackLoop_ll, fun _ => rfl⟩
  | str d ds bs hlen =>
    rw [Field.chars, unpackLoop_str]
    split_ifs
    · exact .inl rfl
    · refine .inr ⟨_, _, _, rfl, fun heq => ?_⟩
      have hbs : fetch mem (cur + 2) (unpacki (fetch mem cur 2)) = bs := Arg.str.inj heq
      rw [Field.count, ← hbs, length_fetch]

theorem exists_stores (h : unpackLoop m mem (formatOf fs) ⟨cur, size, 0, stores⟩ = ((n : ℤ), out)) :
    ∃ new, out = stores ++ new ∧ new.length + fs.countP Field.isUpper = fs.length ∧
      (new = fs.map Field.arg → n = size + (fs.map Field.count).sum) := by
  induction fs generalizing cur size stores with
  | nil =>
    obtain ⟨hn, hout⟩ := Prod.mk.inj h
    have hsize : size = n := by exact_mod_cast hn
    exact ⟨[], by rw [append_nil]; exact hout.symm, rfl, fun _ => hsize.symm⟩
  | cons f fs ih =>
    rw [formatOf, flatMap_cons] at h
    cases hupper : f.isUpper with
    | true =>
      cases f with
      | upper k z hlo hhi =>
        rw [Field.chars, singleton_append, unpackLoop, unpackStep] at h
        simp only [caseOf_upperChar, UnpackState.next, isDigit_upperChar, Bool.false_eq_true, if_false] at h
        obtain ⟨new, hout, hlen, -⟩ := ih h
        refine ⟨new, hout, by simp [hupper]; omega, fun heq => ?_⟩
        have hlong := congrArg List.length heq
        simp at hlong
        omega
      | int | ll | str => cases hupper
    | false =>
      rcases unpackLoop_field hupper (fs.flatMap Field.chars) cur size stores with
        hlow | ⟨cur', k, a, hstep, hcount⟩
      · rw [hlow] at h
        have hneg := (Prod.mk.inj h).1
        unfold lowbuf at hneg
        omega
      · rw [hstep] at h
        obtain ⟨new, hout, hlen, hsize⟩ := ih h
        refine ⟨a :: new, by rw [hout, append_assoc]; rfl, by simp [hupper]; omega, fun heq => ?_⟩
        obtain ⟨ha, hnew⟩ := List.cons.inj heq
        rw [hsize hnew, hcount ha, map_cons, sum_cons, Nat.add_assoc]

def Field.readBack (m : Machine F) : Field → Arg F
  | .ll z _ _ => .ll (wideBits m z ||| BitVec.ofInt 32 z).toInt
  | f => f.arg

theorem bmod_unpacki_bigEndian (hlo : -(256 ^ k.width / 2) ≤ z)
    (hhi : z < 256 ^ k.width / 2) : Int.bmod (unpacki (bigEndian k.width z)) (256 ^ k.width) = z := by
  rw [unpacki, ofBigEndian_bigEndian]
  cases k with
  | c | h | l => exact (Int.emod_bmod _ _).trans (Int.bmod_eq_of_le hlo hhi)

theorem ofNat_unpacki_bigEndian (z : ℤ) : BitVec.ofNat 32 (unpacki (bigEndian 4 z)) = BitVec.ofInt 32 z := by
  rw [← BitVec.ofInt_natCast, unpacki, ofBigEndian_bigEndian]
  apply BitVec.eq_of_toInt_eq
  rw [BitVec.toInt_ofInt, BitVec.toInt_ofInt]
  exact Int.emod_bmod z _

theorem unpacki64_bigEndian (h : fetch mem cur 8 = bigEndian 8 z) :
    unpacki64 m mem cur = (wideBits m z ||| BitVec.ofInt 32 z).toInt := by
  have happ : fetch mem cur 4 ++ fetch mem (cur + 4) 4 = (bigEndian 8 z).take 4 ++ bigEndian 4 z :=
    (fetch_add mem cur 4 4).symm.trans h
  obtain ⟨hhigh, hlow⟩ := append_inj happ (by simp)
  have hbytes : [mem cur, mem (cur + 1), mem (cur + 2), mem (cur + 3)] = (bigEndian 8 z).take 4 := hhigh
  simp only [bigEndian, take_succ_cons, take_zero, List.cons.injEq, and_true] at hbytes
  obtain ⟨h7, h6, h5, h4⟩ := hbytes
  rw [unpacki64, hlow, ofNat_unpacki_bigEndian, h7, h6, h5, h4]
  rfl

theorem unpackLoop_fetch (hupper : f.isUpper = false) (hstr : f.isStr = false)
    (h : fetch mem cur f.bytes.length = f.bytes) :
    unpackLoop m mem (f.chars ++ format) ⟨cur, size, 0, stores⟩ = unpackLoop m mem format
        ⟨cur + f.bytes.length, size + f.bytes.length, 0, stores ++ [f.readBack m]⟩ := by
  cases f with
  | int k z hlo hhi =>
    rw [Field.bytes, length_bigEndian] at h
    rw [Field.chars, singleton_append, unpackLoop_int, h, bmod_unpacki_bigEndian hlo hhi, Field.bytes, length_bigEndian]
    rfl
  | upper k z hlo hhi => cases hupper
  | ll z hlo hhi =>
    rw [Field.chars, singleton_append, unpackLoop_ll, unpacki64_bigEndian h, Field.bytes]
    rfl
  | str d ds bs hlen => cases hstr

theorem unpackLoop_fetch_fields (hupper : ∀ f ∈ fs, f.isUpper = false)
    (hstr : ∀ f ∈ fs, f.isStr = false) (h : fetch mem cur (bytesOf fs).length = bytesOf fs) :
    unpackLoop m mem (formatOf fs) ⟨cur, size, 0, stores⟩ =
      (((size + (bytesOf fs).length : ℕ) : ℤ), stores ++ fs.map (Field.readBack m)) := by
  induction fs generalizing cur size stores with
  | nil => simp [formatOf, bytesOf, unpackLoop]
  | cons f fs ih =>
    rw [bytesOf, flatMap_cons, length_append, fetch_add] at h
    obtain ⟨hhead, htail⟩ := append_inj h (by simp)
    rw [formatOf, flatMap_cons, unpackLoop_fetch (hupper f mem_cons_self) (hstr f mem_cons_self) hhead, ← formatOf,
      ih (fun f hf => hupper f (mem_cons_of_mem _ hf)) (fun f hf => hstr f (mem_cons_of_mem _ hf)) htail]
    simp [bytesOf, Nat.add_assoc]

end Unpacking

section RoundTrip
variable {m : Machine F} {f : Field} {fs : List Field}

theorem toInt_or_eq_iff {w : BitVec 32} : (w ||| BitVec.ofInt 32 z).toInt = z ↔
    -2 ^ 31 ≤ z ∧ z < 2 ^ 31 ∧ w ||| BitVec.ofInt 32 z = BitVec.ofInt 32 z := by
  constructor
  · intro h
    refine ⟨h ▸ BitVec.le_toInt _, h ▸ BitVec.toInt_lt, ?_⟩
    rw [← BitVec.ofInt_toInt (x := w ||| BitVec.ofInt 32 z), h]
  · rintro ⟨hlo, hhi, heq⟩
    rw [heq, BitVec.toInt_ofInt]
    exact Int.bmod_eq_of_le hlo hhi

theorem readBack_eq_arg_iff (hupper : f.isUpper = false) (hstr : f.isStr = false) :
    f.readBack m = f.arg ↔ f.Restored m := by
  cases f with
  | int k z hlo hhi => exact ⟨fun _ => trivial, fun _ => rfl⟩
  | upper k z hlo hhi => cases hupper
  | ll z hlo hhi =>
    constructor
    · intro h
      exact toInt_or_eq_iff.1 (Arg.ll.inj h)
    · intro h
      exact congrArg Arg.ll (toInt_or_eq_iff.2 h)
  | str d ds bs hlen => cases hstr

theorem count_le (f : Field) : f.count ≤ f.bytes.length := by
  cases f <;> simp [Field.count, Field.bytes]

theorem count_lt (hstr : f.isStr = true) : f.count < f.bytes.length := by
  cases f <;> simp_all [Field.count, Field.bytes, Field.isStr]

theorem sum_count_lt (hf : f ∈ fs) (hstr : f.isStr = true) : (fs.map Field.count).sum < (bytesOf fs).length := by
  rw [bytesOf, length_flatMap]
  exact sum_lt_sum _ _ (fun f _ => count_le f) ⟨f, hf, count_lt hstr⟩

theorem bytes_length_ne_zero (hupper : f.isUpper = false) : f.bytes.length ≠ 0 := by
  cases f with
  | int k z hlo hhi => cases k <;> simp [Field.bytes, Size.width]
  | upper k z hlo hhi => cases hupper
  | ll | str => simp [Field.bytes]

theorem RoundTrips.isUpper_eq_false (h : RoundTrips m fs) : ∀ f ∈ fs, f.isUpper = false := by
  obtain ⟨n, out, -, -, hunpack⟩ := h 0
  obtain ⟨new, hnew, hlen, -⟩ := exists_stores hunpack
  have hcount : fs.countP Field.isUpper = 0 := by
    rw [nil_append] at hnew
    rw [← hnew, length_map] at hlen
    omega
  intro f hf
  exact Bool.eq_false_iff.2 (countP_eq_zero.1 hcount f hf)

theorem exists_first_stops (hf : f ∈ fs) (hstops : f.stops = true) :
    ∃ pre g post, fs = pre ++ g :: post ∧ g.stops = true ∧ ∀ f ∈ pre, f.stops = false := by
  obtain ⟨g, hfind⟩ := isSome_iff_exists.1 (find?_isSome.2 ⟨f, hf, hstops⟩)
  obtain ⟨hg, pre, post, heq, hpre⟩ := find?_eq_some_iff_append.1 hfind
  exact ⟨pre, g, post, heq, hg, fun f hf => by simpa using hpre f hf⟩

theorem unpack_stops_ne (hg : f.stops = true) : unpack m (fun _ => 1)
    (formatOf (f :: post)) ≠ (((0 : ℕ) : ℤ), (f :: post).map Field.arg) := by
  intro h
  cases f with
  | int | upper | ll => cases hg
  | str d ds bs hlen =>
    have hbs : bs = [] := isEmpty_iff.1 hg
    rw [hbs] at hlen
    rw [unpack, formatOf, flatMap_cons, Field.chars, unpackLoop_str, ← hlen] at h
    obtain ⟨new, hnew, -⟩ := exists_stores h
    have hstr := Arg.str.inj (List.cons.inj hnew).1
    rw [hbs] at hstr
    exact absurd (congrArg List.length hstr) (by simp; decide)

/-- Nothing is written for a string of length zero, and `unpack` reads whatever stands there. -/
theorem RoundTrips.stops_eq_false (h : RoundTrips m fs) : ∀ f ∈ fs, f.stops = false := by
  intro f hf
  by_contra hne
  obtain ⟨pre, g, post, rfl, hg, hpre⟩ := exists_first_stops hf (Bool.not_eq_false _ ▸ hne)
  have hupper : ∀ f ∈ pre, f.isUpper = false := by
    intro f hf
    exact h.isUpper_eq_false f (mem_append_left _ hf)
  obtain ⟨n, out, hpack, hlen, hunpack⟩ := h fun _ => 1
  rw [pack_stops hupper hpre hg] at hpack
  cases hpack
  have hnil : pre = [] := by
    cases pre with
    | nil => rfl
    | cons f pre =>
      have hpos := bytes_length_ne_zero (hupper f mem_cons_self)
      rw [bytesOf, flatMap_cons, length_append] at hlen
      omega
  subst hnil
  exact unpack_stops_ne hg hunpack

theorem RoundTrips.isStr_eq_false (h : RoundTrips m fs) : ∀ f ∈ fs, f.isStr = false := by
  intro f hf
  by_contra hstr
  obtain ⟨n, out, hpack, hlen, hunpack⟩ := h 0
  obtain ⟨new, hnew, -, hsize⟩ := exists_stores hunpack
  rw [pack_eq h.isUpper_eq_false h.stops_eq_false] at hpack
  cases hpack
  have heq := hsize (by rw [hnew]; rfl)
  have hlt := sum_count_lt hf (Bool.not_eq_false _ ▸ hstr)
  omega

theorem stops_of_isStr (hstr : f.isStr = false) : f.stops = false := by
  cases f <;> first | rfl | cases hstr

/-- The arguments come back exactly if each of them is restored. -/
theorem roundTrips_iff : RoundTrips m fs ↔ ∀ f ∈ fs, f.Restored m := by
  constructor
  · intro h f hf
    have hupper := h.isUpper_eq_false
    have hstr := h.isStr_eq_false
    obtain ⟨n, out, hpack, -, hunpack⟩ := h 0
    rw [pack_eq hupper h.stops_eq_false] at hpack
    cases hpack
    rw [unpack, unpackLoop_fetch_fields hupper hstr fetch_store, Nat.zero_add, nil_append] at hunpack
    have heq := (Prod.mk.inj hunpack).2
    exact (readBack_eq_arg_iff (hupper f hf) (hstr f hf)).1 (map_inj_left.1 heq f hf)
  · intro h mem
    have hupper : ∀ f ∈ fs, f.isUpper = false := by
      intro f hf
      have := h f hf
      cases f <;> first | rfl | exact this.elim
    have hstr : ∀ f ∈ fs, f.isStr = false := by
      intro f hf
      have := h f hf
      cases f <;> first | rfl | exact this.elim
    refine ⟨_, _, pack_eq hupper fun f hf => stops_of_isStr (hstr f hf), rfl, ?_⟩
    rw [unpack, unpackLoop_fetch_fields hupper hstr fetch_store, Nat.zero_add, nil_append]
    congr 1
    exact map_congr_left fun f hf => (readBack_eq_arg_iff (hupper f hf) (hstr f hf)).2 (h f hf)

def shiftMod32 : Machine ℤ := ⟨id, id, fun b n => BitVec.ofNat 32 b.toNat <<< (n % 32)⟩

/-- For a string of one byte `pack` returns three and `unpack` one. -/
theorem not_roundTrips_str : ¬ RoundTrips shiftMod32 [.str 1 [] [97] rfl] := by
  intro h
  obtain ⟨n, out, hpack, -, hunpack⟩ := h 0
  have hthree : pack shiftMod32 ['1', 's'] [.str [97]] = some (3, [0, 1, 97]) := rfl
  obtain ⟨rfl, rfl⟩ := Prod.mk.inj (some.inj (hpack.symm.trans hthree))
  have hone : (unpack shiftMod32 (store 0 0 [0, 1, 97]) ['1', 's']).1 = 1 := rfl
  have heq : (1 : ℤ) = 3 := hone.symm.trans (congrArg Prod.fst hunpack)
  exact absurd heq (by decide)

end RoundTrip
end Prj.Jlib.Jpack
