import Mathlib.Algebra.Order.BigOperators.Group.List
import Prj.Lib13.PackFields
import Prj.Lib13.UnpackSafety

/-! The sizes that `pack13` and `unpack13` return, and the bytes that `pack13` writes. -/
namespace Prj.Lib13
open Prj.Base List

variable {F : Type}

section Spec
variable (k : Codec754 F) (bufsize : ℕ) (fmt : List Char) (args : List (Arg F))

/-- After every directive that was done, the bytes written are inside of the buffer. -/
def StaysInside : Prop :=
  ∀ pre st, pre <+: fmt → packLoop k bufsize pre ⟨args, 0, []⟩ = .ok st → st.out.length ≤ bufsize

/-- `pack13` returns the number of bytes that it has written, and `unpack13` returns the same for them. -/
def SizesAgree : Prop :=
  ∀ size out, pack13 k bufsize fmt args = .ok (size, out) → size = out.length ∧
    ∀ mem caps bufsize', fetch mem 0 out.length = out → size ≤ bufsize' →
      ∃ st, unpack13 mem bufsize' k caps fmt = .ok st ∧ st.size = size

end Spec

section Fields
def takesArg (ch : Char) : Bool :=
  match dirOf ch with
  | .digit _ | .other => false
  | _ => true

def fields (fmt : List Char) (args : List (Arg F)) : List (Char × Arg F) := (fmt.filter takesArg).zip args

/-- The argument is of the kind that the directive asks for. -/
def ArgFor (f : Char × Arg F) : Prop :=
  match dirOf f.1, f.2 with
  | .c, .int _ | .int _ _, .int _ | .flt _ _, .flt _ | .s, .str _ | .b, .buf _ => True
  | _, _ => False

/-- There are arguments of the right kinds for all directives. -/
def Matches (fmt : List Char) (args : List (Arg F)) : Prop :=
  (fmt.filter takesArg).length ≤ args.length ∧ ∀ f ∈ fields fmt args, ArgFor f

/-- The length of a text or a buffer is not zero. -/
def Taken (f : Char × Arg F) : Prop :=
  match f.2 with
  | .str s => s.bytes.length % 2 ^ 32 ≠ 0
  | .buf bs => bs.length ≠ 0
  | _ => True

/-- By how much `size` grows. -/
def counted (f : Char × Arg F) : ℕ :=
  match dirOf f.1, f.2 with
  | .c, _ => 1
  | .int w _, _ | .flt w _, _ => w
  | .s, .str s => (s.bytes.length % 2 ^ 32 + 2) % 2 ^ 32
  | .b, .buf bs => bs.length + 4
  | _, _ => 0

def written (k : Codec754 F) (f : Char × Arg F) : List UInt8 :=
  match dirOf f.1, f.2 with
  | .c, .int z => bigEndian 1 z
  | .int w _, .int z => bigEndian w z
  | .flt w e, .flt x => bigEndian w (k.pack754 x (8 * w) e)
  | .s, .str s =>
    let len : ℕ := s.bytes.length % 2 ^ 32
    bigEndian 2 len ++ s.bytes.take len
  | .b, .buf bs => bigEndian 2 bs.length ++ bs
  | _, _ => []

def size (fs : List (Char × Arg F)) : ℕ := (fs.map counted).sum

instance : DecidablePred (Taken (F := F))
  | (_, .str s) => inferInstanceAs (Decidable (s.bytes.length % 2 ^ 32 ≠ 0))
  | (_, .buf bs) => inferInstanceAs (Decidable (bs.length ≠ 0))
  | (_, .int _) | (_, .flt _) => inferInstanceAs (Decidable True)

variable {k : Codec754 F} {bufsize : ℕ} {ch : Char} {fmt : List Char} {a : Arg F} {args : List (Arg F)} {st : PState F}

theorem packStep_field (k : Codec754 F) (bufsize : ℕ) (hargs : st.args = a :: args) (hfor : ArgFor (ch, a)) :
    packStep k bufsize ch st =
      if Taken (ch, a) then emit bufsize (counted (ch, a)) (written k (ch, a)) args st else .error .room := by
  cases hd : dirOf ch with
  | c | int | flt =>
    cases a with
    | int | flt | str | buf => simp_all [packStep, ArgFor, Taken, counted, written]
  | s | b =>
    cases a with
    | int | flt => simp_all [ArgFor]
    | str | buf => simp_all [packStep, ArgFor, Taken, counted, written]
  | digit | other => simp_all [ArgFor]

theorem packStep_of_not_takesArg (k : Codec754 F) (bufsize : ℕ) (st : PState F) (h : takesArg ch = false) :
    packStep k bufsize ch st = .ok st := by
  cases hd : dirOf ch
  all_goals simp_all [takesArg, packStep]

/-- A format is done if there is room for what it counts and no text is empty. -/
theorem packLoop_ok_iff (k : Codec754 F) (n : ℕ) (out : List UInt8) (hargs : Matches fmt st.args)
    (hsize : st.size ≤ bufsize) : (∃ st', packLoop k bufsize fmt st = .ok st' ∧ st'.size = n ∧ st'.out = out) ↔
      (∀ f ∈ fields fmt st.args, Taken f) ∧ n = st.size + size (fields fmt st.args) ∧ n ≤ bufsize ∧
        out = st.out ++ (fields fmt st.args).flatMap (written k) := by
  induction fmt generalizing st with
  | nil =>
    simp only [packLoop, fields, size, Except.ok.injEq, exists_eq_left', filter_nil, zip_nil_left, not_mem_nil,
      false_imp_iff, implies_true, map_nil, sum_nil, flatMap_nil, append_nil, true_and, Nat.add_zero]
    exact ⟨fun h => ⟨h.1.symm, h.1 ▸ hsize, h.2.symm⟩, fun h => ⟨h.1.symm, h.2.2.symm⟩⟩
  | cons ch fmt ih =>
    cases htakes : takesArg ch with
    | false =>
      have hfields (args : List (Arg F)) : fields (ch :: fmt) args = fields fmt args := by simp [fields, htakes]
      unfold Matches at hargs ih
      rw [hfields, filter_cons, if_neg (by simp [htakes])] at hargs
      rw [packLoop, packStep_of_not_takesArg k bufsize st htakes, hfields]
      exact ih hargs hsize
    | true =>
      obtain ⟨hlen, hfor⟩ := hargs
      rw [filter_cons, if_pos htakes, length_cons] at hlen
      obtain ⟨a, args, hcons⟩ := exists_cons_of_length_pos (Nat.lt_of_lt_of_le (Nat.succ_pos _) hlen)
      have hfields : fields (ch :: fmt) st.args = (ch, a) :: fields fmt args := by simp [fields, htakes, hcons]
      rw [hfields] at hfor ⊢
      rw [forall_mem_cons] at hfor ⊢
      rw [hcons, length_cons, Nat.add_le_add_iff_right] at hlen
      rw [packLoop, packStep_field k bufsize hcons hfor.1]
      have hsum : size ((ch, a) :: fields fmt args) = counted (ch, a) + size (fields fmt args) := by simp [size]
      rw [hsum, flatMap_cons, ← append_assoc, ← Nat.add_assoc]
      by_cases htaken : Taken (ch, a)
      · rw [if_pos htaken, emit, and_iff_right htaken]
        by_cases hroom : st.size + counted (ch, a) > bufsize
        · rw [if_pos hroom]
          refine iff_of_false (by rintro ⟨_, h, -⟩; cases h) fun h => ?_
          omega
        · rw [if_neg hroom]
          exact ih ⟨hlen, hfor.2⟩ (Nat.not_lt.1 hroom)
      · rw [if_neg htaken]
        exact iff_of_false (by rintro ⟨_, h, -⟩; cases h) fun h => htaken h.1.1

theorem pack13_ok_iff (n : ℕ) (out : List UInt8) (hargs : Matches fmt args) :
    pack13 k bufsize fmt args = .ok (n, out) ↔ (∀ f ∈ fields fmt args, Taken f) ∧ n = size (fields fmt args) ∧
      n ≤ bufsize ∧ out = (fields fmt args).flatMap (written k) := by
  have hloop : (∃ st, packLoop k bufsize fmt ⟨args, 0, []⟩ = .ok st ∧ st.size = n ∧ st.out = out) ↔ _ :=
    packLoop_ok_iff k n out hargs (Nat.zero_le bufsize)
  rw [Nat.zero_add, nil_append] at hloop
  rw [← hloop, pack13]
  cases packLoop k bufsize fmt ⟨args, 0, []⟩ with
  | error e => exact iff_of_false nofun (by rintro ⟨_, h, -⟩; cases h)
  | ok st => simp [bind, Except.bind, pure, Except.pure]

theorem Matches.mono {pre : List Char} (hargs : Matches fmt args) (hpre : pre <+: fmt) : Matches pre args := by
  obtain ⟨post, rfl⟩ := hpre
  obtain ⟨hlen, hfor⟩ := hargs
  rw [filter_append, length_append] at hlen
  have hzip (l : List Char) : (pre.filter takesArg ++ l).zip args =
      fields pre (args.take (pre.filter takesArg).length) ++ l.zip (args.drop (pre.filter takesArg).length) := by
    conv_lhs => rw [← take_append_drop (pre.filter takesArg).length args]
    exact zip_append (by rw [length_take]; omega)
  have hpre := hzip []
  rw [append_nil, zip_nil_left, append_nil] at hpre
  refine ⟨by omega, fun f hf => hfor f ?_⟩
  rw [fields, hpre] at hf
  rw [fields, filter_append, hzip]
  exact mem_append_left _ hf

theorem counted_le {f : Char × Arg F} (hfor : ArgFor f) (hb : dirOf f.1 ≠ .b) : counted f ≤ (written k f).length := by
  obtain ⟨ch, a⟩ := f
  cases hd : dirOf ch
  all_goals
    cases a
    all_goals simp_all [ArgFor, counted, written]
  omega

end Fields

section Reread
variable {mem : ℕ → UInt8} {k : Codec754 F} {ch : Char} {fmt : List Char} {n : ℕ}

/-- There is no `b`, no length that is met is zero, and together the directives count `n` bytes. -/
def Rereads (mem : ℕ → UInt8) (fmt : List Char) (n : ℕ) : Prop :=
  (placeOf mem fmt).size = n ∧ ∀ pre ch post, fmt = pre ++ ch :: post →
    dirOf ch ≠ .b ∧ (dirOf ch = .s → lenAt mem (placeOf mem pre).cur ≠ 0)

theorem Place.size_le_foldl (mem : ℕ → UInt8) (pl : Place) (fmt : List Char) :
    pl.size ≤ (fmt.foldl (Place.behind mem) pl).size := by
  induction fmt generalizing pl with
  | nil => exact le_rfl
  | cons ch fmt ih =>
    refine le_trans ?_ (ih _)
    unfold Place.behind
    cases dirOf ch
    all_goals
      simp only
      omega

theorem rereads_pack_iff :
    (∀ caps bufsize', n ≤ bufsize' → ∃ st, unpack13 mem bufsize' k caps fmt = .ok st ∧ st.size = n) ↔
      Rereads mem fmt n := by
  have hok (caps : ℕ → ℕ) (bufsize' : ℕ) :
      (∃ st, unpack13 mem bufsize' k caps fmt = .ok st ∧ st.size = n) ↔ (placeOf mem fmt).size = n ∧
        ∀ pre ch post, fmt = pre ++ ch :: post → (placeOf mem pre).Takes mem bufsize' caps ch :=
    unpackLoop_ok_iff mem caps k n (Nat.zero_le bufsize')
  simp only [hok]
  constructor
  · intro h
    obtain ⟨hsize, htakes⟩ := h (fun _ => 0) n le_rfl
    refine ⟨hsize, fun pre ch post hfmt => ?_⟩
    obtain ⟨-, hdir⟩ := htakes pre ch post hfmt
    constructor
    · intro hb
      rw [hb] at hdir
      exact hdir.1 (Nat.le_zero.1 hdir.2)
    · intro hs
      rw [hs] at hdir
      exact hdir
  · rintro ⟨hsize, hlens⟩ caps bufsize' hn
    refine ⟨hsize, fun pre ch post hfmt => ⟨?_, ?_⟩⟩
    · have hle := Place.size_le_foldl mem ((placeOf mem pre).behind mem ch) post
      have hplace : post.foldl (Place.behind mem) ((placeOf mem pre).behind mem ch) = placeOf mem fmt := by
        rw [hfmt, placeOf, placeOf, foldl_append, foldl_cons]
      rw [hplace, hsize] at hle
      exact hle.trans hn
    · obtain ⟨hb, hs⟩ := hlens pre ch post hfmt
      cases hd : dirOf ch with
      | b => exact absurd hd hb
      | s => exact hs hd
      | c | int | flt | digit | other => trivial

end Reread

theorem eq_of_sum_eq {α : Type} {fs : List α} {g h : α → ℕ} (hle : ∀ f ∈ fs, g f ≤ h f)
    (hsum : (fs.map g).sum = (fs.map h).sum) : ∀ f ∈ fs, g f = h f := by
  induction fs with
  | nil => simp
  | cons f fs ih =>
    rw [forall_mem_cons] at hle ⊢
    rw [map_cons, map_cons, sum_cons, sum_cons] at hsum
    have hrest : (fs.map g).sum ≤ (fs.map h).sum := sum_le_sum hle.2
    exact ⟨by omega, ih hle.2 (by omega)⟩

/-- `pack13` stays inside of its buffer if each part of the format that counts as inside of it also writes inside of it.
The sizes are right if each directive counts what it writes, and the bytes are read again as so many. -/
theorem pack13_sizes_iff (k : Codec754 F) (bufsize : ℕ) (fmt : List Char) (args : List (Arg F))
    (hargs : Matches fmt args) : StaysInside k bufsize fmt args ∧ SizesAgree k bufsize fmt args ↔
      (∀ pre, pre <+: fmt → (∀ f ∈ fields pre args, Taken f) → size (fields pre args) ≤ bufsize →
        ((fields pre args).flatMap (written k)).length ≤ bufsize) ∧
      let bytes := (fields fmt args).flatMap (written k)
      ((∀ f ∈ fields fmt args, Taken f) → size (fields fmt args) ≤ bufsize →
        (∀ f ∈ fields fmt args, counted f = (written k f).length) ∧
          ∀ mem, fetch mem 0 bytes.length = bytes → Rereads mem fmt bytes.length) := by
  refine and_congr ?_ ?_
  · have hloop (pre : List Char) (hpre : pre <+: fmt) (n : ℕ) (out : List UInt8) :
        (∃ st, packLoop k bufsize pre ⟨args, 0, []⟩ = .ok st ∧ st.size = n ∧ st.out = out) ↔ _ :=
      packLoop_ok_iff k n out (hargs.mono hpre) (Nat.zero_le bufsize)
    simp only [Nat.zero_add, nil_append] at hloop
    constructor
    · intro h pre hpre htaken hsize
      obtain ⟨st, hrun, -, hout⟩ := (hloop pre hpre _ _).2 ⟨htaken, rfl, hsize, rfl⟩
      exact hout ▸ h pre st hpre hrun
    · intro h pre st hpre hrun
      obtain ⟨htaken, hn, hroom, hout⟩ := (hloop pre hpre _ _).1 ⟨st, hrun, rfl, rfl⟩
      rw [hn] at hroom
      exact hout ▸ h pre hpre htaken hroom
  · have hlength (fs : List (Char × Arg F)) :
        (fs.flatMap (written k)).length = (fs.map fun f => (written k f).length).sum := length_flatMap
    unfold SizesAgree
    simp only [pack13_ok_iff _ _ hargs]
    constructor
    · intro h htaken hroom
      obtain ⟨hsize, hread⟩ := h _ _ ⟨htaken, rfl, hroom, rfl⟩
      have hrereads : ∀ mem, fetch mem 0 _ = _ → Rereads mem fmt _ := fun mem hmem =>
        (rereads_pack_iff (k := k)).1 fun caps bufsize' hn => hsize ▸ hread mem caps bufsize' hmem (hsize ▸ hn)
      refine ⟨eq_of_sum_eq ?_ (hsize.trans (hlength _)), hrereads⟩
      intro f hf
      have hmem : f.1 ∈ fmt := (mem_filter.1 (of_mem_zip (show (f.1, f.2) ∈ fields fmt args from hf)).1).1
      obtain ⟨pre, post, hfmt⟩ := append_of_mem hmem
      exact counted_le (hargs.2 f hf) ((hrereads _ (fetch_getD _)).2 pre f.1 post hfmt).1
    · rintro h _ _ ⟨htaken, rfl, hroom, rfl⟩
      obtain ⟨heach, hread⟩ := h htaken hroom
      have hsize : size (fields fmt args) = ((fields fmt args).flatMap (written k)).length := by
        rw [hlength, size, map_congr_left heach]
      rw [hsize]
      exact ⟨rfl, fun mem caps bufsize' hmem hn => rereads_pack_iff.2 (hread mem hmem) caps bufsize' hn⟩

theorem pack13_sizes_iff_hs : let k : Codec754 Unit := ⟨fun _ _ _ => 0, fun _ _ _ => ()⟩
    let args : List (Arg Unit) := [.int (-2), .str ⟨[104, 105], by decide⟩]
    StaysInside k 6 ['h', 's'] args ∧ SizesAgree k 6 ['h', 's'] args := by
  intro k args
  refine (pack13_sizes_iff k 6 ['h', 's'] args ⟨by decide, ?_⟩).2 ⟨?_, fun _ _ => ⟨?_, ?_⟩⟩
  · simp [fields, takesArg, dirOf, args, ArgFor]
  · rintro (_ | ⟨a, _ | ⟨b, _ | _⟩⟩) hpre
    all_goals
      simp_all [fields, takesArg, dirOf, args, written]
  · simp [fields, takesArg, dirOf, args, counted, written]
  · intro mem hmem
    have hbytes : fetch mem 0 6 = [255, 254, 0, 2, 104, 105] := hmem
    have hlen : fetch mem 2 2 = [0, 2] := congrArg (fun bs => (bs.drop 2).take 2) hbytes
    refine ⟨?_, forall_splits_cons.2 ⟨⟨by decide, by simp [dirOf]⟩, ?_⟩⟩
    · change 0 + 2 + (unpacku (fetch mem 2 2) + 2) = 6
      rw [hlen]
      rfl
    · refine forall_splits_cons.2 ⟨⟨by decide, fun _ => ?_⟩, by simp⟩
      change unpacku (fetch mem 2 2) ≠ 0
      rw [hlen]
      decide

/-- A buffer of one byte takes three bytes and counts as five; `unpack13` counts three. -/
theorem pack13_buffer : let k : Codec754 Unit := ⟨fun _ _ _ => 0, fun _ _ _ => ()⟩
    pack13 k 9 ['b'] [.buf [7]] = .ok (5, [0, 1, 7]) ∧
      (unpack13 (fun i => [0, 1, 7].getD i 0) 9 k (fun _ => 1) ['b']).toOption.map UState.size = some 3 ∧
      ¬SizesAgree k 9 ['b'] [.buf [7]] := by
  refine ⟨rfl, rfl, fun h => ?_⟩
  have hsize := (h 5 [0, 1, 7] rfl).1
  cases hsize

end Prj.Lib13
