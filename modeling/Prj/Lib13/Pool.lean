import Mathlib.Data.List.Basic

/-!
Memory pools without locking (`m13_pool_alloc` and `m13_pool_free` in `lib13/mem13.c`, the macros in
`lib13/include/bit13.h`).

`size_t` counts modulo `W`. Words are stored with their lowest byte first, and `malloc` and `realloc` find memory for
every size.
-/
namespace Prj.Lib13
open List

section Model
/-- Why a call has no result: it does not return, or it touches a byte outside of a bitmap. -/
inductive Stop
  | never
  | outside
  deriving DecidableEq

/-- What `bitmap13_t` points to, in bytes. -/
abbrev Bitmap := List (BitVec 8)

def bitmapSize (nseg : ℕ) : ℕ := if nseg % 32 ≠ 0 then nseg / 4 + 1 else nseg / 4

namespace Bitmap
variable (bm : Bitmap) (n : ℕ)

/-- The word `BITMAPINDEXELEMENT(bmap, n)` is inside. -/
def Inside : Prop := 4 * (n / 4) + 4 ≤ bm.length

instance : Decidable (Inside bm n) := inferInstanceAs (Decidable (_ ≤ _))

/-- Bit `BITMAPBIT(n)` of that word. -/
def bit : Bool := (bm.getD (4 * (n / 4)) 0).getLsbD (n % 4)

def isBitmap : Except Stop Bool := if Inside bm n then .ok (bit bm n) else .error .outside

def bitmapOn : Except Stop Bitmap :=
  if Inside bm n then .ok (bm.modify (4 * (n / 4)) (· ||| 1#8 <<< (n % 4))) else .error .outside

def bitmapOff : Except Stop Bitmap :=
  if Inside bm n then .ok (bm.modify (4 * (n / 4)) (· &&& ~~~(1#8 <<< (n % 4)))) else .error .outside

/-- `memset(bmap + n, 0, n)`; the pointer counts words. -/
def clearFrom : Except Stop Bitmap :=
  if 4 * n + n ≤ bm.length then .ok (bm.take (4 * n) ++ List.replicate n 0 ++ bm.drop (4 * n + n)) else .error .outside

/-- `realloc`; new bytes hold `junk`. -/
def realloc (junk : BitVec 8) : Bitmap := bm.take n ++ List.replicate (n - bm.length) junk

end Bitmap

/-- `MEM13_EXPANDING`, `MEM13_AUTOSIZE` or anything else. -/
inductive Policy
  | expanding
  | autosize
  | fixed
  deriving DecidableEq

/-- `struct m13_mempool` with `MEM13_NOLOCK`; of the buffer only its size matters. -/
structure Pool where
  policy : Policy
  buck : ℕ
  segsize : ℕ
  nseg : ℕ
  nfree : ℕ
  bitmap : Bitmap
  nlocks : ℕ
  lockbitmap : Bitmap
  buf : ℕ

namespace Pool
variable (W : ℕ) (junk : BitVec 8)

/-- `m13_pool_init`; `m13_malloc` gives nothing for a bitmap without bytes. -/
def init (segsize nseg buck : ℕ) (policy : Policy) : Option Pool :=
  let bitmap := List.replicate (bitmapSize nseg) 0
  if bitmapSize nseg = 0 then none
  else some { policy, buck, segsize, nseg, nfree := nseg, bitmap, nlocks := 0, lockbitmap := bitmap
              buf := nseg * segsize % W }

/-- `_m13_pool_chsize(pool, 0)` -/
def chsize (p : Pool) : Except Stop Pool := do
  let oldbitmapsize := bitmapSize p.nseg
  let nseg := (p.nseg + p.buck) % W
  let newbitmapsize := bitmapSize nseg
  let p := { p with nseg, buf := nseg * p.segsize % W }
  if newbitmapsize ≠ oldbitmapsize then
    let bitmap := p.bitmap.realloc newbitmapsize junk
    let lockbitmap := p.lockbitmap.realloc newbitmapsize junk
    if newbitmapsize > oldbitmapsize then
      let bitmap ← bitmap.clearFrom (newbitmapsize - oldbitmapsize)
      let lockbitmap ← lockbitmap.clearFrom (newbitmapsize - oldbitmapsize)
      return { p with bitmap, lockbitmap }
    return { p with bitmap, lockbitmap }
  return p

/-- The loop of `m13_pool_alloc`: the first clear bit from `i` on. -/
def findClear (bm : Bitmap) : ℕ → ℕ → Except Stop (Option ℕ)
  | 0, _ => .ok none
  | n + 1, i => do
    if ← bm.isBitmap i then findClear bm n (i + 1) else return some i

/-- `BITMAPBUF`: where the segment starts in the buffer. -/
def bitmapBuf (segsize seg : ℕ) : ℕ := segsize * seg % W / 4

/-- `m13_pool_alloc`, with the segment and its start; `fuel` bounds the calls of itself. -/
def alloc : ℕ → Pool → Except Stop (Pool × Option (ℕ × ℕ))
  | 0, _ => .error .never
  | fuel + 1, p => do
    if p.nfree = 0 ∧ (p.policy = .expanding ∨ p.policy = .autosize) then
      -- `_wait_nlocks` waits for nobody
      if p.nlocks ≠ 0 then .error .never
      else alloc fuel (← p.chsize W junk)
    else
      match ← findClear p.bitmap p.nseg 0 with
      | none => return (p, none)
      | some i =>
        let bitmap ← p.bitmap.bitmapOn i
        let lockbitmap ← p.lockbitmap.bitmapOn i
        return ({ p with bitmap, nfree := (p.nfree + W - 1) % W, nlocks := (p.nlocks + 1) % W, lockbitmap },
          some (i, bitmapBuf W p.segsize i))

/-- `m13_pool_free` -/
def free (p : Pool) (seg : ℕ) : Except Stop Pool := do
  -- `_wait_bitlock` waits for nobody
  if ← p.lockbitmap.isBitmap seg then .error .never
  else
    let bitmap ← p.bitmap.bitmapOff seg
    return { p with bitmap, nfree := (p.nfree + 1) % W }

end Pool

inductive PoolOp
  | alloc
  | free (seg : ℕ)

end Model

section Spec
/-- The number of clear bits among the first `nseg`; a bit that is not there is not set. -/
def Pool.clearBits (p : Pool) : ℕ := (List.range p.nseg).countP fun i => ¬(p.bitmap.Inside i ∧ p.bitmap.bit i)

/-- What should hold between the calls, when `live` are the segments in use and where they start. -/
structure Pool.Ok (p : Pool) (live : List (ℕ × ℕ)) : Prop where
  disjoint : live.Pairwise fun s s' => s.2 + p.segsize ≤ s'.2 ∨ s'.2 + p.segsize ≤ s.2
  within : ∀ s ∈ live, s.2 + p.segsize ≤ p.buf
  nfree_eq : p.nfree = p.clearBits

/-- The calls of a history work: they touch nothing outside of the bitmaps, allocations return, and the pool is fine
before and after each. Only live segments are freed; behind a call that never returns there is nothing. -/
def Pool.Sound (W : ℕ) (junk : BitVec 8) : Pool → List (ℕ × ℕ) → List PoolOp → Prop
  | p, live, [] => p.Ok live
  | p, live, .alloc :: ops =>
    p.Ok live ∧ ∃ fuel p' seg, p.alloc W junk fuel = .ok (p', seg) ∧ Sound W junk p' (seg.toList ++ live) ops
  | p, live, .free seg :: ops =>
    p.Ok live ∧ (seg ∈ live.map (·.1) → p.free W seg ≠ .error .outside ∧
      ∀ p', p.free W seg = .ok p' → Sound W junk p' (live.filter (·.1 ≠ seg)) ops)

/-- The number of allocations before the first `m13_pool_free`. -/
def leading : List PoolOp → ℕ
  | [] => 0
  | .alloc :: ops => leading ops + 1
  | .free _ :: _ => 0

/-- `k` segments fit: the word of the last one is inside of the bitmap. Two segments with a byte do not. -/
def Fits (W segsize nseg k : ℕ) : Prop :=
  k = 0 ∨ (4 * ((k - 1) / 4) + 4 ≤ bitmapSize nseg ∧ (k = 1 ∨ segsize = 0) ∧ segsize ≤ nseg * segsize % W)

end Spec

namespace Bitmap
variable {bm : Bitmap} {n i : ℕ}

theorem isBitmap_of_inside (h : bm.Inside n) : bm.isBitmap n = .ok (bm.bit n) := if_pos h

theorem Inside.of_le (h : bm.Inside n) (hle : i ≤ n) : bm.Inside i := by
  unfold Inside at *
  omega

theorem getLsbD_one_shiftLeft : ∀ x < 4, ∀ y < 4, (1#8 <<< x).getLsbD y = decide (y = x) := by decide

theorem bit_modify (hi : bm.Inside i) :
    bit (bm.modify (4 * (n / 4)) (· ||| 1#8 <<< (n % 4))) i = (bm.bit i || decide (i = n)) := by
  have hlt : 4 * (i / 4) < bm.length := by
    unfold Inside at hi
    omega
  unfold bit
  rw [getD_eq_getElem?_getD, getElem?_modify, getD_eq_getElem?_getD, getElem?_eq_getElem hlt,
    Option.map_eq_map, Option.map_some, Option.getD_some, Option.getD_some]
  by_cases hword : 4 * (n / 4) = 4 * (i / 4)
  · have heq : i % 4 = n % 4 ↔ i = n := by omega
    rw [if_pos hword, BitVec.getLsbD_or, getLsbD_one_shiftLeft _ (by omega) _ (by omega), decide_eq_decide.2 heq]
  · have hne : i ≠ n := by
      rintro rfl
      exact hword rfl
    rw [if_neg hword, decide_eq_false hne, Bool.or_false]

theorem bitmapOn_of_inside (h : bm.Inside n) : ∃ bm', bm.bitmapOn n = .ok bm' ∧ bm'.length = bm.length ∧
      ∀ i, bm.Inside i → bm'.bit i = (bm.bit i || decide (i = n)) :=
  ⟨_, if_pos h, length_modify .., fun _ hi => bit_modify hi⟩

end Bitmap

namespace Pool
variable (W : ℕ) (junk : BitVec 8) {segsize nseg buck m i : ℕ} {policy : Policy} {p : Pool}

theorem findClear_skip (bm : Bitmap) (n d : ℕ) (hset : ∀ j, i ≤ j → j < i + d → bm.isBitmap j = .ok true) :
    findClear bm (d + n) i = findClear bm n (i + d) := by
  induction d generalizing i with
  | zero => rw [Nat.zero_add, Nat.add_zero]
  | succ d ih =>
    have hrest := ih (i := i + 1) fun j hle hlt => hset j (by omega) (by omega)
    rw [Nat.add_right_comm] at hrest
    rw [Nat.succ_add, findClear, hset i (Nat.le_refl i) (by omega)]
    exact hrest

structure Filled (segsize nseg : ℕ) (p : Pool) (m : ℕ) : Prop where
  segsize_eq : p.segsize = segsize
  nseg_eq : p.nseg = nseg
  nfree_eq : p.nfree = nseg - m
  buf_eq : p.buf = nseg * segsize % W
  length_eq : p.bitmap.length = bitmapSize nseg
  bit_eq : ∀ i, p.bitmap.Inside i → p.bitmap.bit i = decide (i < m)
  inside : ∀ i < m, p.bitmap.Inside i
  lock_eq : p.lockbitmap = p.bitmap

variable {W} {seg : ℕ}

theorem filled_of_init (h : init W segsize nseg buck policy = some p) : 0 < nseg ∧ Filled W segsize nseg p 0 := by
  unfold init at h
  split at h
  · cases h
  · rename_i hsize
    cases h
    have hpos : 0 < nseg := by
      refine Nat.pos_of_ne_zero ?_
      rintro rfl
      exact hsize rfl
    refine ⟨hpos, rfl, rfl, rfl, rfl, length_replicate .., fun i hi => ?_, fun i hi => ?_, rfl⟩
    · rw [Bitmap.bit, getD_eq_getElem?_getD, getElem?_replicate]
      split <;> simp
    · exact absurd hi (Nat.not_lt_zero i)

def segs (W segsize : ℕ) : ℕ → List (ℕ × ℕ)
  | 0 => []
  | m + 1 => (m, bitmapBuf W segsize m) :: segs W segsize m

theorem segs_suffix (W segsize m k : ℕ) : segs W segsize k <:+ segs W segsize (m + k) := by
  induction m with
  | zero => exact (Nat.zero_add k).symm ▸ suffix_rfl
  | succ m ih =>
    rw [Nat.succ_add]
    exact ih.trans (suffix_cons ..)

theorem mem_map_segs : seg ∈ (segs W segsize m).map (·.1) ↔ seg < m := by
  induction m with
  | zero => simp [segs]
  | succ m ih =>
    rw [segs, map_cons, mem_cons, ih]
    omega

theorem snd_eq_zero_of_mem_segs {s : ℕ × ℕ} (h : s ∈ segs W 0 m) : s.2 = 0 := by
  induction m with
  | zero => cases h
  | succ m ih =>
    rcases mem_cons.1 h with rfl | h
    · simp [bitmapBuf]
    · exact ih h

theorem countP_le_range (m n : ℕ) : (List.range n).countP (fun i => m ≤ i) = n - m := by
  induction n with
  | zero => rw [range_zero, countP_nil, Nat.zero_sub]
  | succ n ih =>
    rw [range_succ, countP_append, countP_singleton]
    split <;> rename_i hle <;> simp only [decide_eq_true_eq] at hle <;> omega

variable (hfilled : Filled W segsize nseg p m)
include hfilled

theorem Filled.clearBits_eq : p.clearBits = p.nfree := by
  rw [clearBits, hfilled.nseg_eq, hfilled.nfree_eq, ← countP_le_range]
  refine countP_congr fun i _ => ?_
  simp only [decide_eq_true_eq]
  constructor
  · intro hclear
    refine Nat.not_lt.1 fun hlt => hclear ⟨hfilled.inside i hlt, ?_⟩
    rw [hfilled.bit_eq i (hfilled.inside i hlt), decide_eq_true hlt]
  · rintro hle ⟨hin, hbit⟩
    rw [hfilled.bit_eq i hin, decide_eq_true_eq] at hbit
    omega

theorem Filled.inside_iff (i : ℕ) : p.bitmap.Inside i ↔ 4 * (i / 4) + 4 ≤ bitmapSize nseg := by
  rw [Bitmap.Inside, hfilled.length_eq]

theorem Filled.ok_iff : p.Ok (segs W segsize m) ↔ Fits W segsize nseg m := by
  constructor
  · intro hok
    cases m with
    | zero => exact .inl rfl
    | succ m =>
      have hfirst : (0, 0) ∈ segs W segsize (m + 1) := (segs_suffix W segsize m 1).subset (by simp [segs, bitmapBuf])
      have hwithin := hok.within (0, 0) hfirst
      rw [hfilled.segsize_eq, hfilled.buf_eq, Nat.zero_add] at hwithin
      refine .inr ⟨(hfilled.inside_iff m).1 (hfilled.inside m (Nat.lt_succ_self m)), ?_, hwithin⟩
      cases m with
      | zero => exact .inl rfl
      | succ m =>
        -- the second segment starts within the first
        have hpair := hok.disjoint.sublist (segs_suffix W segsize m 2).sublist
        have hle : bitmapBuf W segsize 1 ≤ segsize / 4 := by
          rw [bitmapBuf, Nat.mul_one]
          exact Nat.div_le_div_right (Nat.mod_le ..)
        have hapart := rel_of_pairwise_cons hpair (mem_singleton.2 rfl)
        simp only [hfilled.segsize_eq, bitmapBuf, Nat.mul_zero, Nat.zero_mod, Nat.zero_div] at hapart hle
        omega
  · rintro (rfl | ⟨-, hone | rfl, hbuf⟩)
    · exact ⟨List.Pairwise.nil, fun s hs => absurd hs not_mem_nil, hfilled.clearBits_eq.symm⟩
    · subst hone
      refine ⟨pairwise_singleton .., fun s hs => ?_, hfilled.clearBits_eq.symm⟩
      rw [mem_singleton.1 hs, hfilled.segsize_eq, hfilled.buf_eq]
      simpa [bitmapBuf] using hbuf
    · refine ⟨pairwise_of_forall fun s s' => ?_, fun s hs => ?_, hfilled.clearBits_eq.symm⟩
      · rw [hfilled.segsize_eq]
        exact Nat.le_total ..
      · rw [snd_eq_zero_of_mem_segs hs, hfilled.segsize_eq]
        exact Nat.zero_le _

theorem Filled.free_eq (hseg : seg < m) : p.free W seg = .error .never := by
  have hin := hfilled.inside seg hseg
  rw [free, hfilled.lock_eq, Bitmap.isBitmap_of_inside hin, hfilled.bit_eq seg hin, decide_eq_true hseg]
  rfl

variable (hpos : 0 < nseg)
include hpos

theorem Filled.lt : m < nseg := by
  cases m with
  | zero => exact hpos
  | succ m =>
    have hin := hfilled.inside m (Nat.lt_succ_self m)
    have hsize : bitmapSize nseg ≤ nseg / 4 + 1 := by
      unfold bitmapSize
      split <;> omega
    unfold Bitmap.Inside at hin
    rw [hfilled.length_eq] at hin
    omega

theorem Filled.findClear_eq :
    findClear p.bitmap nseg 0 = if p.bitmap.Inside m then .ok (some m) else .error .outside := by
  have hlt := hfilled.lt hpos
  obtain ⟨d, hd⟩ : ∃ d, nseg = m + (d + 1) := ⟨nseg - m - 1, by omega⟩
  have hset : ∀ j, 0 ≤ j → j < 0 + m → p.bitmap.isBitmap j = .ok true := by
    intro j _ hj
    have hin := hfilled.inside j (by omega)
    rw [Bitmap.isBitmap_of_inside hin, hfilled.bit_eq j hin, decide_eq_true (by omega)]
  rw [hd, findClear_skip p.bitmap (d + 1) m hset, findClear, Nat.zero_add]
  by_cases hin : p.bitmap.Inside m
  · rw [Bitmap.isBitmap_of_inside hin, hfilled.bit_eq m hin, decide_eq_false (Nat.lt_irrefl m), if_pos hin]
    rfl
  · rw [Bitmap.isBitmap, if_neg hin, if_neg hin]
    rfl

theorem Filled.nfree_ne_zero : p.nfree ≠ 0 := by
  have hlt := hfilled.lt hpos
  rw [hfilled.nfree_eq]
  omega

theorem Filled.alloc_inside (hW : nseg < W) (hin : p.bitmap.Inside m) :
    ∃ p', (∀ fuel, p.alloc W junk (fuel + 1) = .ok (p', some (m, bitmapBuf W segsize m))) ∧
      Filled W segsize nseg p' (m + 1) := by
  have hlt := hfilled.lt hpos
  obtain ⟨bm, hon, hlength, hbit⟩ := Bitmap.bitmapOn_of_inside hin
  have hinside : ∀ i, bm.Inside i ↔ p.bitmap.Inside i := by
    intro i
    unfold Bitmap.Inside
    rw [hlength]
  refine ⟨{ p with bitmap := bm, nfree := (p.nfree + W - 1) % W, nlocks := (p.nlocks + 1) % W, lockbitmap := bm },
    fun fuel => ?_, ?_⟩
  · rw [alloc, if_neg fun hnone => hfilled.nfree_ne_zero hpos hnone.1, hfilled.nseg_eq, hfilled.findClear_eq hpos,
      if_pos hin, hfilled.lock_eq]
    simp only [bind, Except.bind, hon, hfilled.segsize_eq]
    rfl
  · refine ⟨hfilled.segsize_eq, hfilled.nseg_eq, ?_, hfilled.buf_eq, hlength.trans hfilled.length_eq, ?_, ?_, rfl⟩
    · have hfree : p.nfree + W - 1 = (nseg - (m + 1)) + W := by
        rw [hfilled.nfree_eq]
        omega
      rw [hfree, Nat.add_mod_right, Nat.mod_eq_of_lt (by omega)]
    · intro i hi
      have hi' := (hinside i).1 hi
      have hsucc : i < m + 1 ↔ i < m ∨ i = m := by omega
      rw [hbit i hi', hfilled.bit_eq i hi', ← Bool.decide_or, decide_eq_decide.2 hsucc]
    · intro i hi
      exact (hinside i).2 (hin.of_le (Nat.le_of_lt_succ hi))

theorem Filled.alloc_outside (hout : ¬p.bitmap.Inside m) (fuel : ℕ) : p.alloc W junk (fuel + 1) = .error .outside := by
  rw [alloc, if_neg fun hnone => hfilled.nfree_ne_zero hpos hnone.1, hfilled.nseg_eq, hfilled.findClear_eq hpos,
    if_neg hout]
  rfl

theorem Filled.sound_iff (hW : nseg < W) (ops : List PoolOp) :
    p.Sound W junk (segs W segsize m) ops ↔ Fits W segsize nseg (m + leading ops) := by
  induction ops generalizing p m with
  | nil => exact hfilled.ok_iff
  | cons op ops ih =>
    cases op with
    | free seg =>
      rw [Sound, leading, Nat.add_zero, hfilled.ok_iff, and_iff_left]
      intro hseg
      rw [hfilled.free_eq (mem_map_segs.1 hseg)]
      exact ⟨by simp, fun p' hfree => by cases hfree⟩
    | alloc =>
      rw [Sound, leading, hfilled.ok_iff, Nat.add_comm (leading ops), ← Nat.add_assoc]
      by_cases hin : p.bitmap.Inside m
      · obtain ⟨p', halloc, hfilled'⟩ := hfilled.alloc_inside junk hpos hW hin
        rw [← ih hfilled']
        constructor
        · rintro ⟨-, fuel, p1, seg, hrun, hsound⟩
          cases fuel with
          | zero => cases hrun
          | succ fuel =>
            rw [halloc fuel] at hrun
            cases hrun
            exact hsound
        · intro hsound
          refine ⟨?_, 1, p', _, halloc 0, hsound⟩
          rw [ih hfilled'] at hsound
          unfold Fits at *
          omega
      · constructor
        · rintro ⟨-, fuel, p1, seg, hrun, -⟩
          cases fuel with
          | zero => cases hrun
          | succ fuel =>
            rw [hfilled.alloc_outside junk hpos hin fuel] at hrun
            cases hrun
        · rintro (hzero | ⟨hlast, -⟩)
          · omega
          · rw [hfilled.inside_iff] at hin
            omega

end Pool

section Main
variable {W segsize nseg buck : ℕ} {policy : Policy} {p : Pool} (junk : BitVec 8)

/-- A history without locks works exactly if all segments before the first `m13_pool_free` fit. -/
theorem pool_sound_iff (hW : nseg < W) (hinit : Pool.init W segsize nseg buck policy = some p) (ops : List PoolOp) :
    p.Sound W junk [] ops ↔ Fits W segsize nseg (leading ops) := by
  obtain ⟨hpos, hfilled⟩ := Pool.filled_of_init hinit
  have hiff := hfilled.sound_iff junk hpos hW ops
  rwa [Nat.zero_add] at hiff

theorem pool_sound_iff_one : ∃ p, Pool.init 4294967296 4 64 10 .expanding = some p ∧
    p.Sound 4294967296 0 [] [.alloc, .free 0] := by
  obtain ⟨p, hinit⟩ : ∃ p, Pool.init 4294967296 4 64 10 .expanding = some p := ⟨_, rfl⟩
  refine ⟨p, hinit, (pool_sound_iff 0 (by decide) hinit _).2 (.inr ⟨?_, .inl rfl, ?_⟩)⟩
  · decide
  · decide

/-- Of 64 segments with 4 bytes, the first has the bytes 0 to 3 and the second the bytes 1 to 4. -/
theorem pool_overlap : ∃ p, Pool.init 4294967296 4 64 10 .expanding = some p ∧
    (do
      let (p, seg) ← p.alloc 4294967296 0 1
      let (_, seg') ← p.alloc 4294967296 0 1
      return (seg, seg')) = .ok (some (0, 0), some (1, 1)) ∧ ¬ p.Sound 4294967296 0 [] [.alloc, .alloc] := by
  obtain ⟨p, hinit⟩ : ∃ p, Pool.init 4294967296 4 64 10 .expanding = some p := ⟨_, rfl⟩
  obtain ⟨hpos, hfilled⟩ := Pool.filled_of_init hinit
  refine ⟨p, hinit, ?_, fun hsound => ?_⟩
  · cases hinit
    rfl
  · have hfits := (hfilled.sound_iff 0 hpos (by decide) _).1 hsound
    exact absurd hfits (by unfold Fits; decide)

end Main
end Prj.Lib13
