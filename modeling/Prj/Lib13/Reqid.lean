import Mathlib.Algebra.Order.Ring.Nat
import Mathlib.Data.List.Nodup

/-!
Ids of requests (`_rr13_get_free_reqid` and `_rr13_set_free_reqid` in `lib13/rr13.c`, `m13_realloc` in `lib13/mem13.c`,
the macros in `lib13/include/bit13.h`).

A call gives `none` where the source leaves the array of words. Words that are not set yet hold `junk`.
-/
namespace Prj.Lib13.Reqid
open List

section Model
variable (junk : BitVec 32)

/-- What `reqid_buf` points to. -/
abbrev Words := List (BitVec 32)

/-- `ISBIT(buf + a, x)`: the index is one of bits in bytes, and selects a word. -/
def isBit (buf : Words) (a x : ℕ) : Option Bool := buf[a + x / 8]?.map fun w => w.getLsbD (x % 8)

/-- `BITON(buf + a, x)` -/
def bitOn (buf : Words) (a x : ℕ) : Option Words :=
  if a + x / 8 < buf.length then some (buf.modify (a + x / 8) (· ||| 1#32 <<< (x % 8))) else none

/-- `BITOFF(buf + a, x)` -/
def bitOff (buf : Words) (a x : ℕ) : Option Words :=
  if a + x / 8 < buf.length then some (buf.modify (a + x / 8) (· &&& ~~~(1#32 <<< (x % 8)))) else none

/-- The part of `struct rr13` with the ids. -/
structure Reqids where
  reqidBuf : Option Words
  nreqidA : ℕ
  nfreereqid : ℕ
  deriving DecidableEq

/-- After `rr13_init`. -/
def Reqids.init : Reqids := ⟨none, 0, 0⟩

/-- `m13_realloc` for a size that is not 0: it only gives memory to a pointer that has none. `memory` says if there is
any. -/
def m13Realloc (memory : Bool) (buf : Option Words) (words : ℕ) : Option Words :=
  if buf = none ∧ memory then some (List.replicate words junk) else none

/-- The inner loop: the first clear bit of the word `a`. -/
def findBit (buf : Words) (a : ℕ) : ℕ → ℕ → Option (Option ℕ)
  | 0, _ => some none
  | n + 1, i => do
    if ← isBit buf a i then findBit buf a n (i + 1) else some (some i)

/-- The outer loop, over `n` words. -/
def findWord (buf : Words) : ℕ → ℕ → Option (Option (ℕ × ℕ))
  | 0, _ => some none
  | n + 1, a => do
    match ← findBit buf a 32 0 with
    | some i => some (some (a, i))
    | none => findWord buf n (a + 1)

def rr13Reqid (a i : ℕ) : ℕ := a * 8 * 4 + i

/-- The loops of `_rr13_get_free_reqid`. -/
def takeReqid (h : Reqids) (start : ℕ) : Option (Option ℕ × Reqids) := do
  let buf ← h.reqidBuf
  match ← findWord buf (h.nreqidA - start) start with
  | none => some (none, h)
  | some (a, i) =>
    let buf ← bitOn buf a i
    some (some (rr13Reqid a i), { h with reqidBuf := some buf, nfreereqid := h.nfreereqid - 1 })

/-- `_rr13_get_free_reqid`; the new size does not depend on the old one. -/
def rr13GetFreeReqid (memory : Bool) (h : Reqids) : Option (Option ℕ × Reqids) :=
  if h.nfreereqid = 0 then
    match m13Realloc junk memory h.reqidBuf 1 with
    | none => some (none, { h with reqidBuf := none })
    | some buf =>
      if h.nreqidA < buf.length then
        takeReqid ⟨some (buf.set h.nreqidA 0), h.nreqidA + 1, 1 * 8 * 4⟩ h.nreqidA
      else none
  else takeReqid h 0

def rr13SetFreeReqid (h : Reqids) (reqid : ℕ) : Option Reqids := do
  let a := reqid % 4
  let i := reqid / (4 * 8)
  let buf ← h.reqidBuf
  let buf ← bitOff buf a (1 <<< i % 2 ^ 32)
  some { h with reqidBuf := some buf }

inductive Op
  | get (memory : Bool)
  | release (reqid : ℕ)
  deriving DecidableEq

end Model

section Spec
variable (junk : BitVec 32)

def clearBits (w : BitVec 32) : ℕ := (List.range 32).countP fun i => w.getLsbD i = false

/-- What should hold between the calls, when `live` are the ids in use and `released` those that have been given
back. -/
structure Ok (h : Reqids) (live released : List ℕ) : Prop where
  distinct : live.Nodup
  nfree_eq : h.nfreereqid = ((h.reqidBuf.getD []).map clearBits).sum
  again : ∀ id ∈ released, id ∉ live → isBit (h.reqidBuf.getD []) (id / 32) (id % 32) = some false

/-- The calls of a history stay inside of the words, and all is well before and after each. -/
def Sound : Reqids → List ℕ → List ℕ → List Op → Prop
  | h, live, released, [] => Ok h live released
  | h, live, released, .get memory :: ops =>
    Ok h live released ∧ ∃ id h', rr13GetFreeReqid junk memory h = some (id, h') ∧
      Sound h' (id.toList ++ live) released ops
  | h, live, released, .release id :: ops =>
    Ok h live released ∧ ∃ h', rr13SetFreeReqid h id = some h' ∧ Sound h' (live.erase id) (id :: released) ops

def Proper : Reqids → List ℕ → List Op → Prop
  | _, _, [] => True
  | h, live, .get memory :: ops =>
    ∀ id h', rr13GetFreeReqid junk memory h = some (id, h') → Proper h' (id.toList ++ live) ops
  | h, live, .release id :: ops =>
    id ∈ live ∧ ∀ h', rr13SetFreeReqid h id = some h' → Proper h' (live.erase id) ops

end Spec

section Filled
variable {junk : BitVec 32} {n id : ℕ} {ops : List Op} {h : Reqids} {released live : List ℕ}

def filled : ℕ → Reqids
  | 0 => .init
  | n + 1 => ⟨some [BitVec.ofNat 32 (2 ^ (n + 1) - 1)], 1, 31 - n⟩

def handed (n : ℕ) : List ℕ := (List.range n).reverse

theorem get_first (junk : BitVec 32) : rr13GetFreeReqid junk true .init = some (some 0, filled 1) := by
  have hstart : rr13GetFreeReqid junk true .init = takeReqid ⟨some [0], 1, 32⟩ 0 := rfl
  rw [hstart]
  decide

theorem takeReqid_filled : ∀ n < 8, n ≠ 0 → takeReqid (filled n) 0 = some (some n, filled (n + 1)) := by decide

theorem get_filled (memory : Bool) (hn : n < 8) (hpos : n ≠ 0) :
    rr13GetFreeReqid junk memory (filled n) = some (some n, filled (n + 1)) := by
  obtain ⟨m, rfl⟩ := Nat.exists_eq_succ_of_ne_zero hpos
  have hfree : (filled (m + 1)).nfreereqid ≠ 0 := Nat.sub_ne_zero_of_lt (by omega)
  rw [rr13GetFreeReqid, if_neg hfree, takeReqid_filled _ hn hpos]

theorem isBit_of_release : ∀ n < 9, ∀ id < n, ∀ h ∈ rr13SetFreeReqid (filled n) id,
    isBit (h.reqidBuf.getD []) (id / 32) (id % 32) = some true := by decide

theorem clearBits_filled : ∀ n < 9, (filled n).nfreereqid = (((filled n).reqidBuf.getD []).map clearBits).sum := by
  decide

theorem ok_filled (hn : n ≤ 8) : Ok (filled n) (handed n) [] where
  distinct := nodup_reverse.2 nodup_range
  nfree_eq := clearBits_filled n (by omega)
  again := by simp

theorem handed_succ (n : ℕ) : (some n).toList ++ handed n = handed (n + 1) := by
  simp [handed, range_succ]

theorem not_ok_of_release (hn : n ≤ 8) (hid : id < n)
    (h' : rr13SetFreeReqid (filled n) id = some h) : ¬Ok h ((handed n).erase id) (id :: released) := by
  intro hok
  have hnodup : (handed n).Nodup := nodup_reverse.2 nodup_range
  have hclear := hok.again id mem_cons_self hnodup.not_mem_erase
  rw [isBit_of_release n (by omega) id hid h h'] at hclear
  cases hclear

theorem Sound.ok (hs : Sound junk h live released ops) : Ok h live released := by
  cases ops with
  | nil => exact hs
  | cons op ops =>
    cases op with
    | get memory => exact hs.1
    | release id => exact hs.1

theorem sound_filled_iff (hn : n ≤ 8) (hpos : n ≠ 0) (hproper : Proper junk (filled n) (handed n) ops) :
    Sound junk (filled n) (handed n) [] ops ↔ (∀ op ∈ ops, ∃ memory, op = .get memory) ∧ n + ops.length ≤ 8 := by
  induction ops generalizing n with
  | nil => exact iff_of_true (ok_filled hn) ⟨by simp, hn⟩
  | cons op ops ih =>
    cases op with
    | get memory =>
      rw [forall_mem_cons, length_cons, and_iff_right (⟨memory, rfl⟩ : ∃ m, Op.get memory = .get m)]
      by_cases hlt : n < 8
      · have hget : rr13GetFreeReqid junk memory (filled n) = _ := get_filled memory hlt hpos
        have hproper' := hproper _ _ hget
        rw [handed_succ] at hproper'
        have hrest := ih (by omega) (by omega) hproper'
        rw [Sound, and_iff_right (ok_filled hn), hget, Nat.add_comm ops.length, ← Nat.add_assoc, ← hrest]
        constructor
        · rintro ⟨id, h', heq, hs⟩
          cases heq
          rwa [handed_succ] at hs
        · intro hs
          refine ⟨some n, _, rfl, ?_⟩
          rwa [handed_succ]
      · obtain rfl : n = 8 := by omega
        refine iff_of_false ?_ (by omega)
        rintro ⟨-, id, h', hget, -⟩
        cases hget
    | release id =>
      refine iff_of_false ?_ ?_
      · rintro ⟨-, h', hset, hs⟩
        exact not_ok_of_release hn (by simpa [handed] using hproper.1) hset hs.ok
      · rintro ⟨hget, -⟩
        obtain ⟨memory, hop⟩ := hget _ mem_cons_self
        cases hop

/-- All is well if and only if no id is ever released and there are at most eight. -/
theorem reqids_sound_iff (junk : BitVec 32) (ops : List Op) (hproper : Proper junk .init [] ops) :
    Sound junk .init [] [] ops ↔
      (∀ op ∈ ops, ∃ memory, op = .get memory) ∧ (ops.dropWhile (· = .get false)).length ≤ 8 := by
  have hok : Ok .init [] [] := ok_filled (n := 0) (by decide)
  induction ops with
  | nil => exact iff_of_true hok ⟨by simp, by decide⟩
  | cons op ops ih =>
    cases op with
    | get memory =>
      rw [forall_mem_cons, and_iff_right (⟨memory, rfl⟩ : ∃ m, Op.get memory = .get m), Sound, and_iff_right hok]
      cases memory with
      | false =>
        have hrest := ih (hproper none .init rfl)
        apply Iff.trans _ hrest
        constructor
        · rintro ⟨id, h', heq, hs⟩
          cases heq
          exact hs
        · intro hs
          exact ⟨none, _, rfl, hs⟩
      | true =>
        have hrest := sound_filled_iff (n := 1) (by decide) (by decide) (hproper _ _ (get_first junk))
        rw [dropWhile_cons_of_neg (by decide), length_cons, Nat.add_comm, ← hrest]
        constructor
        · rintro ⟨id, h', heq, hs⟩
          cases heq
          exact hs
        · intro hs
          exact ⟨some 0, _, rfl, hs⟩
    | release id => exact absurd hproper.1 not_mem_nil

theorem reqids_sound_iff_two : Sound 0 .init [] [] [.get false, .get true, .get true] :=
  (reqids_sound_iff 0 [.get false, .get true, .get true] (by simp [Proper])).2 ⟨by simp, by decide⟩

/-- The ninth id is looked for behind the word. After the release of id 0, the id 1 is in use twice. -/
theorem reqids_reused :
    (List.replicate 9 true).foldlM (fun h memory => (rr13GetFreeReqid 0 memory h).map Prod.snd) .init = none ∧
    ¬Sound 0 .init [] [] [.get true, .get true, .release 0, .get true] ∧ (do
      let (id₀, h) ← rr13GetFreeReqid 0 true .init let (id₁, h) ← rr13GetFreeReqid 0 true h
      let h ← rr13SetFreeReqid h 0 let (id₂, _) ← rr13GetFreeReqid 0 true h
      pure (id₀, id₁, id₂)) = some (some 0, some 1, some 1) := by
  refine ⟨by decide, ?_, by decide⟩
  rintro ⟨-, id₀, h1, hget, -, id₁, h2, hget', -, h3, hset, hs⟩
  cases (get_first 0).symm.trans hget
  cases (get_filled true (by decide) (by decide)).symm.trans hget'
  exact not_ok_of_release (n := 2) (by decide) (by decide) hset hs.ok

end Filled
end Prj.Lib13.Reqid
