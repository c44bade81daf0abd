import Prj.Base.Linked
import Prj.Base.Slots
import Mathlib.Data.List.Sort

/-!
The data blocks and data pointer blocks of a table.

The counters of the map for blocks of data pointers, the tracking of changes and what is written to
the file are left out: none of it is read while a cell is stored or loaded.
-/
namespace Prj.Jlib
open Prj.Base

inductive JErr
  | type
  | forbid
  | inv
  | unk
  | crc
  | notfound
  deriving DecidableEq, Repr

structure Geometry where
  blocksize : ℕ
  typelen : ℕ
  /-- The number of entries of a block of data pointers. -/
  dptrBent : ℕ
  hdr_le : 7 ≤ blocksize
  blocksize_lt : blocksize < 2 ^ 16
  typelen_lt : typelen < 2 ^ 16

/-- A data pointer: `nent` slots of the data block `bid` from `bent` on. `none` is `JDB_ID_INVAL`. -/
structure DataPtr where
  bid : Option ℕ
  bent : ℕ
  nent : ℕ
  deriving DecidableEq, Repr

abbrev Loc := ℕ × ℕ

structure DataBlk where
  nent : ℕ
  bitmap : ℕ → Bool
  datapool : ℕ → Option UInt8

structure Store where
  /-- The data blocks, in the order of the map. -/
  dataBids : List ℕ
  /-- The counters of the map for the data blocks. -/
  nful : ℕ → ℕ
  data : ℕ → DataBlk
  /-- The blocks of data pointers, in the order of `data_ptr_list`. -/
  ptrBids : List ℕ
  ptrBids_nodup : ptrBids.Nodup
  ptrNent : ℕ → ℕ
  /-- The entries, with `next` as it is in memory. -/
  entry : Loc → Option (Node Loc DataPtr)
  /-- `nextdptrbid` and `nextdptrbent`, which go to the file. -/
  link : Loc → Option Loc

structure Env where
  /-- The block number of the first empty entry of the map, given the ones in use. -/
  next : List ℕ → ℕ
  next_notMem : ∀ bids, next bids ∉ bids
  /-- What `malloc` leaves in `nent` of a new block of data pointers, the same for all new blocks of a run. -/
  freshNent : ℕ
  crc : List UInt8 → UInt32
  /-- What comes after the loop over the full blocks. -/
  rest : Store → Option (Except JErr (Store × Loc))

def byteGeometry : Geometry := ⟨16, 1, 4, by decide, by decide, by decide⟩

def emptyStore : Store :=
  ⟨[], fun _ => 0, fun _ => ⟨0, fun _ => false, fun _ => none⟩, [], List.nodup_nil, fun _ => 0, fun _ => none,
    fun _ => none⟩

def countingEnv : Env where
  next bids := bids.foldr max 0 + 1
  next_notMem bids h := by
    have hle : ∀ b ∈ bids, b ≤ bids.foldr max 0 := by
      clear h
      induction bids with
      | nil => simp
      | cons b' bids ih =>
        intro b hb
        rcases List.mem_cons.mp hb with rfl | hb
        · exact Nat.le_max_left _ _
        · exact (ih b hb).trans (Nat.le_max_right _ _)
    exact absurd (hle _ h) (by omega)
  freshNent := 0
  crc _ := 0
  rest _ := some (.error .unk)

variable (env : Env) (g : Geometry) (s : Store)

def Geometry.bmapsize : ℕ := (g.blocksize - 7) / (8 * g.typelen + 1)

def Geometry.nentries : ℕ := 8 * g.bmapsize

def Geometry.poolSize : ℕ := g.blocksize - 7 - g.bmapsize

def calcData : Except JErr ℕ :=
  if g.blocksize < g.bmapsize + g.nentries * g.typelen + 7 then .error .forbid else .ok g.nentries

/-- `_jdb_find_first_map_match`, by the number of entries in use. -/
def findFirstMapMatch (nful : ℕ) : Option ℕ := s.dataBids.find? fun b => s.nful b < nful

/-- `_jdb_list_map_match`, by the number of entries in use. -/
def listMapMatch (nful : ℕ) : List ℕ := s.dataBids.filter fun b => s.nful b < nful

def emptyBlk : DataBlk := ⟨0, fun _ => false, fun _ => none⟩

def freshBid : ℕ := env.next (s.dataBids ++ s.ptrBids)

def createDataBlk : Store :=
  { s with
    dataBids := s.dataBids.orderedInsert (· ≤ ·) (freshBid env s)
    nful := Function.update s.nful (freshBid env s) 0
    data := Function.update s.data (freshBid env s) emptyBlk }

theorem freshBid_notMem_ptrBids : freshBid env s ∉ s.ptrBids := fun h =>
  env.next_notMem _ (List.mem_append_right _ h)

/-- A new block of data pointers, all of them `JDB_ID_INVAL`. -/
def createDataPtr : Store :=
  { s with
    ptrBids := s.ptrBids ++ [freshBid env s]
    ptrBids_nodup := by
      rw [List.nodup_append]
      refine ⟨s.ptrBids_nodup, by simp, fun b hb b' hb' heq => ?_⟩
      rw [List.mem_singleton] at hb'
      exact freshBid_notMem_ptrBids env s (hb' ▸ heq ▸ hb)
    ptrNent := Function.update s.ptrNent (freshBid env s) env.freshNent
    entry := fun l =>
      if l.1 = freshBid env s then
        if l.2 < g.dptrBent then some ⟨⟨none, 0xffff, 0xffff⟩, none⟩ else none
      else s.entry l
    link := fun l => if l.1 = freshBid env s then none else s.link l }

def freeEntries (entry : Loc → Option (Node Loc DataPtr)) (b : ℕ) : List ℕ :=
  (List.range g.dptrBent).filter fun i => (entry (b, i)).any fun nd => nd.val.bid.isNone

/-- One pass over the blocks: the entries taken, how many are still missing and the new counters. A
block is passed over when its counter says it is full. -/
def scanPtrs (bent : ℕ) (free : ℕ → List ℕ) : List ℕ → ℕ → (ℕ → ℕ) → List Loc × ℕ × (ℕ → ℕ)
  | [], n, nent => ([], n, nent)
  | b :: bs, n, nent =>
    if nent b < bent then
      let es := (free b).take n
      let r := scanPtrs bent free bs (n - es.length) (Function.update nent b (nent b + es.length))
      (es.map (b, ·) ++ r.1, r.2)
    else scanPtrs bent free bs n nent

/-- Passes over the blocks with a new block after each, until nothing is missing. An entry that has
been taken is still `JDB_ID_INVAL`, only the counter of its block tells. -/
def takePtrs : ℕ → Store → ℕ → Option (Store × List Loc)
  | 0, _, _ => none
  | fuel + 1, s, n =>
    let r := scanPtrs g.dptrBent (freeEntries g s.entry) s.ptrBids n s.ptrNent
    let s' := { s with ptrNent := r.2.2 }
    if r.2.1 = 0 then some (s', r.1)
    else (takePtrs fuel (createDataPtr env g s') r.2.1).map fun q => (q.1, r.1 ++ q.2)

/-- Take `needed` data pointers and link them, in memory and for the file; `none` is no return. A pass that takes
nothing is followed by passes that take nothing, and when none is needed the count of missing ones wraps. -/
def createDptrChain (needed : ℕ) : Option (Store × Loc) :=
  if needed = 0 then none
  else
    match takePtrs env g (needed + 1) s needed with
    | some (s', l :: ls) =>
      some ({ s' with entry := Node.link s'.entry (l :: ls), link := Node.relink s'.link (l :: ls) }, l)
    | _ => none

/-- One pass over the blocks, which follows each link to a block that is still to come: the entries that it comes by,
and the link of the last one. `none` is an access outside of the entries. -/
def loadPass : List ℕ → Option Loc → Option (List Loc × Option Loc)
  | [], next => some ([], next)
  | b :: bs, next =>
    match next.filter (·.1 = b) with
    | none => loadPass bs next
    | some l => do
      let _ ← s.entry l
      let r ← loadPass bs (s.link l)
      some (l :: r.1, r.2)

/-- `while(last->nextdptrbid != JDB_ID_INVAL)` -/
def loadLoop : ℕ → Option Loc → Option (List Loc)
  | _, none => some []
  | 0, some _ => none
  | fuel + 1, some l => do
    let r ← loadPass s s.ptrBids (some l)
    (loadLoop fuel r.2).map (r.1 ++ ·)

/-- `_jdb_load_dptr_chain`: the links for the file are followed, and `next` of each entry is set on the way. -/
def loadDptrChain (fuel : ℕ) : Option Loc → Option (Except JErr (Store × Loc))
  | none => some (.error .inv)
  | some first =>
    if first.1 ∈ s.ptrBids then do
      let _ ← s.entry first
      (loadLoop s fuel (s.link first)).map fun ls =>
        .ok ({ s with entry := Node.link s.entry (first :: ls) }, first)
    else some (.error .unk)

end Prj.Jlib
