import Prj.Jlib.BlockRoundTrip
import Prj.Jlib.Store

/-!
The map of the blocks of a database (`jlib/src/jdb_map.c`): for every block its type, its table and the number
of its entries in use.

Block numbers do not reach `JDB_ID_INVAL`, which is `none` here. Left out are the counters `nblocks` and
`nmaps`, which nothing here reads, and the marks of what is to be written to the file. Locks are granted and
memory is there.
-/
namespace Prj.Jlib.Db

inductive Err
  | notfound
  | exist
  | limit
  | toolong
  | unk
  deriving DecidableEq, Repr

def btypeEmpty : UInt8 := 0x00
def btypeTypeDef : UInt8 := 0x02
def btypeTableDef : UInt8 := 0x03
def btypeColTypedef : UInt8 := 0x04
def btypeCelldef : UInt8 := 0x05
def btypeCellDataPtr : UInt8 := 0x09
def btypeTableFav : UInt8 := 0x0b

structure JMap (bent : ℕ) where
  bid : ℕ
  nset : UInt16
  entry : Fin bent → MapBlkEntry

structure Handle where
  mapBent : ℕ
  mapBent_pos : 0 < mapBent
  mapBent_lt : mapBent < 2 ^ 16
  maxBlocks : ℕ
  maps : List (JMap mapBent)

/-- The arguments that `cmp_flags` selects. -/
structure MapCmp where
  btype : Option UInt8 := none
  dtype : Option UInt8 := none
  tid : Option UInt32 := none
  nful : Option UInt16 := none

/-- `nful` is a strict bound, the others are compared for equality. -/
def MapCmp.matches (c : MapCmp) (e : MapBlkEntry) : Bool :=
  c.btype.all (· == e.blkType) && c.dtype.all (· == e.dtype) && c.tid.all (· == e.tid) && c.nful.all (e.nful < ·)

section Map
variable {bent : ℕ}

def calcBid (mapBid i : ℕ) : ℕ := mapBid + i + 1

def JMap.find (p : MapBlkEntry → Bool) (map : JMap bent) : Option (Fin bent) :=
  (List.finRange bent).find? fun i => p (map.entry i)

def JMap.set (map : JMap bent) (i : Fin bent) (e : MapBlkEntry) : JMap bent :=
  { map with entry := Function.update map.entry i e }

def JMap.matchBids (c : MapCmp) (map : JMap bent) : List ℕ :=
  ((List.finRange bent).filter fun i => c.matches (map.entry i)).map fun (i : Fin bent) => calcBid map.bid i

def findFirstMapMatch (maps : List (JMap bent)) (c : MapCmp) : Option ℕ :=
  maps.findSome? fun map => (map.find c.matches).map fun (i : Fin bent) => calcBid map.bid i

def listMapMatch (maps : List (JMap bent)) (c : MapCmp) : List ℕ :=
  maps.flatMap (JMap.matchBids c)

def emptyEntry : MapBlkEntry := ⟨btypeEmpty, 0, 0, 0⟩

def newMap (bid : ℕ) : JMap bent := ⟨bid, 0, fun _ => emptyEntry⟩

end Map

section Handle
variable (h : Handle)

def createMap : Except Err Handle :=
  match h.maps.getLast? with
  | none => .ok { h with maps := [newMap 0] }
  | some last =>
    let bid := last.bid + h.mapBent + 1
    if h.maxBlocks ≤ bid then .error .limit else .ok { h with maps := h.maps ++ [newMap bid] }

def JMap.take {bent : ℕ} (map : JMap bent) (e : MapBlkEntry) : Option (ℕ × JMap bent) :=
  (map.find fun e => e.blkType == btypeEmpty).map fun (i : Fin bent) =>
    (calcBid map.bid i, { map.set i e with nset := map.nset + 1 })

/-- The loop of `_jdb_get_empty_map_entry` over the maps: those that count as full are left out. -/
def takeEntry {bent : ℕ} (e : MapBlkEntry) : List (JMap bent) → Option (ℕ × List (JMap bent))
  | [] => none
  | map :: maps =>
    match if bent ≤ map.nset.toNat then none else map.take e with
    | some (bid, map) => some (bid, map :: maps)
    | none => (takeEntry e maps).map fun r => (r.1, map :: r.2)

def getEmptyMapEntry (btype dtype : UInt8) (tid : UInt32) (nful : UInt16) : Option (ℕ × Handle) :=
  match takeEntry ⟨btype, dtype, nful, tid⟩ h.maps with
  | some (bid, maps) => some (bid, { h with maps := maps })
  | none =>
    match createMap h with
    | .error _ => none
    | .ok h =>
      (takeEntry ⟨btype, dtype, nful, tid⟩ (h.maps.drop (h.maps.length - 1))).map fun r =>
        (r.1, { h with maps := h.maps.dropLast ++ r.2 })

def mapOrder (bid : ℕ) : ℕ := bid / (h.mapBent + 1)

/-- `f` changes the entry of the block; `nset` grows by `d`. -/
def modifyEntry (bid : ℕ) (f : MapBlkEntry → MapBlkEntry) (d : UInt16) : Except Err Handle :=
  match h.maps[mapOrder h bid]? with
  | none => .error .notfound
  | some map =>
    if hlt : bid - map.bid - 1 < h.mapBent then
      let i : Fin h.mapBent := ⟨bid - map.bid - 1, hlt⟩
      .ok { h with
        maps := h.maps.set (mapOrder h bid) { map.set i (f (map.entry i)) with nset := map.nset + d } }
    else .error .notfound

def incMapNfulByBid (bid : ℕ) (n : UInt16) : Except Err Handle :=
  modifyEntry h bid (fun e => { e with nful := e.nful + n }) 0

def decMapNfulByBid (bid : ℕ) (n : UInt16) : Except Err Handle :=
  modifyEntry h bid (fun e => { e with nful := e.nful - n }) 0

def rmMapBidEntry (bid : ℕ) : Except Err Handle :=
  modifyEntry h bid (fun e => { e with blkType := btypeEmpty }) (-1)

def getMapNfulByBid (bid : ℕ) : Except Err UInt16 :=
  match h.maps[mapOrder h bid]? with
  | none => .error .notfound
  | some map =>
    if hlt : bid - map.bid - 1 < h.mapBent then .ok (map.entry ⟨bid - map.bid - 1, hlt⟩).nful
    else .error .notfound

def clearTid (tid : UInt32) (e : MapBlkEntry) : MapBlkEntry :=
  if e.tid = tid then { e with blkType := btypeEmpty } else e

def JMap.clearTid {bent : ℕ} (tid : UInt32) (map : JMap bent) : JMap bent where
  bid := map.bid
  nset := map.nset - .ofNat ((List.finRange bent).countP fun i => (map.entry i).tid == tid)
  entry i := Db.clearTid tid (map.entry i)

def rmMapEntriesByTid (tid : UInt32) : Handle := { h with maps := h.maps.map (JMap.clearTid tid) }

end Handle

/-! Searching the entries of the map. -/

open List Option

variable {bent buck : ℕ} {maps : List (JMap bent)} {c : MapCmp} {a : BidArray}

/-- The array `*bid` with what has been written, its room, and `buck_cnt`. It is `NULL` before the first write. -/
structure BidArray where
  bids : List ℕ
  room : ℕ
  cnt : ℕ

/-- `(*bid)[(*n)++] = bid`, in an array that grows by a bucket; `none` is a write outside. The new size is a number of
32 bits. -/
def BidArray.push (buck : ℕ) (a : BidArray) (bid : ℕ) : Option BidArray :=
  let (room, cnt) :=
    if a.bids = [] then (buck, 0)
    else if a.cnt = buck then (buck * ((a.bids.length + buck) % 2 ^ 32 / buck), 0)
    else (a.room, a.cnt)
  if a.bids.length < room then some ⟨a.bids ++ [bid], room, cnt + 1⟩ else none

/-- `_jdb_list_map_match` -/
def listMapMatchArray (buck : ℕ) (maps : List (JMap bent)) (c : MapCmp) : Option (List ℕ) :=
  (maps.foldlM (fun a map => (List.finRange bent).foldlM (fun a i =>
    if c.matches (map.entry i) then a.push buck (calcBid map.bid i) else some a) a) ⟨[], 0, 0⟩).map BidArray.bids

theorem foldlM_matchBids (a : BidArray) (map : JMap bent) (is : List (Fin bent)) :
    is.foldlM (fun a i => if c.matches (map.entry i) then a.push buck (calcBid map.bid i) else some a) a =
      ((is.filter fun i => c.matches (map.entry i)).map fun (i : Fin bent) => calcBid map.bid i).foldlM
        (BidArray.push buck) a := by
  induction is generalizing a with
  | nil => rfl
  | cons i is ih =>
    rw [foldlM_cons, filter_cons]
    split_ifs
    · exact bind_congr fun a => ih a
    · exact ih a

theorem foldlM_listMapMatch (a : BidArray) : maps.foldlM (fun a map => (List.finRange bent).foldlM (fun a i =>
      if c.matches (map.entry i) then a.push buck (calcBid map.bid i) else some a) a) a =
      (listMapMatch maps c).foldlM (BidArray.push buck) a := by
  induction maps generalizing a with
  | nil => rfl
  | cons map maps ih =>
    rw [foldlM_cons, listMapMatch, flatMap_cons, foldlM_append, foldlM_matchBids]
    exact bind_congr fun a => ih a

/-- The room of the array is what is written and the rest of the last bucket. -/
def BidArray.Ok (buck : ℕ) (a : BidArray) : Prop :=
  a.bids = [] ∨ 0 < a.cnt ∧ a.cnt ≤ buck ∧ buck ∣ a.room ∧ a.room + a.cnt = a.bids.length + buck

/-- There is a bucket for the match after `n` others. -/
def HasBucket (buck n : ℕ) : Prop := if n = 0 then 0 < buck else buck ∣ n → n + buck < 2 ^ 32

theorem BidArray.Ok.push (h : a.Ok buck) (bid : ℕ) (hlen : HasBucket buck a.bids.length) :
    ∃ a', a.push buck bid = some a' ∧ a'.bids = a.bids ++ [bid] ∧ a'.Ok buck := by
  unfold BidArray.push
  unfold HasBucket at hlen
  by_cases hnil : a.bids = []
  · rw [if_pos (by rw [hnil]; rfl)] at hlen
    rw [if_pos hnil, hnil]
    exact ⟨_, if_pos hlen, rfl, .inr ⟨Nat.one_pos, hlen, dvd_refl _, by simp [Nat.add_comm]⟩⟩
  obtain ⟨hpos, hcnt, hdvd, hroom⟩ := h.resolve_left hnil
  rw [if_neg (fun h => hnil (length_eq_zero_iff.1 h))] at hlen
  split_ifs with hfull
  · have hwhole : a.room = a.bids.length := by omega
    rw [hwhole] at hdvd
    have hdvd' : buck ∣ a.bids.length + buck := (Nat.dvd_add_self_right).2 hdvd
    simp only [Nat.mod_eq_of_lt (hlen hdvd), Nat.mul_div_cancel' hdvd']
    have hone : 1 ≤ buck := by omega
    refine ⟨_, if_pos (by omega), rfl, .inr ⟨Nat.one_pos, hone, hdvd', ?_⟩⟩
    simp only [length_append, length_singleton]
    omega
  · have hlt : a.cnt + 1 ≤ buck := by omega
    refine ⟨_, if_pos (by omega), rfl, .inr ⟨Nat.succ_pos _, hlt, hdvd, ?_⟩⟩
    simp only [length_append, length_singleton]
    omega

theorem BidArray.Ok.push_eq_none (h : a.Ok buck) (bid : ℕ) (hlen : ¬HasBucket buck a.bids.length) :
    a.push buck bid = none := by
  unfold BidArray.push
  unfold HasBucket at hlen
  by_cases hnil : a.bids = []
  · rw [if_pos (by rw [hnil]; rfl)] at hlen
    rw [if_pos hnil]
    exact if_neg (by omega)
  obtain ⟨hpos, hcnt, hdvd, hroom⟩ := h.resolve_left hnil
  rw [if_neg (fun h => hnil (length_eq_zero_iff.1 h)), Classical.not_imp] at hlen
  have hfull : a.cnt = buck := by
    have hcnt' : buck ∣ a.cnt := by
      rw [← Nat.dvd_add_right hdvd, hroom]
      exact (Nat.dvd_add_self_right).2 hlen.1
    exact Nat.le_antisymm hcnt (Nat.le_of_dvd hpos hcnt')
  rw [if_neg hnil, if_pos hfull]
  refine if_neg (Nat.not_lt.2 ?_)
  rcases Nat.lt_or_ge (2 ^ 32) buck with hbig | hsmall
  · rw [Nat.div_eq_of_lt (Nat.lt_trans (Nat.mod_lt _ (by decide)) hbig), Nat.mul_zero]
    exact Nat.zero_le _
  · refine Nat.le_trans (Nat.mul_div_le _ _) ?_
    omega

theorem foldlM_push_iff {bids : List ℕ} (h : a.Ok buck) :
    (bids.foldlM (BidArray.push buck) a).map BidArray.bids = some (a.bids ++ bids) ↔
      ∀ i < bids.length, HasBucket buck (a.bids.length + i) := by
  induction bids generalizing a with
  | nil => simp
  | cons bid bids ih =>
    rw [foldlM_cons, length_cons, Nat.forall_lt_succ_left, Nat.add_zero]
    by_cases hbucket : HasBucket buck a.bids.length
    · obtain ⟨a', ha', hbids, hok⟩ := h.push bid hbucket
      rw [ha', bind_eq_bind, bind_some, and_iff_right hbucket, append_cons, ← hbids, ih hok, hbids, length_append]
      simp only [length_singleton, Nat.add_assoc, Nat.add_comm 1]
    · rw [h.push_eq_none bid hbucket]
      exact iff_of_false nofun fun h => hbucket h.1

theorem findFirstMapMatch_eq_head? : findFirstMapMatch maps c = (listMapMatch maps c).head? := by
  induction maps with
  | nil => rfl
  | cons map maps ih =>
    rw [findFirstMapMatch, findSome?_cons, listMapMatch, flatMap_cons, head?_append, JMap.matchBids, head?_map,
      head?_filter]
    cases hfind : map.find c.matches with
    | none =>
      rw [JMap.find] at hfind
      rw [hfind]
      exact ih
    | some i =>
      rw [JMap.find] at hfind
      rw [hfind]
      rfl

/-- The data blocks of a table and their counters are those that the map has for `c`. -/
structure Counts (maps : List (JMap bent)) (c : MapCmp) (s : Store) : Prop where
  dataBids : s.dataBids = listMapMatch maps { c with nful := none }
  nful : ∀ map ∈ maps, ∀ i : Fin bent, s.nful (calcBid map.bid i) = (map.entry i).nful.toNat

theorem Counts.listMapMatch_eq {s : Store} (h : Counts maps c s) (nful : UInt16) :
    Jlib.listMapMatch s nful.toNat = listMapMatch maps { c with nful := some nful } := by
  rw [Jlib.listMapMatch, h.dataBids, listMapMatch, filter_flatMap]
  refine flatMap_congr fun map hmap => ?_
  rw [JMap.matchBids, List.filter_map, List.filter_filter]
  refine congrArg _ (filter_congr fun i _ => ?_)
  simp [MapCmp.matches, h.nful map hmap, UInt16.lt_iff_toNat_lt, Bool.and_comm]

theorem Counts.findFirstMapMatch_eq {s : Store} (h : Counts maps c s) (nful : UInt16) :
    Jlib.findFirstMapMatch s nful.toNat = findFirstMapMatch maps { c with nful := some nful } := by
  rw [findFirstMapMatch_eq_head?, ← h.listMapMatch_eq, Jlib.listMapMatch, head?_filter]
  rfl

/-- The list has exactly the matching blocks, in the order of the map, if there is a bucket for each of them: then the
size of the array is a number of 32 bits whenever it grows. The first match is its head. -/
theorem listMapMatchArray_iff (buck : ℕ) (maps : List (JMap bent)) (c : MapCmp) :
    listMapMatchArray buck maps c = some (listMapMatch maps c) ∧
        findFirstMapMatch maps c = (listMapMatch maps c).head? ↔
      ∀ n < (listMapMatch maps c).length, HasBucket buck n := by
  have hpush : ((listMapMatch maps c).foldlM (BidArray.push buck) ⟨[], 0, 0⟩).map BidArray.bids = some ([] ++ _) ↔ _ :=
    foldlM_push_iff (.inl rfl)
  simp only [nil_append, length_nil, Nat.zero_add] at hpush
  rw [listMapMatchArray, foldlM_listMapMatch, hpush, and_iff_left findFirstMapMatch_eq_head?]

/-- The first match is written to an array without room. -/
theorem listMapMatchArray_zero : listMapMatch [(newMap 0 : JMap 1)] {} = [1] ∧
    listMapMatchArray 0 [(newMap 0 : JMap 1)] {} = none := by
  decide

end Prj.Jlib.Db
