import Prj.Jlib.BlockMap

/-!
The types of the columns of a table (`jlib/src/jdb_type.c`).

The counter `ncol_typedef` and the journal are left out: nothing here reads them.
-/
namespace Prj.Jlib.Db
open List

def typeEmpty : UInt8 := 0x00

structure ColBlk (bent : ℕ) where
  bid : ℕ
  entry : Fin bent → ColTypedefBlkEntry

structure ColState where
  h : Handle
  colBent : ℕ
  colBent_pos : 0 < colBent
  tid : UInt32
  ncols : UInt32
  /-- The types in the entries of `typedef_list`. -/
  typeIds : List UInt8
  /-- The blocks of `col_typedef_list`. -/
  blocks : List (ColBlk colBent)

section Blocks
variable {bent : ℕ}

def ColBlk.find (p : ColTypedefBlkEntry → Bool) (blk : ColBlk bent) : Option (Fin bent) :=
  (List.finRange bent).find? fun i => p (blk.entry i)

def ColBlk.set (blk : ColBlk bent) (i : Fin bent) (e : ColTypedefBlkEntry) : ColBlk bent :=
  { blk with entry := Function.update blk.entry i e }

def newColBlk (bid : ℕ) : ColBlk bent := ⟨bid, fun _ => ⟨0xff, 0xffffffff⟩⟩

/-- The loops of `jdb_find_col_type`. Only the assignment of `dtype` depends on the column, the two statements
after it do not: the first entry ends the call. Without that assignment `dtype` is what the stack holds. -/
def findLoop (garbage : UInt8) (col : UInt32) : List (ColBlk bent) → UInt8
  | [] => typeEmpty
  | blk :: blks =>
    match List.finRange bent with
    | [] => findLoop garbage col blks
    | i :: _ => if (blk.entry i).col = col then (blk.entry i).typeId else garbage

/-- The first entry with the column, its block and the number of that. -/
def findSlot (col : UInt32) : List (ColBlk bent) → Option (ℕ × ColBlk bent × Fin bent)
  | [] => none
  | blk :: blks =>
    match blk.find fun e => e.col == col with
    | some i => some (0, blk, i)
    | none => (findSlot col blks).map fun r => (r.1 + 1, r.2)

end Blocks

section Calls
variable (s : ColState)

def findColType (garbage : UInt8) (col : UInt32) : UInt8 :=
  if s.ncols < col then typeEmpty else findLoop garbage col s.blocks

def ColState.room : MapCmp where
  btype := some btypeColTypedef
  tid := some s.tid
  nful := some (.ofNat (s.colBent - 1))

def createColTypedef : Except Err ColState :=
  match getEmptyMapEntry s.h btypeColTypedef 0 s.tid 0 with
  | none => .error .limit
  | some (bid, h) => .ok { s with h := h, blocks := s.blocks ++ [newColBlk bid] }

/-- The loop at the end of `jdb_assign_col_type`, on the block with the number `k`. -/
def fillSlot (k : ℕ) (typeId : UInt8) (col : UInt32) : Except Err Unit × ColState :=
  match s.blocks[k]? with
  | none => (.error .unk, s)
  | some blk =>
    match blk.find fun e => e.typeId == typeEmpty with
    | none => (.error .unk, s)
    | some i =>
      match incMapNfulByBid s.h blk.bid 1 with
      | .error e => (.error e, s)
      | .ok h => (.ok (), { s with h := h, blocks := s.blocks.set k (blk.set i ⟨typeId, col⟩) })

def assignColType (garbage typeId : UInt8) (col : UInt32) : Except Err Unit × ColState :=
  if s.ncols < col then (.error .limit, s)
  else if findColType s garbage col ≠ typeEmpty then (.error .exist, s)
  else if typeId ∉ s.typeIds then (.error .notfound, s)
  else
    match findFirstMapMatch s.h.maps s.room with
    | none =>
      match createColTypedef s with
      | .error e => (.error e, s)
      | .ok s' => fillSlot s' s.blocks.length typeId col
    | some bid =>
      match s.blocks.findIdx? fun blk => blk.bid == bid with
      | none => (.error .unk, s)
      | some k => fillSlot s k typeId col

/-- What `bent` is after `_jdb_get_map_nful_by_bid`. -/
def nfulOr (h : Handle) (bid old : ℕ) : ℕ :=
  match getMapNfulByBid h bid with
  | .ok nful => nful.toNat
  | .error _ => old

def rmColType (col : UInt32) : Except Err Unit × ColState :=
  if s.ncols < col then (.error .limit, s)
  else
    match findSlot col s.blocks with
    | none => (.error .notfound, s)
    | some (k, blk, i) =>
      match decMapNfulByBid s.h blk.bid 1 with
      | .error e => (.error e, s)
      | .ok h =>
        let blocks := s.blocks.set k (blk.set i { blk.entry i with typeId := typeEmpty })
        if nfulOr h blk.bid i = 0 then
          (.ok (), { s with
            h := (rmMapBidEntry h blk.bid).toOption.getD h
            blocks := blocks.eraseP fun b => b.bid == blk.bid })
        else (.ok (), { s with h := h, blocks := blocks })

inductive Call
  | assign (typeId : UInt8) (col : UInt32)
  | rm (col : UInt32)
  deriving DecidableEq, Repr

def ColState.step (garbage : UInt8) : Call → Except Err Unit × ColState
  | .assign typeId col => assignColType s garbage typeId col
  | .rm col => rmColType s col

end Calls

section Tracking
variable {s : ColState} {types : UInt32 → Option UInt8} {garbage : UInt8} {c : Call} {s' : ColState}

def track (types : UInt32 → Option UInt8) : Call → Except Err Unit → UInt32 → Option UInt8
  | .assign typeId col, .ok _ => Function.update types col (some typeId)
  | .rm col, .ok _ => Function.update types col none
  | _, .error _ => types

/-- `jdb_find_col_type` gives the assigned types, whatever the stack holds. -/
def Agrees (s : ColState) (types : UInt32 → Option UInt8) : Prop :=
  ∀ garbage col, findColType s garbage col = (types col).getD typeEmpty ∧
    (findColType s garbage col = typeEmpty ↔ types col = none)

/-- The same before and after every call of a sequence; with each call stands what it finds on the stack. -/
def Tracks : ColState → (UInt32 → Option UInt8) → List (UInt8 × Call) → Prop
  | s, types, [] => Agrees s types
  | s, types, (garbage, c) :: cs =>
    Agrees s types ∧ Tracks (s.step garbage c).2 (track types c (s.step garbage c).1) cs

/-- A call that gets as far as a first block for column types. -/
def ColState.Creates (s : ColState) : Call → Prop
  | .assign typeId col => col ≤ s.ncols ∧ typeId ∈ s.typeIds ∧ findFirstMapMatch s.h.maps s.room = none ∧
      (getEmptyMapEntry s.h btypeColTypedef 0 s.tid 0).isSome
  | .rm _ => False

theorem findColType_of_nil (h : s.blocks = []) (garbage : UInt8) (col : UInt32) :
    findColType s garbage col = typeEmpty := by
  rw [findColType, h, findLoop, ite_self]

theorem findColType_of_cons {blk : ColBlk s.colBent} {blks : List (ColBlk s.colBent)}
    (h : s.blocks = blk :: blks) (hncols : 0 < s.ncols) : ∃ col, ∀ garbage, findColType s garbage col = garbage := by
  obtain ⟨i, is, hrange⟩ := exists_cons_of_length_pos
    (by rw [length_finRange]; exact s.colBent_pos : 0 < (List.finRange s.colBent).length)
  have hloop : ∀ garbage col, col ≠ (blk.entry i).col → findLoop garbage col s.blocks = garbage := by
    intro garbage col hne
    rw [h, findLoop, hrange]
    exact if_neg (Ne.symm hne)
  by_cases hcol : (blk.entry i).col = 0
  · refine ⟨s.ncols, fun garbage => ?_⟩
    rw [findColType, if_neg (UInt32.lt_irrefl _)]
    apply hloop
    rw [hcol]
    exact (UInt32.ne_of_lt hncols).symm
  · refine ⟨0, fun garbage => ?_⟩
    exact hloop garbage 0 (Ne.symm hcol)

theorem Agrees.blocks_eq_nil (h : Agrees s types) (hncols : 0 < s.ncols) : s.blocks = [] ∧ ∀ col, types col = none := by
  have hnil : s.blocks = [] := by
    cases hblocks : s.blocks with
    | nil => rfl
    | cons blk blks =>
      obtain ⟨col, hcol⟩ := findColType_of_cons hblocks hncols
      have hzero := (hcol 0).symm.trans (h 0 col).1
      have hone := (hcol 1).symm.trans (h 1 col).1
      exact absurd (hzero.trans hone.symm) (by decide)
  refine ⟨hnil, fun col => ?_⟩
  exact (h 0 col).2.1 (findColType_of_nil hnil 0 col)

/-- What an assignment can do: fail at once, or look for a free entry in a block that is there, or in a new
one. -/
theorem assignColType_cases (s : ColState) (garbage typeId : UInt8) (col : UInt32) :
    (∃ e, assignColType s garbage typeId col = (.error e, s)) ∨
      (∃ k, assignColType s garbage typeId col = fillSlot s k typeId col) ∨
      ∃ s', createColTypedef s = .ok s' ∧ s.Creates (.assign typeId col) ∧
        assignColType s garbage typeId col = fillSlot s' s.blocks.length typeId col := by
  unfold assignColType
  split_ifs with hcol hempty htype
  · exact .inl ⟨_, rfl⟩
  · exact .inl ⟨_, rfl⟩
  · cases hmatch : findFirstMapMatch s.h.maps s.room with
    | some bid =>
      cases hidx : s.blocks.findIdx? fun blk => blk.bid == bid with
      | none => exact .inl ⟨.unk, by simp only [hidx]⟩
      | some k => exact .inr (.inl ⟨k, by simp only [hidx]⟩)
    | none =>
      cases hcreate : createColTypedef s with
      | error e => exact .inl ⟨_, rfl⟩
      | ok s' =>
        refine .inr (.inr ⟨s', rfl, ⟨UInt32.not_lt.1 hcol, htype, hmatch, ?_⟩, rfl⟩)
        unfold createColTypedef at hcreate
        cases hget : getEmptyMapEntry s.h btypeColTypedef 0 s.tid 0 with
        | none =>
          rw [hget] at hcreate
          cases hcreate
        | some r => rfl
  · exact .inl ⟨_, rfl⟩

theorem createColTypedef_ok (h : createColTypedef s = .ok s') :
    ∃ h' bid, s' = { s with h := h', blocks := s.blocks ++ [newColBlk bid] } := by
  unfold createColTypedef at h
  cases hget : getEmptyMapEntry s.h btypeColTypedef 0 s.tid 0 with
  | none =>
    rw [hget] at h
    cases h
  | some r =>
    rw [hget] at h
    exact ⟨r.2, r.1, (Except.ok.inj h).symm⟩

variable {col : UInt32}

theorem rmColType_of_none (h : findSlot col s.blocks = none) : ∃ e, rmColType s col = (.error e, s) := by
  unfold rmColType
  split_ifs
  · exact ⟨_, rfl⟩
  · rw [h]
    exact ⟨_, rfl⟩

def ColState.Unset (s : ColState) : Prop := ∀ blk ∈ s.blocks, ∀ i, blk.entry i = ⟨0xff, 0xffffffff⟩

theorem fillSlot_of_unset (h : s.Unset) (k : ℕ) (typeId : UInt8) (col : UInt32) :
    fillSlot s k typeId col = (.error .unk, s) := by
  unfold fillSlot
  cases hblk : s.blocks[k]? with
  | none => rfl
  | some blk =>
    have hnone : (blk.find fun e => e.typeId == typeEmpty) = none := by
      rw [ColBlk.find, find?_eq_none]
      intro i _
      rw [h blk (mem_of_getElem? hblk)]
      decide
    simp only [hnone]

theorem findSlot_eq_none {bent : ℕ} {blks : List (ColBlk bent)}
    (h : ∀ blk ∈ blks, ∀ i, (blk.entry i).col ≠ col) : findSlot col blks = none := by
  induction blks with
  | nil => rfl
  | cons blk blks ih =>
    have hnone : (blk.find fun e => e.col == col) = none := by
      rw [ColBlk.find, find?_eq_none]
      intro i _
      rw [beq_iff_eq]
      exact h blk mem_cons_self i
    rw [findSlot, hnone, ih fun b hb => h b (mem_cons_of_mem _ hb)]
    rfl

theorem ColState.Unset.create (h : s.Unset) (hcreate : createColTypedef s = .ok s') : s'.Unset := by
  obtain ⟨h', bid, rfl⟩ := createColTypedef_ok hcreate
  intro blk hblk i
  rcases mem_append.1 hblk with hblk | hblk
  · exact h blk hblk i
  · rw [mem_singleton.1 hblk]
    rfl

theorem assignColType_of_unset (h : s.Unset) (garbage typeId : UInt8) (col : UInt32) :
    ∃ e s', assignColType s garbage typeId col = (.error e, s') ∧
      (s' = s ∨ createColTypedef s = .ok s' ∧ s.Creates (.assign typeId col)) := by
  obtain ⟨e, heq⟩ | ⟨k, heq⟩ | ⟨s', hcreate, hc, heq⟩ := assignColType_cases s garbage typeId col
  · exact ⟨e, s, heq, .inl rfl⟩
  · exact ⟨_, s, heq.trans (fillSlot_of_unset h k typeId col), .inl rfl⟩
  · exact ⟨_, s', heq.trans (fillSlot_of_unset (h.create hcreate) _ typeId col), .inr ⟨hcreate, hc⟩⟩

theorem step_of_unset (h : s.Unset) (hncols : s.ncols < 0xffffffff) (garbage : UInt8) (c : Call) :
    ∃ e s', s.step garbage c = (.error e, s') ∧ s'.Unset ∧ s'.ncols = s.ncols := by
  cases c with
  | assign typeId col =>
    obtain ⟨e, s', heq, rfl | ⟨hcreate, -⟩⟩ := assignColType_of_unset h garbage typeId col
    · exact ⟨e, _, heq, h, rfl⟩
    · refine ⟨e, s', heq, h.create hcreate, ?_⟩
      obtain ⟨h', bid, rfl⟩ := createColTypedef_ok hcreate
      rfl
  | rm col =>
    by_cases hcol : s.ncols < col
    · exact ⟨_, s, if_pos hcol, h, rfl⟩
    · have hne : col ≠ 0xffffffff := by
        rintro rfl
        exact hcol hncols
      obtain ⟨e, heq⟩ := rmColType_of_none (findSlot_eq_none fun blk hblk i => by rw [h blk hblk i]; exact hne.symm)
      exact ⟨e, s, heq, h, rfl⟩

def ColState.results : ColState → List (UInt8 × Call) → List (Except Err Unit)
  | _, [] => []
  | s, (garbage, c) :: cs => (s.step garbage c).1 :: (s.step garbage c).2.results cs

theorem results_of_unset (h : s.Unset) (hncols : s.ncols < 0xffffffff) (calls : List (UInt8 × Call)) :
    ∀ r ∈ s.results calls, ∃ e, r = .error e := by
  induction calls generalizing s with
  | nil => intro r hr; cases hr
  | cons c calls ih =>
    obtain ⟨garbage, c⟩ := c
    obtain ⟨e, s', hstep, hunset, hsame⟩ := step_of_unset h hncols garbage c
    intro r hr
    rw [ColState.results, hstep] at hr
    rcases mem_cons.1 hr with rfl | hr
    · exact ⟨e, rfl⟩
    · exact ih hunset (by rw [hsame]; exact hncols) r hr

theorem ColState.unset_of_nil (h : s.blocks = []) : s.Unset := by
  intro blk hblk
  rw [h] at hblk
  cases hblk

theorem step_of_nil (h : s.blocks = []) (hc : ¬ s.Creates c) (garbage : UInt8) :
    ∃ e, s.step garbage c = (.error e, s) := by
  cases c with
  | rm col => exact rmColType_of_none (by rw [h]; rfl)
  | assign typeId col =>
    obtain ⟨e, s', heq, rfl | ⟨-, hcreates⟩⟩ :=
      assignColType_of_unset (s.unset_of_nil h) garbage typeId col
    · exact ⟨e, heq⟩
    · exact absurd hcreates hc

theorem step_of_creates (h : s.blocks = []) (hc : s.Creates c) (garbage : UInt8) :
    (s.step garbage c).2.blocks ≠ [] ∧ (s.step garbage c).2.ncols = s.ncols := by
  cases c with
  | rm col => exact hc.elim
  | assign typeId col =>
    obtain ⟨hcol, htype, hmatch, hget⟩ := hc
    obtain ⟨r, hr⟩ := Option.isSome_iff_exists.1 hget
    have hcreate : createColTypedef s = .ok { s with h := r.2, blocks := s.blocks ++ [newColBlk r.1] } := by
      rw [createColTypedef, hr]
    have hstep : s.step garbage (.assign typeId col) =
        (.error .unk, { s with h := r.2, blocks := s.blocks ++ [newColBlk r.1] }) := by
      rw [← fillSlot_of_unset ((s.unset_of_nil h).create hcreate) s.blocks.length typeId col]
      unfold ColState.step assignColType
      simp only [UInt32.not_lt.2 hcol, if_false, findColType_of_nil h, ne_eq, not_true_eq_false, htype, hmatch, hcreate]
    rw [hstep]
    exact ⟨append_ne_nil_of_right_ne_nil _ (cons_ne_nil _ _), rfl⟩

variable {calls : List (UInt8 × Call)}

theorem Tracks.agrees (h : Tracks s types calls) : Agrees s types := by
  cases calls with
  | nil => exact h
  | cons c calls => exact h.1

theorem tracks_of_not_creates (hnil : s.blocks = [])
    (htypes : ∀ col, types col = none) (hcalls : ∀ c ∈ calls, ¬ s.Creates c.2) : Tracks s types calls := by
  have hagrees : Agrees s types := by
    intro garbage col
    rw [findColType_of_nil hnil, htypes]
    exact ⟨rfl, iff_of_true rfl rfl⟩
  induction calls with
  | nil => exact hagrees
  | cons c calls ih =>
    obtain ⟨garbage, c⟩ := c
    obtain ⟨e, hstep⟩ := step_of_nil hnil (hcalls _ mem_cons_self) garbage
    refine ⟨hagrees, ?_⟩
    have htrack : track types c (.error e) = types := by cases c <;> rfl
    rw [hstep, htrack]
    exact ih fun c hc => hcalls c (mem_cons_of_mem _ hc)

theorem Tracks.not_creates (hncols : 0 < s.ncols) (h : Tracks s types calls) : ∀ c ∈ calls, ¬ s.Creates c.2 := by
  induction calls with
  | nil => intro c hc; cases hc
  | cons c calls ih =>
    obtain ⟨garbage, c⟩ := c
    obtain ⟨hnil, -⟩ := h.1.blocks_eq_nil hncols
    have hfirst : ¬ s.Creates c := by
      intro hc
      obtain ⟨hblocks, hsame⟩ := step_of_creates hnil hc garbage
      exact hblocks (h.2.agrees.blocks_eq_nil (by rw [hsame]; exact hncols)).1
    obtain ⟨e, hstep⟩ := step_of_nil hnil hfirst garbage
    have htrack : track types c (.error e) = types := by cases c <;> rfl
    have hrest := h.2
    rw [hstep, htrack] at hrest
    rw [forall_mem_cons]
    exact ⟨hfirst, ih hrest⟩

/-- The column types of a table behave as a map as long as there is no block for them, and on a table with
columns not longer. -/
theorem tracks_iff (s : ColState) (types : UInt32 → Option UInt8) (calls : List (UInt8 × Call)) :
    (s.blocks = [] ∧ (∀ col, types col = none) ∧ (∀ c ∈ calls, ¬ s.Creates c.2) → Tracks s types calls) ∧
      (0 < s.ncols → Tracks s types calls →
        s.blocks = [] ∧ (∀ col, types col = none) ∧ ∀ c ∈ calls, ¬ s.Creates c.2) := by
  constructor
  · rintro ⟨hnil, htypes, hcalls⟩
    exact tracks_of_not_creates hnil htypes hcalls
  · intro hncols h
    obtain ⟨hnil, htypes⟩ := h.agrees.blocks_eq_nil hncols
    exact ⟨hnil, htypes, h.not_creates hncols⟩

def freshTable : ColState where
  h := ⟨4, by decide, by decide, 100, [newMap 0]⟩
  colBent := 4
  colBent_pos := by decide
  tid := 1
  ncols := 3
  typeIds := [0x10]
  blocks := []

/-- The first assignment fails, and after it the type of a column is read from the stack. -/
theorem not_tracks_freshTable : (freshTable.step 0 (.assign 0x10 1)).1 = .error .unk ∧
      (∀ garbage, findColType (freshTable.step 0 (.assign 0x10 1)).2 garbage 1 = garbage) ∧
      ¬ Tracks freshTable (fun _ => none) [(0, .assign 0x10 1)] := by
  have hread : ∀ garbage, findColType (freshTable.step 0 (.assign 0x10 1)).2 garbage 1 = garbage :=
    fun _ => rfl
  refine ⟨rfl, hread, ?_⟩
  intro h
  have hzero : findColType (freshTable.step 0 (.assign 0x10 1)).2 9 1 = typeEmpty := (h.2 9 1).1
  exact absurd hzero (by decide)

theorem results_of_unset_freshTable : freshTable.Unset ∧
    ∀ r ∈ freshTable.results [(0, .assign 0x10 1), (0, .rm 1)], ∃ e, r = .error e :=
  have h := freshTable.unset_of_nil rfl
  ⟨h, results_of_unset h (by decide) _⟩

end Tracking
end Prj.Jlib.Db
