import Prj.Jlib.CellLoad

/-! When the data of a cell is loaded as it was stored. -/
namespace Prj.Jlib
open Prj.Base List Option

variable {env : Env} {g : Geometry} {s s' s1 : Store} {l last : Loc} {nchunks b : ℕ}

section Full
variable {entry : Loc → Option (Node Loc DataPtr)} {fuel pos b' : ℕ} {data : List UInt8} {bs : List ℕ}

theorem next_of_lastDptr (h : lastDptr entry fuel l = some last) : ∃ ptr, entry last = some ⟨ptr, none⟩ := by
  induction fuel generalizing l with
  | zero => simp [lastDptr] at h
  | succ fuel ih =>
    rw [lastDptr] at h
    split at h
    · simp at h
    next nd hnd =>
      split at h
      next hnext =>
        cases h
        exact ⟨nd.val, by rw [hnd, ← hnext]⟩
      next => exact ih h

/-- The second full block is never finished: `dptr_list` is at the last entry after the first. -/
theorem fullBlocks_eq_none : fullBlocks g fuel data (b :: b' :: bs) pos l s = none := by
  rw [fullBlocks]
  split_ifs
  · rfl
  cases s.entry l with
  | none => rfl
  | some nd =>
    cases hnext : nd.next with
    | none => simp only [hnext]
    | some l' =>
      simp only [hnext]
      split
      · rfl
      next last hlast =>
        obtain ⟨ptr, hptr⟩ := next_of_lastDptr hlast
        unfold fullBlocks
        simp only [hptr]
        split_ifs <;> rfl

theorem length_createDataBlks (env : Env) (k : ℕ) (s : Store) : (createDataBlks env k s).2.length = k := by
  induction k generalizing s with
  | zero => rfl
  | succ k ih => rw [createDataBlks, length_cons, ih]

theorem allocCellDataGt1_eq_none (h : 2 ≤ nchunks / g.nentries) : allocCellDataGt1 env g s nchunks data = none := by
  have hbids : listMapMatch s 0 = [] := by simp [listMapMatch]
  rw [allocCellDataGt1, hbids]
  simp only [length_nil, Nat.sub_zero, nil_append]
  split
  · rfl
  · have hlen := length_createDataBlks env (nchunks / g.nentries) s
    rw [take_of_length_le (Nat.le_of_eq hlen)]
    obtain ⟨b, b', bs, hbs⟩ : ∃ b b' bs, (createDataBlks env (nchunks / g.nentries) s).2 = b :: b' :: bs := by
      match (createDataBlks env (nchunks / g.nentries) s).2, hlen with
      | [], hlen => simp at hlen; omega
      | [_], hlen => simp at hlen; omega
      | b :: b' :: bs, _ => exact ⟨b, b', bs, rfl⟩
    rw [hbs, fullBlocks_eq_none]

end Full

section Blocks
variable {nful n : ℕ} {data : List UInt8} {b : ℕ}

def targetBlk (s : Store) (nful : ℕ) : DataBlk :=
  match findFirstMapMatch s nful with
  | some b => s.data b
  | none => emptyBlk

theorem selectBlk_spec : ∃ s1 b, selectBlk env s nful = (s1, b) ∧ b ∈ s1.dataBids ∧
    s1.data b = targetBlk s nful ∧ ∀ n, PtrsFor env g s1 n ↔ PtrsFor env g s n := by
  rw [selectBlk, targetBlk]
  cases hfind : findFirstMapMatch s nful with
  | some b => exact ⟨s, b, rfl, mem_of_find?_eq_some hfind, rfl, fun _ => Iff.rfl⟩
  | none =>
    refine ⟨createDataBlk env s, freshBid env s, rfl, ?_, ?_, fun _ => Iff.rfl⟩
    · exact (mem_orderedInsert _).mpr (.inl rfl)
    · exact Function.update_self _ _ _

theorem bmapsize_mul_le : g.bmapsize + g.nentries * g.typelen ≤ g.blocksize - 7 := by
  calc g.bmapsize + g.nentries * g.typelen = g.bmapsize * (8 * g.typelen + 1) := by rw [Geometry.nentries]; ring
    _ ≤ g.blocksize - 7 := Nat.div_mul_le_self _ _

theorem calcData_eq : calcData g = .ok g.nentries := by
  have := @bmapsize_mul_le g
  have := g.hdr_le
  rw [calcData, if_neg (by omega)]

def Loads (env : Env) (g : Geometry) (data : List UInt8) (stored : Option (Except JErr (Store × Loc))) : Prop :=
  ∃ s' l, stored = some (.ok (s', l)) ∧
    ∃ fuel, loadCellData env g s' fuel ⟨some l, data.length % 2 ^ 32, env.crc data⟩ = some (.ok data)

theorem mod_eq_of_le_nentries (h : data.length ≤ g.nentries * g.typelen) : data.length % 2 ^ 32 = data.length := by
  have hle := @bmapsize_mul_le g
  have hlt := g.blocksize_lt
  exact Nat.mod_eq_of_lt (by omega)

/-- A chain to runs of slots is loaded when the runs have the data, whatever else is done to the
block once the chain is made. -/
theorem exists_chain_loads_iff {rs : List (ℕ × ℕ)} {pool : ℕ → Option UInt8} {upd : Store → Store} (hb : b ∈ s.dataBids)
    (hupd : ∀ s', s'.data = s.data → (upd s').entry = s'.entry ∧ (upd s').link = s'.link ∧
      (upd s').ptrBids = s'.ptrBids ∧ (upd s').dataBids = s'.dataBids ∧ ((upd s').data b).datapool = pool) :
    (∃ s' l, fillDptrChain env g s (ptrsTo b rs) = some (s', l) ∧
      ∃ fuel, loadCellData env g (upd s') fuel ⟨some l, n, env.crc data⟩ = some (.ok data)) ↔
      rs ≠ [] ∧ PtrsFor env g s rs.length ∧
        (rs.flatMap fun r => get pool (r.1 * g.typelen) (r.2 * g.typelen)) = data.map some ∧ data.length = n := by
  have hload : ∀ s' l, fillDptrChain env g s (ptrsTo b rs) = some (s', l) →
      ((∃ fuel, loadCellData env g (upd s') fuel ⟨some l, n, env.crc data⟩ = some (.ok data)) ↔
        (rs.flatMap fun r => get pool (r.1 * g.typelen) (r.2 * g.typelen)) = data.map some ∧ data.length = n) := by
    intro s' l hfill
    obtain ⟨⟨ls, hjoined⟩, hfollow, hbids, -, hdata⟩ := fillDptrChain_spec hfill
    obtain ⟨hentry, hlink, hptrBids, hdataBids, hpool⟩ := hupd s' hdata
    have hjoined' : Joined (upd s') l ls := by
      rwa [Joined, Walk, hentry, hlink, hptrBids]
    rw [exists_loadCellData_iff hjoined' (hentry ▸ hfollow) (by rwa [hdataBids, hbids]), hpool]
    simp
  have hlen : (ptrsTo b rs).length = rs.length := length_map _
  constructor
  · rintro ⟨s', l, hfill, hfuel⟩
    obtain ⟨hne, hptrs⟩ := ptrsFor_of_fillDptrChain hfill
    exact ⟨fun hnil => hne (by rw [hnil]; rfl), hlen ▸ hptrs, (hload s' l hfill).mp hfuel⟩
  · rintro ⟨hne, hptrs, hread⟩
    rw [← hlen] at hptrs
    obtain ⟨s', l, -, hfill, -⟩ := hptrs.exists_fillDptrChain (by simpa [ptrsTo] using hne)
    exact ⟨s', l, hfill, (hload s' l hfill).mpr hread⟩

theorem loads_eq1_iff : Loads env g data (allocCellDataEq1 env g s data) ↔
      data.length = g.nentries * g.typelen ∧ PtrsFor env g s 1 := by
  obtain ⟨s1, b, hsel, hb, -, hptrs⟩ := @selectBlk_spec env g s 0
  have hiff := @exists_chain_loads_iff env g (fillBlk g s1 b data) (data.length % 2 ^ 32) data b
    [(0, g.nentries)] (put (s1.data b).datapool 0 data) id hb fun s' hdata => by
      refine ⟨rfl, rfl, rfl, rfl, ?_⟩
      rw [id, hdata]
      simp [fillBlk]
  simp only [id] at hiff
  have hget : get (put (s1.data b).datapool 0 data) (0 * g.typelen) (g.nentries * g.typelen) =
      data.map some ↔ data.length = g.nentries * g.typelen := by
    rw [Nat.zero_mul]
    constructor
    · intro h
      rw [← length_map some, ← h, length_get]
    · intro h
      rw [← h, get_put_self]
  have hptrs2 : PtrsFor env g (fillBlk g s1 b data) 1 ↔ PtrsFor env g s 1 := hptrs 1
  rw [Loads, allocCellDataEq1, hsel]
  by_cases hpool : g.poolSize < data.length
  · rw [if_pos hpool]
    refine iff_of_false (by simp) fun h => ?_
    have := @bmapsize_mul_le g
    have hle : g.nentries * g.typelen ≤ g.poolSize := by rw [Geometry.poolSize]; omega
    omega
  · simp only [if_neg hpool, map_eq_some_iff, Except.ok.injEq, exists_eq_right]
    rw [hiff]
    simp only [flatMap_cons, flatMap_nil, append_nil, hget, length_singleton,
      hptrs2, ne_eq, cons_ne_nil, not_false_eq_true, true_and]
    constructor
    · exact fun h => ⟨h.2.1, h.1⟩
    · exact fun h => ⟨h.2, h.1, (mod_eq_of_le_nentries (Nat.le_of_eq h.1)).symm⟩

theorem allocCellDataLt1_eq_some_iff (hsel : selectBlk env s (g.nentries - nchunks) = (s1, b)) :
    allocCellDataLt1 env g s nchunks data = some (.ok (s', l)) ↔
      ∃ es pool s2, blkEntList g nchunks (s1.data b) = some es ∧
        fillSlots g.typelen data 0 es (s1.data b).datapool = some pool ∧
        fillDptrChain env g s1 (ptrsTo b (runs es)) = some (s2, l) ∧ markSlots s2 b es pool = s' := by
  rw [allocCellDataLt1, hsel]
  cases hes : blkEntList g nchunks (s1.data b) with
  | none => simp
  | some es =>
    cases hchain : fillDptrChain env g s1 (ptrsTo b (runs es)) with
    | none => simp [hchain]
    | some r =>
      obtain ⟨s2, l2⟩ := r
      have hdata : s2.data = s1.data := (fillDptrChain_spec hchain).2.2.2.2
      cases hfill : fillSlots g.typelen data 0 es (s1.data b).datapool with
      | none => simp [hchain, hdata, hfill]
      | some pool =>
        simp only [hchain, hdata, hfill, some.injEq, Except.ok.injEq, Prod.mk.injEq]
        constructor
        · rintro ⟨rfl, rfl⟩
          exact ⟨es, pool, s2, rfl, hfill, hchain, rfl⟩
        · rintro ⟨es', pool', s3, rfl, hfill', hchain', hmark⟩
          rw [hfill, some.injEq] at hfill'
          rw [hchain, some.injEq, Prod.mk.injEq] at hchain'
          exact ⟨by rw [hchain'.1, hfill', hmark], hchain'.2⟩

theorem loads_lt1_iff : Loads env g data (allocCellDataLt1 env g s nchunks data) ↔
      let slots := (freeSlots g (targetBlk s (g.nentries - nchunks))).take nchunks
      slots ≠ [] ∧ slots.length * g.typelen = data.length ∧ data.length < 2 ^ 32 ∧
        PtrsFor env g s (runs slots).length := by
  obtain ⟨s1, b, hsel, hb, hblk, hptrs⟩ := @selectBlk_spec env g s (g.nentries - nchunks)
  simp only [Loads, allocCellDataLt1_eq_some_iff hsel, ← hblk]
  by_cases hnone : nchunks = 0 ∧ freeSlots g (s1.data b) ≠ []
  · rw [blkEntList, if_pos hnone]
    exact iff_of_false (by simp) fun h => h.1 (by rw [hnone.1, take_zero])
  · have hnodup : ((freeSlots g (s1.data b)).take nchunks).Nodup :=
      (nodup_range.filter _).sublist (take_sublist _ _)
    rw [blkEntList, if_neg hnone]
    generalize (freeSlots g (s1.data b)).take nchunks = slots at hnodup
    have hsome := @fillSlots_isSome_iff UInt8 (s1.data b).datapool g.typelen data 0 slots
    cases hfill : fillSlots g.typelen data 0 slots (s1.data b).datapool with
    | none =>
      rw [hfill] at hsome
      refine iff_of_false ?_ fun h => ?_
      · rintro ⟨_, _, ⟨_, _, _, hes, hfill', -⟩, -⟩
        cases hes
        simp [hfill] at hfill'
      · simpa using hsome.mpr (.inr (by rw [Nat.zero_add, h.2.1]))
    | some pool =>
      have hiff := @exists_chain_loads_iff env g s1 (data.length % 2 ^ 32) data b (runs slots) pool
        (fun s' => markSlots s' b slots pool) hb fun _ _ => ⟨rfl, rfl, rfl, by simp [markSlots]⟩
      have hread : (data.drop (0 * g.typelen)).take (slots.length * g.typelen) = data ↔
          data.length ≤ slots.length * g.typelen := by
        rw [Nat.zero_mul, drop_zero]
        refine ⟨fun h => ?_, take_of_length_le⟩
        rw [← h, length_take]
        exact Nat.min_le_left _ _
      rw [flatMap_runs, flatMap_fillSlots hfill hnodup, List.map_inj_right (fun _ _ => some.inj),
        hread, hptrs, ne_eq, runs_eq_nil] at hiff
      rw [hfill, Nat.zero_add] at hsome
      have hle : slots = [] ∨ slots.length * g.typelen ≤ data.length := hsome.mp rfl
      constructor
      · rintro ⟨_, l, ⟨_, _, s2, hes, hfill', hchain, rfl⟩, hload⟩
        cases hes
        obtain rfl := some.inj (hfill.symm.trans hfill')
        obtain ⟨hne, hp, hlen, hmod⟩ := hiff.mp ⟨s2, l, hchain, hload⟩
        refine ⟨hne, Nat.le_antisymm (hle.resolve_left hne) hlen, ?_, hp⟩
        rw [hmod]
        exact Nat.mod_lt _ (by norm_num)
      · rintro ⟨hne, hlen, hlt, hp⟩
        obtain ⟨s2, l, hchain, hload⟩ :=
          hiff.mpr ⟨hne, hp, Nat.le_of_eq hlen.symm, (Nat.mod_eq_of_lt hlt).symm⟩
        exact ⟨_, l, ⟨slots, pool, s2, rfl, hfill, hchain, rfl⟩, hload⟩

/-- The data is a number of whole chunks, not none and not more than the data block that is
selected has free slots, and there are data pointers for the runs of these slots. -/
structure Fits (env : Env) (g : Geometry) (s : Store) (data : List UInt8) : Prop where
  typelen_pos : 0 < g.typelen
  dvd : g.typelen ∣ data.length
  length_pos : 0 < data.length
  free : data.length / g.typelen ≤ (freeSlots g (targetBlk s (g.nentries - data.length / g.typelen))).length
  ptrs : PtrsFor env g s (runs ((freeSlots g
    (targetBlk s (g.nentries - data.length / g.typelen))).take (data.length / g.typelen))).length

theorem length_freeSlots_le (blk : DataBlk) : (freeSlots g blk).length ≤ g.nentries := by
  calc (freeSlots g blk).length ≤ (List.range g.nentries).length := length_filter_le _ _
    _ = g.nentries := length_range

theorem freeSlots_targetBlk_zero : freeSlots g (targetBlk s 0) = List.range g.nentries := by
  have hfind : findFirstMapMatch s 0 = none := by simp [findFirstMapMatch]
  rw [targetBlk, hfind, freeSlots, filter_eq_self]
  exact fun _ _ => rfl

theorem runs_range (hn : 0 < n) : (runs (List.range n)).length = 1 := by
  obtain ⟨n, rfl⟩ : ∃ k, n = k + 1 := ⟨n - 1, by omega⟩
  rw [range_eq_range', runs_range']
  rfl

theorem numChunks_of_dvd (hdvd : g.typelen ∣ data.length) : numChunks g data.length = data.length / g.typelen := by
  rw [numChunks, if_pos (Nat.mod_eq_zero_of_dvd hdvd), Nat.add_zero]

theorem nentries_lt (hpos : 0 < g.typelen) : g.nentries < 2 ^ 16 := by
  have hle := @bmapsize_mul_le g
  have hlt := g.blocksize_lt
  have hmul := Nat.le_mul_of_pos_right g.nentries hpos
  omega

theorem Fits.chunks_pos (h : Fits env g s data) : 0 < data.length / g.typelen :=
  Nat.div_pos (Nat.le_of_dvd h.length_pos h.dvd) h.typelen_pos

theorem Fits.chunks_le (h : Fits env g s data) : data.length / g.typelen ≤ g.nentries :=
  h.free.trans (length_freeSlots_le _)

theorem fits_of_nentries (hpos : 0 < g.typelen) (hn : 0 < g.nentries)
    (hlen : data.length = g.nentries * g.typelen) (hptrs : PtrsFor env g s 1) : Fits env g s data := by
  have hk : data.length / g.typelen = g.nentries := by rw [hlen, Nat.mul_div_cancel _ hpos]
  refine ⟨hpos, hlen ▸ Nat.dvd_mul_left _ _, hlen ▸ Nat.mul_pos hn hpos, ?_, ?_⟩
  · rw [hk, Nat.sub_self, freeSlots_targetBlk_zero, length_range]
  · rw [hk, Nat.sub_self, freeSlots_targetBlk_zero, take_of_length_le (Nat.le_of_eq length_range), runs_range hn]
    exact hptrs

theorem Fits.loads_eq1 (h : Fits env g s data) (hk : data.length / g.typelen = g.nentries) :
    Loads env g data (allocCellDataEq1 env g s data) := by
  refine loads_eq1_iff.mpr ⟨by rw [← hk, Nat.div_mul_cancel h.dvd], ?_⟩
  have hptrs := h.ptrs
  rwa [hk, Nat.sub_self, freeSlots_targetBlk_zero, take_of_length_le (Nat.le_of_eq length_range),
    runs_range (hk ▸ h.chunks_pos)] at hptrs

theorem Fits.loads_lt1 (h : Fits env g s data) :
    Loads env g data (allocCellDataLt1 env g s (data.length / g.typelen) data) := by
  have hlen : ((freeSlots g (targetBlk s (g.nentries - data.length / g.typelen))).take
      (data.length / g.typelen)).length = data.length / g.typelen := by
    rw [length_take]
    exact Nat.min_eq_left h.free
  refine loads_lt1_iff.mpr ⟨?_, ?_, ?_, h.ptrs⟩
  · intro hnil
    have hpos := h.chunks_pos
    rw [hnil, length_nil] at hlen
    omega
  · rw [hlen, Nat.div_mul_cancel h.dvd]
  · have hle : data.length ≤ g.nentries * g.typelen := by
      rw [← Nat.div_mul_cancel h.dvd]
      exact Nat.mul_le_mul_right _ h.chunks_le
    rw [← mod_eq_of_le_nentries hle]
    exact Nat.mod_lt _ (by norm_num)

theorem fits_of_loads_lt1 (hpos : 0 < g.typelen) (hn : 0 < g.nentries)
    (ha : numChunks g data.length / g.nentries % 2 ^ 32 < 1) (h : Loads env g data
      (allocCellDataLt1 env g s (numChunks g data.length % 2 ^ 16) data)) : Fits env g s data := by
  obtain ⟨hne, hlen, hlt, hptrs⟩ := loads_lt1_iff.mp h
  have hdvd : g.typelen ∣ data.length := ⟨_, by rw [Nat.mul_comm]; exact hlen.symm⟩
  have hchunks := numChunks_of_dvd hdvd
  -- less than a block, and not only because of the width of the quotient
  have hfew : data.length / g.typelen < g.nentries := by
    rw [hchunks] at ha
    have hsmall : data.length / g.typelen / g.nentries < 2 ^ 32 :=
      ((Nat.div_le_self _ _).trans (Nat.div_le_self _ _)).trans_lt hlt
    rw [Nat.mod_eq_of_lt hsmall] at ha
    exact (Nat.div_lt_one_iff hn).mp ha
  have hmod : numChunks g data.length % 2 ^ 16 = data.length / g.typelen := by
    rw [hchunks]
    exact Nat.mod_eq_of_lt (hfew.trans (nentries_lt hpos))
  rw [hmod] at hne hlen hptrs
  have hcount := Nat.eq_div_of_mul_eq_left (Nat.ne_of_gt hpos) hlen
  refine ⟨hpos, hdvd, ?_, ?_, hptrs⟩
  · rw [← hlen]
    exact Nat.mul_pos (length_pos_iff.mpr hne) hpos
  · rw [length_take] at hcount
    omega

end Blocks

/-- A cell is loaded as it was stored exactly when its data is in whole chunks that fit the free
slots of the one block selected for it. -/
theorem loadsBack_iff (env : Env) (g : Geometry) (s : Store) (data : List UInt8) :
    LoadsBack env g s data ↔ Fits env g s data := by
  change Loads env g data (allocCellData env g s data) ↔ _
  rcases Nat.eq_zero_or_pos g.typelen with hzero | hpos
  · rw [allocCellData, if_pos hzero]
    exact iff_of_false (by simp [Loads]) fun h => absurd hzero (Nat.ne_of_gt h.typelen_pos)
  rw [allocCellData, if_neg (Nat.ne_of_gt hpos), calcData_eq]
  rcases Nat.eq_zero_or_pos g.nentries with hzero | hn
  · simp only [hzero, if_true]
    refine iff_of_false (by simp [Loads]) fun h => ?_
    have hle := h.chunks_le
    have hgt := h.chunks_pos
    omega
  simp only [Nat.ne_of_gt hn, if_false]
  have hquot (h : Fits env g s data) : numChunks g data.length / g.nentries =
      if data.length / g.typelen = g.nentries then 1 else 0 := by
    rw [numChunks_of_dvd h.dvd]
    split_ifs with hk
    · rw [hk, Nat.div_self hn]
    · exact Nat.div_eq_of_lt (Nat.lt_of_le_of_ne h.chunks_le hk)
  split_ifs with hone hless
  · refine ⟨fun h => ?_, fun h => h.loads_eq1 ?_⟩
    · obtain ⟨hlen, hptrs⟩ := loads_eq1_iff.mp h
      exact fits_of_nentries hpos hn hlen hptrs
    · by_contra hk
      rw [hquot h, if_neg hk] at hone
      simp at hone
  · refine ⟨fits_of_loads_lt1 hpos hn hless, fun h => ?_⟩
    rw [numChunks_of_dvd h.dvd, Nat.mod_eq_of_lt (h.chunks_le.trans_lt (nentries_lt hpos))]
    exact h.loads_lt1
  · rw [allocCellDataGt1_eq_none]
    · refine iff_of_false (by simp [Loads]) fun h => ?_
      rw [hquot h] at hone hless
      split_ifs at hone hless <;> omega
    · have := Nat.mod_le (numChunks g data.length / g.nentries) (2 ^ 32)
      omega

/-- Sixteen bytes take two blocks. -/
theorem not_loadsBack_two_blocks : ¬ LoadsBack countingEnv byteGeometry emptyStore (List.replicate 16 0) := by
  rintro ⟨s', l, hstored, -⟩
  have hgt : allocCellData countingEnv byteGeometry emptyStore (List.replicate 16 0) =
      allocCellDataGt1 countingEnv byteGeometry emptyStore 16 (List.replicate 16 0) := rfl
  rw [hgt, allocCellDataGt1_eq_none (by decide)] at hstored
  simp at hstored

end Prj.Jlib
