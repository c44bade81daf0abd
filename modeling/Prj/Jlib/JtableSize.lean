import Prj.Base.Trail
import Prj.Jlib.Jtable

/-!
Rows and columns that are taken out of a table (`jt_rm_row`, `jt_rm_col` and `jt_table_set_size` in
`jlib/src/jtable.c`).

The cells are nodes of a list in a memory. A call gives `none` where the source follows `NULL` or a freed cell;
`fuel` bounds each of its loops.
-/
namespace Prj.Jlib.Jtable
open Prj.Base List Option
open Function

section Model
structure LinkedTable (L : Type) where
  hdr : TableHdr
  mem : L → Option (Node L Cell)
  first : Option L
  last : Option L

/-- What `jt_rm_row` and `jt_rm_col` take for a row. -/
structure Axis where
  get : Cell → UInt32
  set : Cell → UInt32 → Cell
  size : TableHdr → UInt32
  setSize : TableHdr → UInt32 → TableHdr
  get_set : ∀ c v, get (set c v) = v
  set_set : ∀ c v w, set (set c v) w = set c w
  set_get : ∀ c, set c (get c) = c
  size_congr : ∀ h h' : TableHdr, h'.nrows = h.nrows → h'.ncols = h.ncols → size h' = size h
  ncells_setSize : ∀ h v, (setSize h v).ncells = h.ncells

def rows : Axis where
  get c := c.hdr.row
  set c v := { c with hdr := { c.hdr with row := v } }
  size h := h.nrows
  setSize h v := { h with nrows := v }
  get_set _ _ := rfl
  set_set _ _ _ := rfl
  set_get _ := rfl
  size_congr _ _ h _ := h
  ncells_setSize _ _ := rfl

def cols : Axis where
  get c := c.hdr.col
  set c v := { c with hdr := { c.hdr with col := v } }
  size h := h.ncols
  setSize h v := { h with ncols := v }
  get_set _ _ := rfl
  set_set _ _ _ := rfl
  set_get _ := rfl
  size_congr _ _ _ h := h
  ncells_setSize _ _ := rfl

inductive Ret
  | ok
  | forbid
  | inv
  deriving DecidableEq, Repr

variable {L : Type} [DecidableEq L]

/-- `_jt_rm_cell_direct`, with the cell behind the one that is freed. -/
def rmCellDirect (table : LinkedTable L) (del : L) (prev : Option L) : Option (Option L × LinkedTable L) := do
  let d ← table.mem del
  let table ← if table.first = some del then some { table with first := d.next }
    else do
      let prev ← prev
      let p ← table.mem prev
      if table.last = some del then
        some { table with last := some prev, mem := update table.mem prev (some ⟨p.val, none⟩) }
      else some { table with mem := update table.mem prev (some ⟨p.val, d.next⟩) }
  let lastCellId :=
    if table.hdr.lastCellId = d.val.hdr.id - 1 then table.hdr.lastCellId - 1 else table.hdr.lastCellId
  some (d.next, { table with
    hdr := { table.hdr with lastCellId, ncells := table.hdr.ncells - 1 }
    mem := update table.mem del none })

/-- `while (del)`, for the cells of a row or column. -/
def rmLoop (ax : Axis) (i : UInt32) : ℕ → LinkedTable L → Option L → Option L → Option (LinkedTable L)
  | 0, _, _, _ => none
  | _ + 1, table, none, _ => some table
  | fuel + 1, table, some del, prev => do
    let d ← table.mem del
    if ax.get d.val = i then
      let r ← rmCellDirect table del prev
      rmLoop ax i fuel r.2 r.1 prev
    else rmLoop ax i fuel table d.next (some del)

def Axis.remap (ax : Axis) (i : UInt32) (c : Cell) : Cell := if ax.get c > i then ax.set c (ax.get c - 1) else c

/-- `jt_rm_row` and `jt_rm_col` with `remap`. -/
def rmLine (ax : Axis) (fuel : ℕ) (table : LinkedTable L) (i : UInt32) : Option (Ret × LinkedTable L) :=
  if i > ax.size table.hdr - 1 then some (.inv, table)
  else do
    let table ← rmLoop ax i fuel table table.first table.first
    let mem ← mapLoop (ax.remap i) fuel table.mem table.first
    some (.ok, { table with mem })

def jtRmRow (fuel : ℕ) (table : LinkedTable L) (row : UInt32) : Option (Ret × LinkedTable L) :=
  rmLine rows fuel table row

def jtRmCol (fuel : ℕ) (table : LinkedTable L) (col : UInt32) : Option (Ret × LinkedTable L) :=
  rmLine cols fuel table col

/-- `for (i = ..; i <= size; i++)`, where the results of the calls are dropped. -/
def shrinkLoop (size : TableHdr → UInt32) (rm : LinkedTable L → UInt32 → Option (Ret × LinkedTable L)) :
    ℕ → LinkedTable L → UInt32 → Option (LinkedTable L)
  | 0, _, _ => none
  | fuel + 1, table, i =>
    if i ≤ size table.hdr then do
      let r ← rm table i
      shrinkLoop size rm fuel r.2 (i + 1)
    else some table

def grow (ax : Axis) (table : LinkedTable L) (new : UInt32) : LinkedTable L :=
  if ax.size table.hdr < new then { table with hdr := ax.setSize table.hdr new } else table

/-- A size above the new one is set to it, after a loop over the rows (or columns) that are too many. -/
def shrink (ax : Axis) (rm : LinkedTable L → UInt32 → Option (Ret × LinkedTable L)) (fuel : ℕ)
    (table : LinkedTable L) (new : UInt32) : Option (LinkedTable L) :=
  if ax.size table.hdr > new then do
    let table ← shrinkLoop ax.size rm fuel table (new + 1)
    some { table with hdr := ax.setSize table.hdr new }
  else some table

/-- The counter `passes` is 2 if the table grows both ways; it is not 0 if it grows in one way. -/
def jtTableSetSize (fuel : ℕ) (table : LinkedTable L) (nrows ncols : UInt32) : Option (Ret × LinkedTable L) :=
  if nrows = 0 ∨ ncols = 0 then some (.forbid, table)
  else do
    let growRows := decide (table.hdr.nrows < nrows)
    let growCols := decide (table.hdr.ncols < ncols)
    let table := grow cols (grow rows table nrows) ncols
    if growRows && growCols then some (.ok, table)
    else
      let shrinkRows := decide (table.hdr.nrows > nrows)
      let table ← shrink rows (jtRmRow fuel) fuel table nrows
      if shrinkRows && (growRows || growCols) then some (.ok, table)
      else
        let table ← shrink cols (jtRmCol fuel) fuel table ncols
        some (.ok, table)

end Model

section Spec
variable {L : Type} [DecidableEq L]

structure LinkedTable.Linked (table : LinkedTable L) (xs : List (L × Cell)) : Prop where
  trail : Trail table.mem table.first xs none
  last_eq : ∀ x ∈ xs.getLast?, table.last = some x.1
  ncells_eq : table.hdr.ncells.toNat = xs.length

/-- With enough fuel the call ends, what is left is inside the new size, what was inside is left, and `ncells` is the
length of the list. -/
def SetsSize (table : LinkedTable L) (xs : List (L × Cell)) (nrows ncols : UInt32) : Prop :=
  ∃ n, ∀ fuel ≥ n, ∃ r xs', jtTableSetSize fuel table nrows ncols = some r ∧ Trail r.2.mem r.2.first xs' none ∧
    (∀ x ∈ xs', x.2.hdr.row < nrows ∧ x.2.hdr.col < ncols) ∧
    (∀ x ∈ xs, x.2.hdr.row < nrows → x.2.hdr.col < ncols → x ∈ xs') ∧ r.2.hdr.ncells.toNat = xs'.length

/-- The rows (or columns) that the loop takes out: every second one, from the first that is not kept on but one. -/
def Removed (new old v : UInt32) : Prop := ∃ j, v.toNat = new.toNat + 1 + 2 * j ∧ new.toNat + 1 + j < old.toNat

/-- The loop to shrink `old` to `new` ends. -/
def Ends (new old : UInt32) : Prop := new < old → old.toNat ≠ 2 ^ 32 - 1

end Spec

section Loops
variable {L : Type} {table : LinkedTable L} {xs ys zs : List (L × Cell)} {ax : Axis} {i : UInt32}
  {fuel n k : ℕ} {del prev : L} {a b : Cell} {next : Option L}

def SameSize (table table' : LinkedTable L) : Prop :=
  table'.hdr.nrows = table.hdr.nrows ∧ table'.hdr.ncols = table.hdr.ncols

theorem LinkedTable.Linked.ncells_pred (h : table.Linked xs) (hne : xs ≠ []) :
    (table.hdr.ncells - 1).toNat = xs.length - 1 := by
  have hn := h.ncells_eq
  rw [toNat_sub_one (by rw [hn]; exact length_pos_iff.2 hne), hn]

theorem SameSize.trans {t1 t2 t3 : LinkedTable L} (h1 : SameSize t1 t2) (h2 : SameSize t2 t3) : SameSize t1 t3 :=
  ⟨h2.1.trans h1.1, h2.2.trans h1.2⟩

def Axis.step (ax : Axis) (i : UInt32) (c : Cell) : Option Cell :=
  if ax.get c = i then none else some (ax.remap i c)

def keep (f : Cell → Option Cell) (xs : List (L × Cell)) : List (L × Cell) :=
  xs.filterMap fun x => (f x.2).map (x.1, ·)

theorem keep_keep (f g : Cell → Option Cell) (xs : List (L × Cell)) :
    keep g (keep f xs) = keep (fun c => (f c).bind g) xs := by
  rw [keep, keep, keep, filterMap_filterMap]
  congr 1
  funext x
  cases f x.2 <;> rfl

theorem keep_step (ax : Axis) (i : UInt32) (xs : List (L × Cell)) : keep (ax.step i) xs =
    (xs.filter fun x => ax.get x.2 ≠ i).map fun x => (x.1, ax.remap i x.2) := by
  induction xs with
  | nil => rfl
  | cons x xs ih =>
    rw [keep, filterMap_cons, ← keep, ih, Axis.step]
    by_cases hhit : ax.get x.2 = i
    · simp [hhit]
    · simp [hhit]

/-- What happens to a cell when `k` rows are removed from the `i`th on. -/
def Axis.pass (ax : Axis) : ℕ → UInt32 → Cell → Option Cell
  | 0, _, c => some c
  | k + 1, i, c => (ax.step i c).bind (ax.pass k (i + 1))

theorem keep_some (xs : List (L × Cell)) : keep some xs = xs := filterMap_some

theorem length_keep_le (f : Cell → Option Cell) (xs : List (L × Cell)) : (keep f xs).length ≤ xs.length :=
  length_filterMap_le ..

theorem Axis.size_eq (ax : Axis) {t t' : LinkedTable L} (h : SameSize t t') : ax.size t'.hdr = ax.size t.hdr :=
  ax.size_congr _ _ h.1 h.2

variable [DecidableEq L]

theorem rmCellDirect_first (h : table.Linked ((del, b) :: zs)) (prev : Option L) :
    ∃ r, rmCellDirect table del prev = some r ∧ r.1 = r.2.first ∧ r.2.Linked zs ∧ SameSize table r.2 := by
  have hn := h.ncells_pred (by simp)
  obtain ⟨hfirst, next, hdel, hzs⟩ := h.trail
  refine ⟨_, by simp [rmCellDirect, hdel, hfirst]; rfl, rfl, ⟨h.trail.tail_update hdel _, ?_, ?_⟩, rfl, rfl⟩
  · exact fun x hx => h.last_eq x (mem_getLast?_cons hx)
  · simpa using hn

theorem rmCellDirect_inner (h : table.Linked (ys ++ (prev, a) :: (del, b) :: zs)) :
    ∃ r, rmCellDirect table del (some prev) = some r ∧ Trail r.2.mem r.1 zs none ∧
      r.2.Linked (ys ++ (prev, a) :: zs) ∧ SameSize table r.2 := by
  have hn := h.ncells_pred (by simp)
  have hnodup := h.trail.nodup
  simp only [map_append, map_cons, nodup_append, nodup_cons, mem_cons, not_or] at hnodup
  obtain ⟨-, ⟨⟨hpd, -⟩, hdzs, -⟩, hdisj⟩ := hnodup
  obtain ⟨q, hys, hq, _, hprev, hd, next, hdel, hzs⟩ := trail_append.1 h.trail
  have hfirst : table.first ≠ some del := by
    cases ys with
    | nil =>
      rw [show table.first = some prev from hys.trans hq]
      simpa using hpd
    | cons y ys =>
      rw [hys.1]
      simpa using hdisj y.1 (by simp) del (by simp)
  have htrail := h.trail.unlink hdel
  have hrest : Trail (update (update table.mem prev (some ⟨a, next⟩)) del none) next zs none := by
    obtain ⟨_, -, -, _, hp, hzs'⟩ := trail_append.1 htrail
    rw [update_of_ne hpd] at hp
    obtain rfl : next = _ := by simpa using hp
    exact hzs'
  have hlen : (table.hdr.ncells - 1).toNat = (ys ++ (prev, a) :: zs).length := by
    simpa using hn
  cases zs with
  | nil =>
    obtain rfl : next = none := hzs
    have hlast : table.last = some del := h.last_eq (del, b) (by simp)
    simp only [rmCellDirect, hdel, hprev, hfirst, hlast, bind_eq_bind, bind_some, if_false, if_true]
    exact ⟨_, rfl, hrest, ⟨htrail, by simp, hlen⟩, rfl, rfl⟩
  | cons z zs =>
    have hlast : table.last ≠ some del := by
      obtain ⟨x, hx⟩ : ∃ x, (z :: zs).getLast? = some x := ⟨_, getLast?_cons⟩
      rw [h.last_eq x (by simpa using hx)]
      intro heq
      exact hdzs (some.inj heq ▸ mem_map_of_mem (mem_of_getLast? hx))
    simp only [rmCellDirect, hdel, hprev, hfirst, hlast, bind_eq_bind, bind_some, if_false]
    exact ⟨_, rfl, hrest, ⟨htrail, fun x hx => h.last_eq x (by simpa using hx), hlen⟩, rfl, rfl⟩

theorem rmLoop_linked (ax : Axis) (i : UInt32) {p q : Option L} (h : table.Linked (ys ++ zs))
    (hp : Trail table.mem p zs none) (hq : ∀ x ∈ ys.getLast?, q = some x.1) (hfuel : zs.length < fuel) :
    ∃ t, rmLoop ax i fuel table p q = some t ∧ t.Linked (ys ++ zs.filter fun x => ax.get x.2 ≠ i) ∧
      SameSize table t := by
  induction zs generalizing ys table fuel p q with
  | nil =>
    obtain ⟨fuel, rfl⟩ := Nat.exists_eq_succ_of_ne_zero (Nat.ne_zero_of_lt hfuel)
    obtain rfl : p = none := hp
    exact ⟨table, rfl, h, rfl, rfl⟩
  | cons z zs ih =>
    obtain ⟨fuel, rfl⟩ := Nat.exists_eq_succ_of_ne_zero (Nat.ne_zero_of_lt hfuel)
    have hfuel' := Nat.lt_of_succ_lt_succ hfuel
    obtain ⟨d, b⟩ := z
    obtain ⟨rfl, next, hd, hzs⟩ := hp
    by_cases hhit : ax.get b = i
    · have hfilter : ((d, b) :: zs).filter (fun x => ax.get x.2 ≠ i) = zs.filter fun x => ax.get x.2 ≠ i := by
        simp [hhit]
      obtain ⟨r, hr, hp', hlinked, hq', hsame⟩ : ∃ r, rmCellDirect table d q = some r ∧ Trail r.2.mem r.1 zs none ∧
          r.2.Linked (ys ++ zs) ∧ (∀ x ∈ ys.getLast?, q = some x.1) ∧ SameSize table r.2 := by
        rcases eq_nil_or_concat ys with rfl | ⟨ys, ⟨e, a⟩, rfl⟩
        · obtain ⟨r, hr, hfirst, hlinked, hsame⟩ := rmCellDirect_first h q
          exact ⟨r, hr, hfirst ▸ hlinked.trail, hlinked, by simp, hsame⟩
        · rw [concat_eq_append, append_assoc] at *
          obtain rfl : q = some e := hq (e, a) (by simp)
          obtain ⟨r, hr, hp', hlinked, hsame⟩ := rmCellDirect_inner h
          exact ⟨r, hr, hp', hlinked, by simp, hsame⟩
      obtain ⟨t, ht, hlinked', hsame'⟩ := ih hlinked hp' hq' hfuel'
      refine ⟨t, ?_, hfilter ▸ hlinked', hsame.trans hsame'⟩
      simp only [rmLoop, hd, hhit, hr, bind_eq_bind, bind_some, if_true, ht]
    · rw [← singleton_append, ← append_assoc] at h
      have hq' : ∀ x ∈ (ys ++ [(d, b)]).getLast?, some d = some x.1 := by simp
      obtain ⟨t, ht, hlinked, hsame⟩ := ih h hzs hq' hfuel'
      refine ⟨t, ?_, by simpa [hhit] using hlinked, hsame⟩
      simp only [rmLoop, hd, hhit, bind_eq_bind, bind_some, if_false]
      exact ht

theorem rmLine_linked (h : table.Linked xs) (hi : i ≤ ax.size table.hdr - 1) (hfuel : xs.length < fuel) :
    ∃ t, rmLine ax fuel table i = some (.ok, t) ∧ t.Linked (keep (ax.step i) xs) ∧ SameSize table t := by
  have h' : table.Linked ([] ++ xs) := h
  obtain ⟨t, ht, hlinked, hsame⟩ := rmLoop_linked ax i (q := table.first) h' h.trail (by simp) hfuel
  obtain ⟨m, hm, htrail, -⟩ := hlinked.trail.mapLoop (ax.remap i) (lt_of_le_of_lt (length_filter_le ..) hfuel)
  rw [keep_step]
  refine ⟨{ t with mem := m }, ?_, ⟨htrail, fun x hx => ?_, ?_⟩, hsame⟩
  · rw [rmLine, if_neg (UInt32.not_lt.2 hi)]
    simp only [ht, hm, bind_eq_bind, bind_some]
  · rw [getLast?_map, Option.mem_map] at hx
    obtain ⟨y, hy, rfl⟩ := hx
    exact hlinked.last_eq y hy
  · rw [length_map]
    exact hlinked.ncells_eq

/-- The loop from `i` on, with the size `k` above it. The last call answers `inv`. -/
theorem shrinkLoop_linked (ax : Axis) (h : table.Linked xs) (hi : 0 < i.toNat)
    (hsize : (ax.size table.hdr).toNat = i.toNat + k) (hlt : i.toNat + k + 1 < 2 ^ 32) (hfuel : xs.length < fuel)
    (hn : k + 1 < n) : ∃ t, shrinkLoop ax.size (rmLine ax fuel) n table i = some t ∧ t.Linked (keep (ax.pass k i) xs) ∧
      SameSize table t := by
  induction k generalizing i table xs n with
  | zero =>
    obtain ⟨n, rfl⟩ : ∃ m, n = m + 1 + 1 := ⟨n - 2, by omega⟩
    have hsucc : (i + 1).toNat = i.toNat + 1 := toNat_add_one (by omega)
    have heq : ax.size table.hdr = i := UInt32.toNat_inj.1 hsize
    have hinv : rmLine ax fuel table i = some (.inv, table) := by
      rw [rmLine, heq, if_pos]
      rw [gt_iff_lt, UInt32.lt_iff_toNat_lt, toNat_sub_one hi]
      omega
    have hend : ¬ i + 1 ≤ ax.size table.hdr := by
      rw [UInt32.le_iff_toNat_le]
      omega
    refine ⟨table, ?_, (keep_some xs).symm ▸ h, rfl, rfl⟩
    rw [shrinkLoop, if_pos (by rw [heq]; exact UInt32.le_refl _), hinv]
    simp only [bind_eq_bind, bind_some]
    rw [shrinkLoop, if_neg hend]
  | succ k ih =>
    obtain ⟨n, rfl⟩ := Nat.exists_eq_succ_of_ne_zero (Nat.ne_zero_of_lt hn)
    have hsucc : (i + 1).toNat = i.toNat + 1 := toNat_add_one (by omega)
    have hle : i ≤ ax.size table.hdr - 1 := by
      rw [UInt32.le_iff_toNat_le, toNat_sub_one (by omega)]
      omega
    have hle' : i ≤ ax.size table.hdr := by
      rw [UInt32.le_iff_toNat_le]
      omega
    obtain ⟨t, ht, hlinked, hsame⟩ := rmLine_linked h hle hfuel
    obtain ⟨t', ht', hlinked', hsame'⟩ := ih (i := i + 1) hlinked (by omega)
      (by rw [ax.size_eq hsame]; omega) (by omega) (lt_of_le_of_lt (length_keep_le ..) hfuel)
      (Nat.lt_of_succ_lt_succ hn)
    refine ⟨t', ?_, ?_, hsame.trans hsame'⟩
    · rw [shrinkLoop, if_pos hle', ht]
      simp only [bind_eq_bind, bind_some, ht']
    · rw [keep_keep] at hlinked'
      exact hlinked'

theorem shrinkLoop_none (h : table.Linked xs) (hsize : (ax.size table.hdr).toNat = 2 ^ 32 - 1)
    (hfuel : xs.length < fuel) : shrinkLoop ax.size (rmLine ax fuel) n table i = none := by
  induction n generalizing i table xs with
  | zero => rfl
  | succ n ih =>
    have hle : i ≤ ax.size table.hdr := by
      have hlt := i.toNat_lt
      rw [UInt32.le_iff_toNat_le]
      omega
    rw [shrinkLoop, if_pos hle]
    by_cases hi : i ≤ ax.size table.hdr - 1
    · obtain ⟨t, ht, hlinked, hsame⟩ := rmLine_linked h hi hfuel
      simp only [ht, bind_eq_bind, bind_some]
      exact ih hlinked (ax.size_eq hsame ▸ hsize) (lt_of_le_of_lt (length_keep_le ..) hfuel)
    · rw [rmLine, if_pos (UInt32.not_le.1 hi)]
      exact ih h hsize hfuel

end Loops

section Pass
variable {ax : Axis} {i new old : UInt32} {k : ℕ} {c c' : Cell}

theorem pass_of_lt (hlt : ax.get c < i) (hk : i.toNat + k < 2 ^ 32) : ax.pass k i c = some c := by
  induction k generalizing i with
  | zero => rfl
  | succ k ih =>
    have hsucc : (i + 1).toNat = i.toNat + 1 := toNat_add_one (by omega)
    have hstep : ax.step i c = some c := by
      rw [Axis.step, if_neg (by rintro rfl; exact UInt32.lt_irrefl _ hlt), Axis.remap, if_neg (UInt32.lt_asymm hlt)]
    rw [Axis.pass, hstep]
    rw [UInt32.lt_iff_toNat_lt] at hlt
    exact ih (by rw [UInt32.lt_iff_toNat_lt]; omega) (by omega)

theorem pass_of_gt (hgt : i < ax.get c) : ax.pass (k + 1) i c = ax.pass k (i + 1) (ax.set c (ax.get c - 1)) := by
  rw [Axis.pass, Axis.step, if_neg (by rintro rfl; exact UInt32.lt_irrefl _ hgt), Axis.remap, if_pos hgt, bind_some]

/-- Each round takes one from the row and adds one to the counter, so every second row is met. A cell that is not only
changes its row, and does not pass the one that is removed first. -/
theorem pass_spec (hk : i.toNat + k < 2 ^ 32) :
    (ax.pass k i c = none ↔ ∃ j < k, (ax.get c).toNat = i.toNat + 2 * j) ∧ ∀ c', ax.pass k i c = some c' →
      c' = ax.set c (ax.get c') ∧ (i.toNat ≤ (ax.get c).toNat → i.toNat ≤ (ax.get c').toNat) := by
  induction k generalizing i c with
  | zero =>
    refine ⟨by simp [Axis.pass], ?_⟩
    rintro _ ⟨⟩
    exact ⟨(ax.set_get c).symm, id⟩
  | succ k ih =>
    have hsucc : (i + 1).toNat = i.toNat + 1 := toNat_add_one (by omega)
    rcases Nat.lt_trichotomy (ax.get c).toNat i.toNat with hlt | heq | hgt
    · rw [pass_of_lt (UInt32.lt_iff_toNat_lt.2 hlt) hk]
      refine ⟨by simp; omega, ?_⟩
      rintro _ ⟨⟩
      exact ⟨(ax.set_get c).symm, id⟩
    · rw [Axis.pass, Axis.step, if_pos (UInt32.toNat_inj.1 heq)]
      exact ⟨iff_of_true rfl ⟨0, by omega, heq⟩, nofun⟩
    · obtain ⟨hnone, hsome⟩ := @ih (i + 1) (ax.set c (ax.get c - 1)) (by omega)
      rw [pass_of_gt (UInt32.lt_iff_toNat_lt.2 hgt), hnone]
      simp only [ax.get_set, ax.set_set, toNat_sub_one (v := ax.get c) (by omega)] at hsome ⊢
      refine ⟨⟨?_, ?_⟩, fun c' hc' => ⟨(hsome c' hc').1, fun _ => ?_⟩⟩
      · rintro ⟨j, hj, hv⟩
        exact ⟨j + 1, by omega, by omega⟩
      · rintro ⟨j, hj, hv⟩
        exact ⟨j - 1, by omega, by omega⟩
      · by_cases hnext : (ax.get c).toNat = i.toNat + 1
        · have hpred : (ax.get c - 1).toNat = i.toNat := by rw [toNat_sub_one (by omega), hnext, Nat.add_sub_cancel]
          rw [pass_of_lt (by rw [ax.get_set, UInt32.lt_iff_toNat_lt]; omega) (by omega)] at hc'
          rw [← Option.some.inj hc', ax.get_set, hpred]
        · have := (hsome c' hc').2 (by omega)
          omega

theorem toNat_succ (h : new.toNat < old.toNat) : (new + 1).toNat = new.toNat + 1 :=
  toNat_add_one (Nat.lt_of_le_of_lt h old.toNat_lt)

def Axis.cut (ax : Axis) (new old : UInt32) : Cell → Option Cell := ax.pass (old.toNat - new.toNat - 1) (new + 1)

theorem cut_bound (new old : UInt32) : (new + 1).toNat + (old.toNat - new.toNat - 1) < 2 ^ 32 := by
  have hnew := (new + 1).toNat_lt
  have hold := old.toNat_lt
  rcases Nat.lt_or_ge new.toNat old.toNat with hlt | hge
  · rw [toNat_succ hlt]
    omega
  · omega

theorem set_of_cut (hc : ax.cut new old c = some c') : c' = ax.set c (ax.get c') :=
  ((pass_spec (cut_bound new old)).2 c' hc).1

theorem cut_of_le (hle : old ≤ new) : ax.cut new old c = some c := by
  have hk : old.toNat - new.toNat - 1 = 0 := by
    rw [UInt32.le_iff_toNat_le] at hle
    omega
  rw [Axis.cut, hk, Axis.pass]

theorem cut_eq_none_iff : ax.cut new old c = none ↔ Removed new old (ax.get c) := by
  rcases Nat.lt_or_ge new.toNat old.toNat with hlt | hge
  · rw [Axis.cut, (pass_spec (cut_bound new old)).1, toNat_succ hlt]
    constructor
    · rintro ⟨j, hj, hv⟩
      exact ⟨j, hv, by omega⟩
    · rintro ⟨j, hv, hj⟩
      exact ⟨j, by omega, hv⟩
  · rw [cut_of_le (UInt32.le_iff_toNat_le.2 hge)]
    refine iff_of_false (by simp) ?_
    rintro ⟨j, -, hj⟩
    omega

theorem cut_of_lt (hlt : ax.get c < new) : ax.cut new old c = some c := by
  rcases Nat.lt_or_ge new.toNat old.toNat with hnew | hge
  · have hsucc := toNat_succ hnew
    rw [UInt32.lt_iff_toNat_lt] at hlt
    exact pass_of_lt (by rw [UInt32.lt_iff_toNat_lt]; omega) (cut_bound new old)
  · exact cut_of_le (UInt32.le_iff_toNat_le.2 hge)

theorem lt_of_cut (hc : ax.cut new old c = some c') (hlt : ax.get c' < new) : ax.get c < new := by
  rcases Nat.lt_or_ge new.toNat old.toNat with hnew | hge
  · have hsucc := toNat_succ hnew
    have hold := old.toNat_lt
    rw [UInt32.lt_iff_toNat_lt] at hlt ⊢
    by_contra hge
    rcases Nat.lt_or_ge (ax.get c).toNat (new + 1).toNat with hv | hv
    · rw [Axis.cut, pass_of_lt (UInt32.lt_iff_toNat_lt.2 hv) (by omega)] at hc
      exact hge (some.inj hc ▸ hlt)
    · have hle := ((pass_spec (cut_bound new old)).2 c' hc).2 hv
      omega
  · rw [cut_of_le (UInt32.le_iff_toNat_le.2 hge)] at hc
    exact some.inj hc ▸ hlt

end Pass

section SetSize
variable {L : Type} {table t : LinkedTable L} {xs : List (L × Cell)} {ax : Axis}
  {new nrows ncols : UInt32} {fuel : ℕ} {hdr : TableHdr} {x : L × Cell} {old : UInt32} {c c' : Cell}

theorem LinkedTable.Linked.setSize (h : table.Linked xs) (ax : Axis) (new : UInt32) :
    LinkedTable.Linked { table with hdr := ax.setSize table.hdr new } xs :=
  ⟨h.trail, h.last_eq, (ax.ncells_setSize ..).symm ▸ h.ncells_eq⟩

theorem LinkedTable.Linked.grow (h : table.Linked xs) (ax : Axis) (new : UInt32) : (grow ax table new).Linked xs := by
  unfold Jtable.grow
  split_ifs
  · exact h.setSize ax new
  · exact h

theorem hdr_grow (table : LinkedTable L) (nrows ncols : UInt32) : (grow cols (grow rows table nrows) ncols).hdr =
    { table.hdr with
      nrows := if table.hdr.nrows < nrows then nrows else table.hdr.nrows
      ncols := if table.hdr.ncols < ncols then ncols else table.hdr.ncols } := by
  unfold grow rows cols
  split_ifs <;> rfl

def cutCells (hdr : TableHdr) (nrows ncols : UInt32) (xs : List (L × Cell)) : List (L × Cell) :=
  keep (cols.cut ncols hdr.ncols) (keep (rows.cut nrows hdr.nrows) xs)

theorem mem_cutCells : x ∈ cutCells hdr nrows ncols xs ↔
    ∃ y ∈ xs, ∃ c, rows.cut nrows hdr.nrows y.2 = some c ∧ cols.cut ncols hdr.ncols c = some x.2 ∧ y.1 = x.1 := by
  simp only [cutCells, keep, mem_filterMap, map_eq_some_iff]
  constructor
  · rintro ⟨y, ⟨z, hz, c, hc, rfl⟩, c', hc', rfl⟩
    exact ⟨z, hz, c, hc, hc', rfl⟩
  · rintro ⟨y, hy, c, hc, hc', hfst⟩
    exact ⟨(y.1, c), ⟨y, hy, c, hc, rfl⟩, x.2, hc', Prod.ext hfst rfl⟩

theorem col_of_cut_rows (h : rows.cut nrows old c = some c') : c'.hdr.col = c.hdr.col := by
  rw [set_of_cut h]
  rfl

theorem cutCells_inside_iff (hdr : TableHdr) : (∀ x ∈ cutCells hdr nrows ncols xs,
      x.2.hdr.row < nrows ∧ x.2.hdr.col < ncols) ↔
    ∀ x ∈ xs, (x.2.hdr.row < nrows ∧ x.2.hdr.col < ncols) ∨ Removed nrows hdr.nrows x.2.hdr.row ∨
      Removed ncols hdr.ncols x.2.hdr.col := by
  constructor
  · intro hinside x hx
    cases hrows : rows.cut nrows hdr.nrows x.2 with
    | none => exact .inr (.inl (cut_eq_none_iff.1 hrows))
    | some c =>
      have hcol := col_of_cut_rows hrows
      cases hcols : cols.cut ncols hdr.ncols c with
      | none => exact .inr (.inr (hcol ▸ cut_eq_none_iff.1 hcols))
      | some c' =>
        obtain ⟨hlt, hlt'⟩ := hinside (x.1, c') (mem_cutCells.2 ⟨x, hx, c, hrows, hcols, rfl⟩)
        rw [set_of_cut hcols] at hlt
        exact .inl ⟨lt_of_cut hrows hlt, hcol ▸ lt_of_cut hcols hlt'⟩
  · intro hxs x hx
    obtain ⟨y, hy, c, hrows, hcols, -⟩ := mem_cutCells.1 hx
    rcases hxs y hy with ⟨hrow, hcol'⟩ | hremoved | hremoved
    · obtain rfl : y.2 = c := some.inj ((cut_of_lt hrow).symm.trans hrows)
      obtain heq : y.2 = x.2 := some.inj ((cut_of_lt hcol').symm.trans hcols)
      exact heq ▸ ⟨hrow, hcol'⟩
    · rw [cut_eq_none_iff.2 hremoved] at hrows
      cases hrows
    · rw [← col_of_cut_rows hrows] at hremoved
      have hnone : cols.cut ncols hdr.ncols c = none := cut_eq_none_iff.2 hremoved
      cases hnone.symm.trans hcols

variable [DecidableEq L]

theorem shrink_linked (h : table.Linked xs) (hends : Ends new (ax.size table.hdr))
    (hfuel : xs.length + 2 ^ 32 + 2 ≤ fuel) : ∃ t t', shrink ax (rmLine ax fuel) fuel table new = some t ∧
      t.Linked (keep (ax.cut new (ax.size table.hdr)) xs) ∧ SameSize table t' ∧
      (t.hdr = t'.hdr ∨ t.hdr = ax.setSize t'.hdr new) := by
  unfold shrink
  split_ifs with hgt
  · have hne := hends hgt
    have hlt := (ax.size table.hdr).toNat_lt
    rw [gt_iff_lt, UInt32.lt_iff_toNat_lt] at hgt
    have hsucc := toNat_succ hgt
    obtain ⟨t, ht, hlinked, hsame⟩ := shrinkLoop_linked ax (k := (ax.size table.hdr).toNat - new.toNat - 1)
      (n := fuel) (i := new + 1) h (by omega) (by omega) (by omega) (show xs.length < fuel by omega) (by omega)
    simp only [ht, bind_eq_bind, bind_some]
    exact ⟨_, t, rfl, hlinked.setSize ax new, hsame, .inr rfl⟩
  · have hcut : ax.cut new (ax.size table.hdr) = some := funext fun c => cut_of_le (UInt32.not_lt.1 hgt)
    exact ⟨table, table, rfl, hcut ▸ (keep_some xs).symm ▸ h, ⟨rfl, rfl⟩, .inl rfl⟩

theorem shrink_none (h : table.Linked xs) (hends : ¬ Ends new (ax.size table.hdr)) (hfuel : xs.length < fuel) :
    shrink ax (rmLine ax fuel) fuel table new = none := by
  rw [Ends, Classical.not_imp, not_not] at hends
  rw [shrink, if_pos hends.1, shrinkLoop_none h hends.2 hfuel]
  rfl

theorem cut_max (ax : Axis) (new old : UInt32) : ax.cut new (if old < new then new else old) = ax.cut new old := by
  split_ifs with hlt
  · funext c
    rw [cut_of_le (UInt32.le_refl _), cut_of_le (UInt32.le_of_lt hlt)]
  · rfl

theorem ends_max (new old : UInt32) : Ends new (if old < new then new else old) ↔ Ends new old := by
  split_ifs with hlt
  · exact iff_of_true (fun h => absurd h (UInt32.lt_irrefl _)) fun h => absurd hlt (UInt32.lt_asymm h)
  · rfl

theorem ncols_of_shrink_rows (h : table.Linked xs) (hfuel : xs.length + 2 ^ 32 + 2 ≤ fuel)
    (ht : shrink rows (rmLine rows fuel) fuel table new = some t) : t.hdr.ncols = table.hdr.ncols := by
  by_cases hends : Ends new (rows.size table.hdr)
  · obtain ⟨t', t'', ht', -, hsame, hhdr⟩ := shrink_linked h hends hfuel
    obtain rfl := some.inj (ht.symm.trans ht')
    rcases hhdr with hhdr | hhdr
    · rw [hhdr, hsame.2]
    · rw [hhdr]
      exact hsame.2
  · rw [shrink_none h hends (by omega)] at ht
    cases ht

section
variable (h : table.Linked xs) (hzero : ¬ (nrows = 0 ∨ ncols = 0))
include h hzero

theorem jtTableSetSize_eq (hfuel : xs.length + 2 ^ 32 + 2 ≤ fuel) : jtTableSetSize fuel table nrows ncols =
      (shrink rows (rmLine rows fuel) fuel (grow cols (grow rows table nrows) ncols) nrows).bind fun t =>
        (shrink cols (rmLine cols fuel) fuel t ncols).map (Ret.ok, ·) := by
  have hgrown := (h.grow rows nrows).grow cols ncols
  have hhdr := hdr_grow table nrows ncols
  rw [jtTableSetSize]
  generalize grow cols (grow rows table nrows) ncols = t0 at hgrown hhdr ⊢
  have hkept : ∀ (ax : Axis) (rm : LinkedTable L → UInt32 → Option (Ret × LinkedTable L)) (t : LinkedTable L) (new),
      ax.size t.hdr = new → shrink ax rm fuel t new = some t := by
    rintro ax rm t new rfl
    rw [shrink, if_neg (UInt32.lt_irrefl _)]
  dsimp only
  split_ifs with hboth hpassed
  · simp only [Bool.and_eq_true, decide_eq_true_eq] at hboth
    have hnrows : rows.size t0.hdr = nrows := by simp [hhdr, rows, hboth.1]
    have hncols : cols.size t0.hdr = ncols := by simp [hhdr, cols, hboth.2]
    rw [hkept _ _ _ _ hnrows, bind_some, hkept _ _ _ _ hncols, map_some]
  · -- the rows shrink, so the columns have grown
    simp only [Bool.and_eq_true, Bool.or_eq_true, decide_eq_true_eq] at hpassed
    have hcols : table.hdr.ncols < ncols := by
      refine hpassed.2.resolve_left fun hlt => UInt32.lt_irrefl nrows ?_
      simpa [hhdr, hlt] using hpassed.1
    refine bind_congr fun t ht => ?_
    have hncols : cols.size t.hdr = ncols := by
      rw [show cols.size t.hdr = t.hdr.ncols from rfl, ncols_of_shrink_rows hgrown hfuel ht, hhdr]
      exact if_pos hcols
    rw [hkept _ _ _ _ hncols, map_some]
  · refine bind_congr fun t ht => ?_
    rw [map_eq_bind]
    rfl

theorem jtTableSetSize_cases (hfuel : xs.length + 2 ^ 32 + 2 ≤ fuel) :
    ((Ends nrows table.hdr.nrows ∧ Ends ncols table.hdr.ncols) ∧
      ∃ t, jtTableSetSize fuel table nrows ncols = some (.ok, t) ∧ t.Linked (cutCells table.hdr nrows ncols xs)) ∨
    ¬(Ends nrows table.hdr.nrows ∧ Ends ncols table.hdr.ncols) ∧ jtTableSetSize fuel table nrows ncols = none := by
  rw [jtTableSetSize_eq h hzero hfuel]
  have hgrown := (h.grow rows nrows).grow cols ncols
  have hhdr := hdr_grow table nrows ncols
  generalize grow cols (grow rows table nrows) ncols = t₀ at hgrown hhdr ⊢
  have hrows : Ends nrows (rows.size t₀.hdr) ↔ Ends nrows table.hdr.nrows := by
    rw [hhdr]
    exact ends_max ..
  by_cases hends : Ends nrows (rows.size t₀.hdr)
  · obtain ⟨t₁, -, ht₁, hlinked₁, -, -⟩ := shrink_linked hgrown hends hfuel
    have hncols : cols.size t₁.hdr = _ := (ncols_of_shrink_rows hgrown hfuel ht₁).trans (congrArg _ hhdr)
    have hcols : Ends ncols (cols.size t₁.hdr) ↔ Ends ncols table.hdr.ncols := by
      rw [hncols]
      exact ends_max ..
    have hlen := length_keep_le (rows.cut nrows (rows.size t₀.hdr)) xs
    rw [ht₁, bind_some, ← hrows, ← hcols]
    by_cases hends' : Ends ncols (cols.size t₁.hdr)
    · obtain ⟨t₂, -, ht₂, hlinked₂, -, -⟩ := shrink_linked hlinked₁ hends' (show _ ≤ fuel by omega)
      refine .inl ⟨⟨hends, hends'⟩, t₂, by rw [ht₂, map_some], ?_⟩
      rw [hncols, hhdr] at hlinked₂
      simp only [rows, cut_max] at hlinked₂
      exact hlinked₂
    · rw [shrink_none hlinked₁ hends' (show _ < fuel by omega), map_none]
      exact .inr ⟨fun hand => hends' hand.2, rfl⟩
  · rw [shrink_none hgrown hends (by omega), bind_none, ← hrows]
    exact .inr ⟨fun hand => hends hand.1, rfl⟩

end

/-- The size is set as it should be if and only if the loops end and every cell that is outside of the new size is in
one of the rows or columns that they take out. -/
theorem setsSize_iff (h : table.Linked xs) (nrows ncols : UInt32) : SetsSize table xs nrows ncols ↔
    ((nrows = 0 ∨ ncols = 0) ∧ xs = []) ∨
    (¬ (nrows = 0 ∨ ncols = 0) ∧ (Ends nrows table.hdr.nrows ∧ Ends ncols table.hdr.ncols) ∧
      ∀ x ∈ xs, (x.2.hdr.row < nrows ∧ x.2.hdr.col < ncols) ∨ Removed nrows table.hdr.nrows x.2.hdr.row ∨
        Removed ncols table.hdr.ncols x.2.hdr.col) := by
  constructor
  · rintro ⟨n, hn⟩
    obtain ⟨r, xs', hr, htrail, hinside, -, -⟩ := hn (max n (xs.length + 2 ^ 32 + 2)) (le_max_left ..)
    by_cases hzero : nrows = 0 ∨ ncols = 0
    · refine .inl ⟨hzero, ?_⟩
      rw [jtTableSetSize, if_pos hzero] at hr
      cases hr
      obtain rfl : xs = xs' := h.trail.unique htrail
      refine eq_nil_iff_forall_not_mem.2 fun x hx => ?_
      rcases hzero with rfl | rfl
      · exact UInt32.not_lt_zero (hinside x hx).1
      · exact UInt32.not_lt_zero (hinside x hx).2
    · rcases jtTableSetSize_cases h hzero (le_max_right n _) with ⟨hends, t, ht, hlinked⟩ | ⟨-, hnone⟩
      · obtain rfl := some.inj (ht.symm.trans hr)
        obtain rfl := hlinked.trail.unique htrail
        exact .inr ⟨hzero, hends, (cutCells_inside_iff table.hdr).1 hinside⟩
      · cases hnone.symm.trans hr
  · rintro (⟨hzero, rfl⟩ | ⟨hzero, hends, hxs⟩)
    · refine ⟨0, fun fuel _ => ⟨_, [], by rw [jtTableSetSize, if_pos hzero], h.trail, by simp, by simp, h.ncells_eq⟩⟩
    · refine ⟨xs.length + 2 ^ 32 + 2, fun fuel hfuel => ?_⟩
      obtain ⟨t, ht, hlinked⟩ := ((jtTableSetSize_cases h hzero hfuel).resolve_right (absurd hends ·.1)).2
      exact ⟨_, _, ht, hlinked.trail, (cutCells_inside_iff table.hdr).2 hxs,
        fun x hx hrow hcol => mem_cutCells.2 ⟨x, hx, x.2, cut_of_lt hrow, cut_of_lt hcol, rfl⟩, hlinked.ncells_eq⟩

def cellInRow (row : UInt32) : Cell :=
  ⟨⟨0, 0, 0, 0, row, 0, typeEmpty, 0, 0, 0, 0⟩, [], [], [], length_nil, length_nil, length_nil⟩

def oneCell (nrows row : UInt32) : LinkedTable Unit :=
  ⟨⟨0, nrows, 1, 1, 1⟩, fun _ => some ⟨cellInRow row, none⟩, some (), some ()⟩

theorem oneCell_linked (nrows row : UInt32) : (oneCell nrows row).Linked [((), cellInRow row)] :=
  ⟨⟨rfl, none, rfl, rfl⟩, fun _ _ => rfl, rfl⟩

/-- The third of three rows is taken out. -/
theorem setsSize_iff_thirdRow : SetsSize (oneCell 3 2) [((), cellInRow 2)] 1 1 := by
  refine (setsSize_iff (oneCell_linked 3 2) 1 1).2 (.inr ⟨by decide, ⟨fun _ => by decide, fun _ => by decide⟩, ?_⟩)
  intro x hx
  obtain rfl := mem_singleton.1 hx
  exact .inr (.inl ⟨0, rfl, by decide⟩)

/-- The second of two rows stays. -/
theorem not_setsSize_secondRow : ¬ SetsSize (oneCell 2 1) [((), cellInRow 1)] 1 1 := by
  rintro ⟨n, hn⟩
  obtain ⟨r, xs', hr, htrail, hinside, -, -⟩ := hn (n + 2) (Nat.le_add_right ..)
  have hrun : jtTableSetSize (n + 2) (oneCell 2 1) 1 1 = some (.ok, oneCell 1 1) := rfl
  obtain rfl := some.inj (hr.symm.trans hrun)
  obtain rfl := (oneCell_linked 1 1).trail.unique htrail
  exact absurd (hinside ((), cellInRow 1) (by simp)).1 (by decide)

end SetSize
end Prj.Jlib.Jtable
