import Prj.Jlib.JtableSize

/-!
The rows of a table with a cell that is searched for (`jt_sort_table`, `_jt_is_match` and `jt_list_rows` in
`jlib/src/jtable.c`).

The cells have addresses, since `jt_list_rows` links them by `next_array`. The rows that are listed are fewer than the
cells, so `*n` times the size of a number does not wrap around, and every allocation succeeds.
-/
namespace Prj.Jlib.Jtable
open Prj.Base List Option
open Function

section Model
variable {L : Type}

/-- A table with the addresses of its cells, in the order of the list. -/
structure Cells (L : Type) where
  hdr : TableHdr
  cell : L → Cell
  list : List L
  nodup : list.Nodup

def Cells.table (t : Cells L) : Table := ⟨t.hdr, t.list.map t.cell⟩

/-- The list of a table in memory; `c` stands for the cells of other addresses. -/
def Cells.ofLinked {table : LinkedTable L} {xs : List (L × Cell)} (h : table.Linked xs) (c : Cell) : Cells L where
  hdr := table.hdr
  cell x := ((table.mem x).map Node.val).getD c
  list := xs.map Prod.fst
  nodup := h.trail.nodup

/-- The three forms of a table have the same cells in the same order. -/
theorem Cells.table_ofLinked {table : LinkedTable L} {xs : List (L × Cell)} (h : table.Linked xs) (c : Cell) :
    (ofLinked h c).table = ⟨table.hdr, xs.map Prod.snd⟩ := by
  have hcell : ∀ x ∈ xs, ((table.mem x.1).map Node.val).getD c = x.2 := fun x hx => by
    rw [h.trail.val_of_mem hx, getD_some]
  exact congrArg (Table.mk table.hdr) ((List.map_map ..).trans (map_congr_left hcell))

def Cells.row (t : Cells L) (x : L) : UInt32 := (t.cell x).hdr.row

def Cells.col (t : Cells L) (x : L) : UInt32 := (t.cell x).hdr.col

/-- The list that `jt_sort_table` makes. -/
def Cells.sorted (t : Cells L) : List L :=
  (List.range t.hdr.nrows.toNat).flatMap fun i => (List.range t.hdr.ncols.toNat).flatMap fun j =>
    t.list.filter fun x => (t.col x).toNat = j ∧ (t.row x).toNat = i

structure Query where
  data : Blob
  comments : Blob
  fdata : Blob
  mergeDir : UInt8
  flags : UInt8

/-- A part of the cell with its length, and what is searched for. -/
def partMatches (bytes : List UInt8) (len : UInt32) (b : Blob) : Bool :=
  len = b.size ∧ (b.size ≠ 0 → bytes = b.bytes)

def jtIsMatch (q : Query) (c : Cell) : Bool :=
  (q.flags &&& 0x01 ≠ 0 → partMatches c.data c.hdr.datalen q.data) ∧
    (q.flags &&& 0x02 ≠ 0 → partMatches c.comments c.hdr.clen q.comments) ∧
    (q.flags &&& 0x04 ≠ 0 → partMatches c.fdata c.hdr.fdatalen q.fdata) ∧
    (q.flags &&& 0x08 ≠ 0 → c.hdr.mergeDir.val = q.mergeDir.toNat)

/-- `first_cell`, `last_cell`, `next_array` of every cell, and `*n`. -/
structure Found (L : Type) where
  first : Option L
  last : Option L
  nextArray : L → Option L
  n : UInt32

variable [DecidableEq L]

def Found.add (f : Found L) (x : L) : Found L :=
  let nextArray := update f.nextArray x none
  match f.first, f.last with
  | some a, some l => ⟨some a, some x, update nextArray l (some x), f.n + 1⟩
  | _, _ => ⟨some x, some x, nextArray, f.n + 1⟩

/-- The loop over the rows, with the rounds that are left and the cells from `cell` on. -/
def scanRows (rowOf : L → UInt32) (isMatch : L → Bool) : ℕ → UInt32 → List L → Found L → Found L
  | 0, _, _, f => f
  | k + 1, row, cells, f =>
    match cells.dropWhile fun x => rowOf x = row with
    | [] => f
    | x :: xs => scanRows rowOf isMatch k (row + 1) (x :: xs) (if isMatch x then f.add x else f)

/-- `row_list[row++] = cell->hdr.row` for the cells that are linked, with room for `k` more; `none` if there is no
room. What is not written stays undefined. -/
def fillRows (next : L → Option L) (rowOf : L → UInt32) : ℕ → Option L → Option (List (Option UInt32))
  | k, none => some (List.replicate k none)
  | 0, some _ => none
  | k + 1, some x => (fillRows next rowOf k (next x)).map (some (rowOf x) :: ·)

/-- The entries of the list and `*n`; no list is the empty one. `none` if `table->last_cell` is not initialised or if
the list is too short. `nextArray` is what the cells hold before. -/
def jtListRows (t : Cells L) (q : Query) (nextArray : L → Option L) : Option (List (Option UInt32) × UInt32) := do
  let last ← t.sorted.getLast?
  let f := scanRows t.row (fun x => jtIsMatch q (t.cell x)) ((t.row last).toNat + 1) 0 t.sorted
    ⟨none, none, nextArray, 0⟩
  match f.first with
  | none => some ([], f.n)
  | some _ =>
    let rows ← fillRows f.nextArray t.row f.n.toNat f.first
    some (rows, f.n)

/-- The rows with a cell that matches, once and in order, and their number. -/
def ListsRows (t : Cells L) (q : Query) (nextArray : L → Option L) : Prop :=
  ∃ (rows : List UInt32) (n : UInt32), jtListRows t q nextArray = some (rows.map some, n) ∧ n.toNat = rows.length ∧
    rows.Pairwise (· < ·) ∧
    ∀ r, r ∈ rows ↔ ∃ x ∈ t.list, t.row x = r ∧ jtIsMatch q (t.cell x) = true

end Model

section Scan
variable {L : Type} {rowOf : L → UInt32} {isMatch : L → Bool} {cells : List L} {row : UInt32} {r k : ℕ}

def after (rowOf : L → UInt32) (cells : List L) (r : ℕ) : List L := cells.filter fun x => r < (rowOf x).toNat

def tested (rowOf : L → UInt32) (isMatch : L → Bool) (cells : List L) (r : ℕ) : Option L :=
  (after rowOf cells r).head?.filter isMatch

theorem after_after (h : r ≤ k) : after rowOf (after rowOf cells r) k = after rowOf cells k := by
  rw [after, after, List.filter_filter]
  refine filter_congr fun x _ => ?_
  simp only [Bool.and_eq_decide, decide_eq_true_eq, decide_eq_decide]
  omega

theorem dropWhile_eq_after (hsorted : cells.Pairwise fun x y => (rowOf x).toNat ≤ (rowOf y).toNat)
    (hrow : ∀ x ∈ cells, row.toNat ≤ (rowOf x).toNat) :
    cells.dropWhile (fun x => rowOf x = row) = after rowOf cells row.toNat := by
  induction cells with
  | nil => rfl
  | cons x xs ih =>
    obtain ⟨hx, hxs⟩ := pairwise_cons.1 hsorted
    by_cases heq : rowOf x = row
    · have hnot : ¬ row.toNat < (rowOf x).toNat := by
        rw [heq]
        exact Nat.lt_irrefl _
      rw [dropWhile_cons, if_pos (by simpa using heq), ih hxs fun y hy => hrow y (by simp [hy]), after, after,
        filter_cons_of_neg (by simpa using hnot)]
    · have hne : (rowOf x).toNat ≠ row.toNat := fun h => heq (UInt32.toNat_inj.1 h)
      have hlt : row.toNat < (rowOf x).toNat := lt_of_le_of_ne (hrow x (by simp)) hne.symm
      have hall : ∀ y ∈ x :: xs, row.toNat < (rowOf y).toNat := by
        refine forall_mem_cons.2 ⟨hlt, fun y hy => lt_of_lt_of_le hlt (hx y hy)⟩
      rw [dropWhile_cons, if_neg (by simpa using heq), after, filter_eq_self.2 (by simpa using hall)]

variable [DecidableEq L]

theorem scanRows_eq (f : Found L) (hsorted : cells.Pairwise fun x y => (rowOf x).toNat ≤ (rowOf y).toNat)
    (hrow : ∀ x ∈ cells, row.toNat ≤ (rowOf x).toNat) (hk : row.toNat + k < 2 ^ 32) :
    scanRows rowOf isMatch k row cells f =
      ((List.range' row.toNat k).filterMap (tested rowOf isMatch cells)).foldl Found.add f := by
  induction k generalizing row cells f with
  | zero => rfl
  | succ k ih =>
    have hsucc : (row + 1).toNat = row.toNat + 1 := by
      exact Nat.mod_eq_of_lt (by simp; omega)
    have hdrop := dropWhile_eq_after hsorted hrow
    cases hafter : after rowOf cells row.toNat with
    | nil =>
      have hnone : ∀ r ∈ List.range' row.toNat (k + 1), tested rowOf isMatch cells r = none := by
        intro r hr
        have hle : row.toNat ≤ r := (mem_range'_1.1 hr).1
        rw [tested, ← after_after hle, hafter]
        rfl
      rw [filterMap_eq_nil_iff.2 hnone]
      simp only [scanRows, hdrop, hafter, foldl_nil]
    | cons x xs =>
      have hsorted' : (x :: xs).Pairwise fun x y => (rowOf x).toNat ≤ (rowOf y).toNat := hafter ▸ hsorted.filter _
      have hrow' : ∀ y ∈ x :: xs, (row + 1).toNat ≤ (rowOf y).toNat := by
        intro y hy
        rw [← hafter, after, mem_filter] at hy
        have hlt : row.toNat < (rowOf y).toNat := by simpa using hy.2
        omega
      have hrest : (List.range' (row + 1).toNat k).filterMap (tested rowOf isMatch (x :: xs)) =
          (List.range' (row.toNat + 1) k).filterMap (tested rowOf isMatch cells) := by
        rw [hsucc]
        refine filterMap_congr fun r hr => ?_
        rw [tested, tested, ← hafter, after_after (by have := (mem_range'_1.1 hr).1; omega)]
      have hhead : tested rowOf isMatch cells row.toNat = if isMatch x then some x else none := by
        rw [tested, hafter]
        rfl
      simp only [scanRows, hdrop, hafter]
      rw [ih _ hsorted' hrow' (by omega), hrest, range'_succ, filterMap_cons, hhead]
      split_ifs <;> rfl

end Scan

section Links
variable {L : Type} [DecidableEq L] {next : L → Option L} {rowOf : L → UInt32} {p : Option L} {k : ℕ} {f : Found L}
  {xs ys : List L}

omit [DecidableEq L] in
theorem fillRows_eq_some_iff {rows : List UInt32} : fillRows next rowOf k p = some (rows.map some) ↔
    ∃ xs, Chain next p xs ∧ xs.length = k ∧ xs.map rowOf = rows := by
  induction k generalizing p rows with
  | zero =>
    cases p with
    | none =>
      rw [fillRows, replicate_zero, some_inj, nil_eq, map_eq_nil_iff]
      constructor
      · rintro rfl
        exact ⟨[], rfl, rfl, rfl⟩
      · rintro ⟨xs, -, hlen, rfl⟩
        rw [length_eq_zero_iff.1 hlen, map_nil]
    | some x =>
      refine iff_of_false (by simp [fillRows]) ?_
      rintro ⟨xs, hchain, hlen, -⟩
      rw [length_eq_zero_iff.1 hlen] at hchain
      cases hchain
  | succ k ih =>
    cases p with
    | none =>
      refine iff_of_false ?_ ?_
      · cases rows <;> simp [fillRows, replicate_succ]
      · rintro ⟨xs, hchain, hlen, -⟩
        cases xs with
        | nil => cases hlen
        | cons x xs => cases hchain.1
    | some x =>
      rw [fillRows, map_eq_some_iff]
      constructor
      · rintro ⟨rest, hrest, heq⟩
        cases rows with
        | nil => cases heq
        | cons r rows =>
          obtain ⟨hr, rfl⟩ := List.cons.inj heq
          obtain ⟨xs, hchain, hlen, hmap⟩ := ih.1 hrest
          exact ⟨x :: xs, ⟨rfl, hchain⟩, by rw [length_cons, hlen], by rw [map_cons, hmap, some.inj hr]⟩
      · rintro ⟨xs, hchain, hlen, rfl⟩
        cases xs with
        | nil => cases hlen
        | cons y xs =>
          obtain ⟨heq, hchain⟩ := hchain
          cases heq
          exact ⟨_, ih.2 ⟨xs, hchain, Nat.succ.inj hlen, rfl⟩, rfl⟩

/-- What is known of the links after the cells `xs` have been added. -/
structure Found.Linked (f : Found L) (xs : List L) : Prop where
  n_eq : f.n = .ofNat xs.length
  first_eq : f.first = xs.head?
  last_eq : f.last = xs.getLast?
  next_mem : ∀ x ∈ xs, ∀ y, f.nextArray x = some y → y ∈ xs
  chain : xs.Nodup → Chain f.nextArray f.first xs

theorem Found.Linked.add (h : f.Linked xs) (x : L) : (f.add x).Linked (xs ++ [x]) := by
  have hn : f.n + 1 = .ofNat (xs ++ [x]).length := by
    rw [h.n_eq, length_append, UInt32.ofNat_add]
    rfl
  rcases eq_nil_or_concat xs with rfl | ⟨ys, l, rfl⟩
  · have hadd : f.add x = ⟨some x, some x, update f.nextArray x none, f.n + 1⟩ := by
      rw [Found.add, h.first_eq]
      rfl
    rw [hadd]
    refine ⟨hn, rfl, rfl, ?_, fun _ => by simp⟩
    simp
  · rw [concat_eq_append] at *
    obtain ⟨a, ha⟩ : ∃ a, (ys ++ [l]).head? = some a := by
      cases ys <;> exact ⟨_, rfl⟩
    have hadd : f.add x = ⟨some a, some x, update (update f.nextArray x none) l (some x), f.n + 1⟩ := by
      rw [Found.add, h.first_eq, h.last_eq, ha]
      simp
    rw [hadd]
    refine ⟨hn, ?_, by simp, ?_, fun hnodup => ?_⟩
    · rw [head?_append, ha]
      rfl
    · intro y hy z hz
      dsimp only at hz
      by_cases hyl : y = l
      · subst hyl
        rw [update_self, some_inj] at hz
        simp [hz]
      · rw [update_of_ne hyl] at hz
        by_cases hyx : y = x
        · rw [hyx, update_self] at hz
          cases hz
        · rw [update_of_ne hyx] at hz
          have hmem : y ∈ ys ++ [l] := by simpa [hyx] using hy
          exact mem_append_left _ (h.next_mem y hmem z hz)
    · rw [nodup_append] at hnodup
      have hx : x ∉ ys ++ [l] := fun hmem => hnodup.2.2 x hmem x (by simp) rfl
      have hchain := (h.chain hnodup.1).snoc hx
      rw [h.first_eq, ha] at hchain
      simpa using hchain

theorem linked_foldl_add (nextArray : L → Option L) (xs : List L) :
    (xs.foldl Found.add ⟨none, none, nextArray, 0⟩).Linked xs := by
  induction xs using List.reverseRecOn with
  | nil => exact ⟨rfl, rfl, rfl, by simp, fun _ => rfl⟩
  | append_singleton xs x ih =>
    rw [foldl_append]
    exact ih.add x

omit [DecidableEq L] in
theorem chain_subset (hnext : ∀ x ∈ xs, ∀ y, next x = some y → y ∈ xs) (hp : ∀ x ∈ p, x ∈ xs)
    (hchain : Chain next p ys) : ys ⊆ xs := by
  induction ys generalizing p with
  | nil => exact nil_subset _
  | cons y ys ih =>
    obtain ⟨rfl, hchain⟩ := hchain
    have hy : y ∈ xs := hp y rfl
    exact cons_subset.2 ⟨hy, ih (fun z hz => hnext y hy z hz) hchain⟩

omit [DecidableEq L] in
theorem Found.Linked.fillRows_iff {rows : List UInt32} (h : f.Linked xs)
    (hlt : xs.length < 2 ^ 32) : fillRows f.nextArray rowOf f.n.toNat f.first = some (rows.map some) ↔
      xs.Nodup ∧ xs.map rowOf = rows := by
  have hn : f.n.toNat = xs.length := by
    rw [h.n_eq]
    exact UInt32.toNat_ofNat_of_lt' hlt
  rw [fillRows_eq_some_iff, hn]
  constructor
  · rintro ⟨ys, hchain, hlen, hmap⟩
    have hsubset : ys ⊆ xs :=
      chain_subset h.next_mem (by rw [h.first_eq]; exact fun x hx => mem_of_head? hx) hchain
    have hperm : ys.Perm xs := (hchain.nodup.subperm hsubset).perm_of_length_le hlen.ge
    have hnodup : xs.Nodup := hperm.nodup_iff.1 hchain.nodup
    exact ⟨hnodup, hchain.unique (h.chain hnodup) ▸ hmap⟩
  · rintro ⟨hnodup, hmap⟩
    exact ⟨xs, h.chain hnodup, rfl, hmap⟩

end Links

section Rows
variable {L : Type} (t : Cells L) (q : Query) {x last : L} {r m : UInt32} {k : ℕ}

theorem mem_sorted : x ∈ t.sorted ↔
    x ∈ t.list ∧ (t.row x).toNat < t.hdr.nrows.toNat ∧ (t.col x).toNat < t.hdr.ncols.toNat := by
  simp only [Cells.sorted, mem_flatMap, mem_range, mem_filter, decide_eq_true_eq]
  constructor
  · rintro ⟨i, hi, j, hj, hx, rfl, rfl⟩
    exact ⟨hx, hi, hj⟩
  · rintro ⟨hx, hrow, hcol⟩
    exact ⟨_, hrow, _, hcol, hx, rfl, rfl⟩

theorem sorted_pairwise_lex : t.sorted.Pairwise fun x y => (t.row x).toNat < (t.row y).toNat ∨
    (t.row x).toNat = (t.row y).toNat ∧
      ((t.col x).toNat < (t.col y).toNat ∨ (t.col x).toNat = (t.col y).toNat ∧ x ≠ y) := by
  refine pairwise_flatMap.2 ⟨fun i _ => pairwise_flatMap.2 ⟨fun j _ => ?_, ?_⟩, ?_⟩
  · refine (t.nodup.filter _).pairwise_of_forall_ne fun x hx y hy hne => ?_
    simp only [mem_filter, decide_eq_true_eq] at hx hy
    exact .inr ⟨by omega, .inr ⟨by omega, hne⟩⟩
  · refine pairwise_lt_range.imp fun hlt x hx y hy => ?_
    simp only [mem_filter, decide_eq_true_eq] at hx hy
    exact .inr ⟨by omega, .inl (by omega)⟩
  · refine pairwise_lt_range.imp fun hlt x hx y hy => ?_
    simp only [mem_flatMap, mem_filter, decide_eq_true_eq] at hx hy
    exact .inl (by omega)

theorem sorted_pairwise : t.sorted.Pairwise fun x y => (t.row x).toNat ≤ (t.row y).toNat :=
  (sorted_pairwise_lex t).imp fun h => h.elim Nat.le_of_lt fun h => Nat.le_of_eq h.1

def Cells.firstOf (r : UInt32) : Option L := t.sorted.find? fun x => t.row x = r

theorem head?_after_iff : (after t.row t.sorted k).head? = some x ↔ t.firstOf (t.row x) = some x ∧ k < (t.row x).toNat ∧
      ∀ y ∈ t.sorted, k < (t.row y).toNat → (t.row x).toNat ≤ (t.row y).toNat := by
  have hsorted := sorted_pairwise t
  rw [after, head?_filter, Cells.firstOf, find?_eq_some_iff_append, find?_eq_some_iff_append]
  simp only [decide_eq_true_eq, Bool.not_eq_eq_eq_not, Bool.not_true, decide_eq_false_iff_not, true_and]
  constructor
  · rintro ⟨hk, as, bs, heq, has⟩
    rw [heq] at hsorted ⊢
    obtain ⟨-, hbs, -⟩ := pairwise_append.1 hsorted
    refine ⟨⟨as, bs, rfl, fun a ha hrow => has a ha (hrow ▸ hk)⟩, hk, fun y hy hky => ?_⟩
    rcases mem_append.1 hy with hy | hy
    · exact absurd hky (has y hy)
    · rcases mem_cons.1 hy with rfl | hy
      · exact le_rfl
      · exact (pairwise_cons.1 hbs).1 y hy
  · rintro ⟨⟨as, bs, heq, has⟩, hk, hmin⟩
    rw [heq] at hsorted hmin
    obtain ⟨-, -, hcross⟩ := pairwise_append.1 hsorted
    refine ⟨hk, as, bs, heq, fun a ha hka => has a ha (UInt32.toNat_inj.1 (le_antisymm ?_ ?_))⟩
    · exact hcross a ha x (by simp)
    · exact hmin a (by simp [ha]) hka

/-- The row is behind the first, and its first cell matches. -/
def TestsRow (r : UInt32) : Prop := r ≠ 0 ∧ ∃ x, t.firstOf r = some x ∧ jtIsMatch q (t.cell x) = true

def added (n : ℕ) : List L :=
  (List.range (n + 1)).filterMap (tested t.row (fun x => jtIsMatch q (t.cell x)) t.sorted)

theorem tested_eq_some_iff : tested t.row (fun x => jtIsMatch q (t.cell x)) t.sorted k = some x ↔
      (t.firstOf (t.row x) = some x ∧ k < (t.row x).toNat ∧
        ∀ y ∈ t.sorted, k < (t.row y).toNat → (t.row x).toNat ≤ (t.row y).toNat) ∧ jtIsMatch q (t.cell x) = true := by
  rw [tested, filter_eq_some_iff, head?_after_iff]

theorem row_of_firstOf (h : t.firstOf r = some x) : t.row x = r ∧ x ∈ t.sorted := by
  refine ⟨?_, mem_of_find?_eq_some h⟩
  simpa using find?_some h

variable {t q} {n : ℕ}

theorem mem_map_row_added (hn : ∀ x ∈ t.sorted, (t.row x).toNat ≤ n) :
    r ∈ (added t q n).map t.row ↔ TestsRow t q r := by
  rw [List.mem_map]
  constructor
  · rintro ⟨x, hx, rfl⟩
    obtain ⟨k, -, hk⟩ := mem_filterMap.1 hx
    obtain ⟨⟨hfirst, hlt, -⟩, hmatch⟩ := (tested_eq_some_iff t q).1 hk
    refine ⟨fun hzero => ?_, x, hfirst, hmatch⟩
    rw [hzero] at hlt
    exact Nat.not_lt_zero _ hlt
  · rintro ⟨hr, x, hfirst, hmatch⟩
    obtain ⟨hrow, hmem⟩ := row_of_firstOf t hfirst
    have hpos : 0 < r.toNat := Nat.pos_of_ne_zero fun h => hr (UInt32.toNat_inj.1 h)
    have hle := hn x hmem
    rw [hrow] at hle
    refine ⟨x, mem_filterMap.2 ⟨r.toNat - 1, mem_range.2 (by omega), ?_⟩, hrow⟩
    refine (tested_eq_some_iff t q).2 ⟨⟨by rwa [hrow], by rw [hrow]; omega, fun y _ hy => ?_⟩, hmatch⟩
    rw [hrow]
    omega

/-- A row that is tested and is not the second one has a row before it. -/
def RowBefore (t : Cells L) (q : Query) : Prop :=
  ∀ r, TestsRow t q r → r = 1 ∨ ∃ y ∈ t.sorted, (t.row y).toNat + 1 = r.toNat

theorem pairwise_added (h : RowBefore t q) : (added t q n).Pairwise fun x y => t.row x < t.row y := by
  refine pairwise_filterMap.2 (pairwise_lt_range.imp fun {k k'} hlt x hx y hy => ?_)
  obtain ⟨⟨hfirst, hkx, hmin⟩, hmatch⟩ := (tested_eq_some_iff t q).1 hx
  obtain ⟨⟨hfirst', hky, -⟩, hmatch'⟩ := (tested_eq_some_iff t q).1 hy
  rw [UInt32.lt_iff_toNat_lt]
  by_contra hge
  have hxy : t.row x = t.row y := by
    refine UInt32.toNat_inj.1 (le_antisymm (hmin y (row_of_firstOf t hfirst').2 (by omega)) (by omega))
  have hne : t.row x ≠ 0 := fun hzero => by
    rw [hzero] at hkx
    exact Nat.not_lt_zero _ hkx
  -- the row of `x` is tested in the rounds `k` and `k'`, so there is none between
  rcases h (t.row x) ⟨hne, x, hfirst, hmatch⟩ with hone | ⟨z, hz, hzrow⟩
  · rw [← hxy, hone] at hky
    have hky' : k' < 1 := hky
    omega
  · have hle := hmin z hz (by omega)
    omega

theorem rowBefore_of_nodup (hn : ∀ x ∈ t.sorted, (t.row x).toNat ≤ n) (h : (added t q n).Nodup) : RowBefore t q := by
  rintro r ⟨hr, x, hfirst, hmatch⟩
  obtain ⟨hrow, hmem⟩ := row_of_firstOf t hfirst
  have hpos : 0 < r.toNat := Nat.pos_of_ne_zero fun h => hr (UInt32.toNat_inj.1 h)
  have hle := hn x hmem
  rw [hrow] at hle
  by_contra hbefore
  rw [not_or, not_exists] at hbefore
  obtain ⟨hone, hbefore⟩ := hbefore
  have hne : r.toNat ≠ 1 := fun h => hone (UInt32.toNat_inj.1 h)
  have htested : ∀ k, r.toNat - 2 ≤ k → k < r.toNat →
      tested t.row (fun x => jtIsMatch q (t.cell x)) t.sorted k = some x := by
    intro k hk hkr
    refine (tested_eq_some_iff t q).2 ⟨⟨by rwa [hrow], by rwa [hrow], fun y hy hky => ?_⟩, hmatch⟩
    have hy' : (t.row y).toNat + 1 ≠ r.toNat := fun heq => hbefore y ⟨hy, heq⟩
    rw [hrow]
    omega
  have hpairwise := pairwise_iff_getElem.1 (pairwise_filterMap.1 h) (r.toNat - 2) (r.toNat - 1)
    (by rw [length_range]; omega) (by rw [length_range]; omega) (by omega)
  simp only [getElem_range] at hpairwise
  exact hpairwise x (htested _ le_rfl (by omega)) x (htested _ (by omega) (by omega)) rfl

theorem length_added_lt (hlast : t.sorted.getLast? = some last) : (added t q (t.row last).toNat).length < 2 ^ 32 := by
  have hlt : (t.row last).toNat < t.hdr.nrows.toNat := ((mem_sorted t).1 (mem_of_getLast? hlast)).2.1
  have htop := t.hdr.nrows.toNat_lt
  have hle : (added t q (t.row last).toNat).length ≤ (List.range ((t.row last).toNat + 1)).length :=
    length_filterMap_le ..
  rw [length_range] at hle
  omega

variable [DecidableEq L] {nextArray : L → Option L}

theorem jtListRows_eq_some_iff {rows : List UInt32} :
    jtListRows t q nextArray = some (rows.map some, m) ↔ ∃ last, t.sorted.getLast? = some last ∧
      (added t q (t.row last).toNat).Nodup ∧ (added t q (t.row last).toNat).map t.row = rows ∧
      m = .ofNat (added t q (t.row last).toNat).length := by
  rw [jtListRows]
  cases hlast : t.sorted.getLast? with
  | none => simp
  | some last =>
    have hlt : (t.row last).toNat < t.hdr.nrows.toNat :=
      ((mem_sorted t).1 (mem_of_getLast? hlast)).2.1
    have htop := t.hdr.nrows.toNat_lt
    have hscan : scanRows t.row (fun x => jtIsMatch q (t.cell x)) ((t.row last).toNat + 1) 0 t.sorted
        ⟨none, none, nextArray, 0⟩ = (added t q (t.row last).toNat).foldl Found.add ⟨none, none, nextArray, 0⟩ := by
      rw [scanRows_eq _ (sorted_pairwise t) (by simp) (by simp; omega), added, range_eq_range']
      rfl
    have hlinked := linked_foldl_add nextArray (added t q (t.row last).toNat)
    have hlen : (added t q (t.row last).toNat).length < 2 ^ 32 := length_added_lt hlast
    simp only [bind_eq_bind, bind_some, hscan, some_inj, exists_eq_left']
    generalize (added t q (t.row last).toNat).foldl Found.add ⟨none, none, nextArray, 0⟩ = f at hlinked ⊢
    rw [← hlinked.n_eq, ← and_assoc, ← hlinked.fillRows_iff hlen]
    cases hfirst : f.first with
    | none =>
      have hnil : added t q (t.row last).toNat = [] := head?_eq_none_iff.1 (hlinked.first_eq ▸ hfirst)
      have hn : f.n = 0 := by
        rw [hlinked.n_eq, hnil]
        rfl
      simp only [hn, fillRows, some_inj, Prod.mk.injEq, UInt32.toNat_zero, replicate_zero]
      exact and_congr_right fun _ => eq_comm
    | some a =>
      simp only [bind_eq_some_iff, some_inj, Prod.mk.injEq]
      constructor
      · rintro ⟨rows', hrows, rfl, rfl⟩
        exact ⟨hrows, rfl⟩
      · rintro ⟨hrows, rfl⟩
        exact ⟨_, hrows, rfl, rfl⟩

/-- The right rows are listed if and only if some cell is inside of the table, the rows with a match are those behind
the first one whose first cell matches, and each of these but the second row has a row with cells before it. -/
theorem listsRows_iff (t : Cells L) (q : Query) (nextArray : L → Option L) : ListsRows t q nextArray ↔
    t.sorted ≠ [] ∧ RowBefore t q ∧
      ∀ r, (∃ x ∈ t.list, t.row x = r ∧ jtIsMatch q (t.cell x) = true) ↔ TestsRow t q r := by
  have hle : ∀ last, t.sorted.getLast? = some last → ∀ x ∈ t.sorted, (t.row x).toNat ≤ (t.row last).toNat := by
    intro last hlast x hx
    obtain ⟨xs, hxs⟩ := getLast?_eq_some_iff.1 hlast
    have hsorted := sorted_pairwise t
    rw [hxs] at hsorted hx
    rcases mem_append.1 hx with hx | hx
    · exact (pairwise_append.1 hsorted).2.2 x hx last (by simp)
    · rw [mem_singleton.1 hx]
  constructor
  · rintro ⟨rows, m, hrows, -, -, hmem⟩
    obtain ⟨last, hlast, hnodup, rfl, -⟩ := jtListRows_eq_some_iff.1 hrows
    refine ⟨fun hnil => by simp [hnil] at hlast, rowBefore_of_nodup (hle last hlast) hnodup, fun r => ?_⟩
    rw [← hmem, mem_map_row_added (hle last hlast)]
  · rintro ⟨hne, hbefore, hmem⟩
    have hlast : t.sorted.getLast? = some (t.sorted.getLast hne) := getLast?_eq_some_getLast hne
    have hpairwise := pairwise_added (n := (t.row (t.sorted.getLast hne)).toNat) hbefore
    have hnodup := hpairwise.imp fun {x y} hlt (heq : x = y) => UInt32.lt_irrefl _ (heq ▸ hlt)
    refine ⟨_, _, jtListRows_eq_some_iff.2 ⟨_, hlast, hnodup, rfl, rfl⟩, ?_, pairwise_map.2 hpairwise, fun r => ?_⟩
    · rw [length_map]
      exact UInt32.toNat_ofNat_of_lt' (length_added_lt hlast)
    · rw [hmem, mem_map_row_added (hle _ hlast)]

def singleCell : Cells Unit where
  hdr := ⟨0, 1, 1, 1, 1⟩
  cell _ := ⟨⟨0, 0, 0, 0, 0, 0, typeEmpty, 0, 0, 0, 0⟩, [], [], [], length_nil, length_nil, length_nil⟩
  list := [()]
  nodup := by decide

def anyCell : Query := ⟨noBytes, noBytes, noBytes, 0, 0⟩

/-- The first row is not tested. -/
theorem not_listsRows_firstRow : ¬ ListsRows singleCell anyCell fun _ => none := by
  rintro ⟨rows, n, hrows, -, -, hmem⟩
  have hrun : jtListRows singleCell anyCell (fun _ => none) = some ([], 0) := by decide
  rw [hrun, some_inj, Prod.mk.injEq, nil_eq, map_eq_nil_iff] at hrows
  have hzero : (0 : UInt32) ∈ rows := (hmem 0).2 ⟨(), by simp [singleCell], rfl, by decide⟩
  rw [hrows.1] at hzero
  cases hzero

end Rows

variable {L : Type} [DecidableEq L] {t : Cells L} {nextArray : L → Option L}

def linkCells (t : Cells L) (f : Found L) : Found L :=
  (List.range t.hdr.nrows.toNat).foldl (fun f i => (List.range t.hdr.ncols.toNat).foldl (fun f j =>
    t.list.foldl (fun f x => if (t.col x).toNat = j ∧ (t.row x).toNat = i then f.add x else f) f) f) f

/-- `for (entry = cell_first; entry; entry = entry->next_array) entry->next = entry->next_array;` -/
def copyLinks (nextArray : L → Option L) : ℕ → Option L → (L → Option L) → Option (L → Option L)
  | _, none, next => some next
  | 0, some _, _ => none
  | fuel + 1, some x, next => copyLinks nextArray fuel (nextArray x) (update next x (nextArray x))

/-- `first_cell`, `last_cell`, which is not initialised if no cell is found, and `next` of every cell. -/
def Cells.jtSortTable (t : Cells L) (fuel : ℕ) (nextArray next : L → Option L) :
    Option (Option L × Option L × (L → Option L)) := do
  let f := linkCells t ⟨none, none, nextArray, 0⟩
  let next ← copyLinks f.nextArray fuel f.first next
  some (f.first, f.last, next)

def Cells.Before (t : Cells L) (x y : L) : Prop := t.row x < t.row y ∨ t.row x = t.row y ∧ t.col x < t.col y

/-- The cells are linked from `first_cell` to `last_cell` in the order of their rows and columns. -/
def Sorts (t : Cells L) (nextArray next : L → Option L) : Prop :=
  ∃ n ys first last, ys.Perm t.list ∧ ys.Pairwise t.Before ∧ ys.head? = some first ∧ ys.getLast? = some last ∧
    ∀ fuel ≥ n, ∃ next', t.jtSortTable fuel nextArray next = some (some first, some last, next') ∧
      Chain next' (some first) ys

theorem linkCells_eq (f : Found L) : linkCells t f = t.sorted.foldl Found.add f := by
  simp only [linkCells, Cells.sorted, foldl_flatMap, foldl_filter, decide_eq_true_eq]

theorem copyLinks_eq (next : L → Option L) {p : Option L} {xs : List L} {fuel : ℕ} (h : Chain nextArray p xs)
    (hfuel : xs.length ≤ fuel) :
    ∃ next', copyLinks nextArray fuel p next = some next' ∧ ∀ x, next' x = if x ∈ xs then nextArray x else next x := by
  induction xs generalizing p next fuel with
  | nil =>
    obtain rfl : p = none := h
    exact ⟨next, by rw [copyLinks], fun _ => rfl⟩
  | cons x xs ih =>
    obtain ⟨fuel, rfl⟩ := Nat.exists_eq_succ_of_ne_zero (Nat.ne_zero_of_lt hfuel)
    obtain ⟨rfl, h⟩ := h
    obtain ⟨next', hrun, hnext⟩ := ih (update next x (nextArray x)) h (Nat.le_of_succ_le_succ hfuel)
    refine ⟨next', hrun, fun y => ?_⟩
    rw [hnext]
    by_cases hy : y = x
    · subst hy
      simp
    · simp [hy]

omit [DecidableEq L] in
theorem pairwise_sorted (hplace : ∀ x ∈ t.list, ∀ y ∈ t.list, t.row x = t.row y → t.col x = t.col y → x = y) :
    t.sorted.Pairwise t.Before := by
  refine (sorted_pairwise_lex t).imp_of_mem fun {x y} hx hy h => ?_
  rcases h with h | ⟨hrow, h | ⟨hcol, hne⟩⟩
  · exact .inl h
  · exact .inr ⟨UInt32.toNat_inj.1 hrow, h⟩
  · refine absurd (hplace x ((mem_sorted t).1 hx).1 y ((mem_sorted t).1 hy).1 ?_ ?_) hne
    · exact UInt32.toNat_inj.1 hrow
    · exact UInt32.toNat_inj.1 hcol

/-- A table with cells at different places inside its size is sorted. -/
theorem jtSortTable_sorts (t : Cells L) (nextArray next : L → Option L) (hne : t.list ≠ [])
    (hin : ∀ x ∈ t.list, t.row x < t.hdr.nrows ∧ t.col x < t.hdr.ncols)
    (hplace : ∀ x ∈ t.list, ∀ y ∈ t.list, t.row x = t.row y → t.col x = t.col y → x = y) :
    Sorts t nextArray next := by
  have hbefore := pairwise_sorted hplace
  have hnodup : t.sorted.Nodup := hbefore.imp fun h heq =>
    (heq ▸ h).elim (UInt32.lt_irrefl _) fun h => UInt32.lt_irrefl _ h.2
  have hperm : t.sorted.Perm t.list := (perm_ext_iff_of_nodup hnodup t.nodup).2 fun x =>
    ⟨fun hx => ((mem_sorted t).1 hx).1, fun hx => (mem_sorted t).2 ⟨hx, hin x hx⟩⟩
  have hne' : t.sorted ≠ [] := fun hnil => hne (hnil ▸ hperm).nil_eq.symm
  have hlinked := linked_foldl_add nextArray t.sorted
  refine ⟨t.sorted.length, t.sorted, t.sorted.head hne', t.sorted.getLast hne', hperm, hbefore, head?_eq_some_head hne',
    getLast?_eq_some_getLast hne', fun fuel hfuel => ?_⟩
  have hchain := hlinked.chain hnodup
  obtain ⟨next', hrun, hnext⟩ := copyLinks_eq next hchain hfuel
  refine ⟨next', ?_, ?_⟩
  · rw [← head?_eq_some_head hne', ← getLast?_eq_some_getLast hne', ← hlinked.first_eq, ← hlinked.last_eq]
    simp only [Cells.jtSortTable, linkCells_eq, hrun, bind_eq_bind, bind_some]
  · rw [← head?_eq_some_head hne', ← hlinked.first_eq]
    exact hchain.congr fun x hx => (hnext x).trans (if_pos hx)

/-- The cells at (1, 0), (0, 1) and (0, 0), in this order. -/
def backwards : Cells ℕ where
  hdr := ⟨0, 2, 2, 3, 3⟩
  cell x := ⟨⟨0, 0, 0, 0, if x = 0 then 1 else 0, if x = 1 then 1 else 0, typeEmpty, 0, 0, 0, 0⟩, [], [], [],
    length_nil, length_nil, length_nil⟩
  list := [0, 1, 2]
  nodup := by decide

theorem jtSortTable_sorts_backwards : backwards.Before 2 1 ∧ backwards.Before 1 0 ∧
    Sorts backwards (fun _ => none) fun x => [some 1, some 2].getD x none := by
  refine ⟨.inr (by decide), .inl (by decide), jtSortTable_sorts backwards _ _ (by simp [backwards]) ?_ ?_⟩
  · exact (by decide : ∀ x ∈ [0, 1, 2], backwards.row x < 2 ∧ backwards.col x < 2)
  · exact (by decide : ∀ x ∈ [0, 1, 2], ∀ y ∈ [0, 1, 2], backwards.row x = backwards.row y →
      backwards.col x = backwards.col y → x = y)

end Prj.Jlib.Jtable
