import Prj.Jlib.CellData

/-! Removing a cell from a table. -/
namespace Prj.Jlib
open Prj.Base List

/-- An entry of a block of cell definitions. A row of `none` is `JDB_ID_INVAL`: not in use. -/
structure CelldefEntry where
  row : Option ℕ
  col : ℕ
  celldef : CellDef

structure Table where
  /-- The cells in memory, each with the entry of its definition. -/
  cell : ℕ → Option (Node ℕ Loc)
  first : Option ℕ
  last : Option ℕ
  celldefBids : List ℕ
  /-- The counters of the map for the blocks of cell definitions. -/
  celldefNful : ℕ → ℕ
  celldef : Loc → CelldefEntry
  ncells : ℕ
  store : Store

/-- A table whose cells are linked from `first` to `last`. -/
structure TableState extends Table where
  cells : List ℕ
  nodup : cells.Nodup
  path : Node.Path cell cells
  first_eq : first = cells.head?
  last_eq : last = cells.getLast?

variable (row col : ℕ)

def CelldefEntry.isAt (e : CelldefEntry) : Bool := e.row = some row && e.col = col

/-- Take the cell `a` out of the list; `none` if that follows a null pointer. -/
def unlink (t : Table) (prev : Option ℕ) (a : ℕ) : Option Table :=
  if t.first = some a then some { t with first := Node.nexts t.cell a }
  else
    match prev with
    | none => none
    | some p =>
      if t.last = some a then some { t with cell := Node.setNext t.cell p none, last := some p }
      else some { t with cell := Node.setNext t.cell p (Node.nexts t.cell a) }

/-- The search for the cell; the second result is `cell` after the loop. A cell that is found is taken
out of the list and the loop goes on. -/
def findCell : ℕ → Option ℕ → Option ℕ → Table → Option (Table × Option ℕ)
  | 0, _, _, _ => none
  | _ + 1, none, _, t => some (t, none)
  | fuel + 1, some a, prev, t =>
    match t.cell a with
    | none => none
    | some nd =>
      match if (t.celldef nd.val).isAt row col then unlink t prev a else some t with
      | none => none
      | some t' => findCell fuel (Node.nexts t'.cell a) (some a) t'

/-- `_jdb_rm_celldef`, with `bent` entries in a block. -/
def rmCelldef (bent : ℕ) (t : Table) : Except JErr Table :=
  match (t.celldefBids.flatMap fun b => (List.range bent).map (b, ·)).find? fun l =>
      (t.celldef l).isAt row col with
  | none => .error .notfound
  | some l =>
    let nful := (t.celldefNful l.1 + (2 ^ 16 - 1)) % 2 ^ 16
    .ok { t with
      celldefNful := Function.update t.celldefNful l.1 nful
      celldef := Function.update t.celldef l { t.celldef l with row := none }
      celldefBids := if nful = 0 then t.celldefBids.erase l.1 else t.celldefBids }

/-- `jdb_rm_cell`, with `rmData` for what is done to the data of a cell that has been found. -/
def rmCell (bent : ℕ) (rmData : Table → ℕ → Table) (t : TableState) : Option (Table × Except JErr Unit) :=
  match findCell row col (t.cells.length + 1) t.first t.first t.toTable with
  | none => none
  | some (t', none) => some (t', .error .notfound)
  | some (t', some a) =>
    match rmCelldef row col bent t' with
    | .error _ => some ({ rmData t' a with ncells := t'.ncells - 1 }, .ok ())
    | .ok t'' => some ({ rmData t'' a with ncells := t''.ncells - 1 }, .ok ())

variable {row col} {t t' : Table} {prev b : Option ℕ} {a fuel bent : ℕ} {ls : List ℕ}

def Table.IsAt (t : Table) (row col a : ℕ) : Prop :=
  ∃ nd, t.cell a = some nd ∧ (t.celldef nd.val).isAt row col

theorem findCell_snd (h : findCell row col fuel b prev t = some (t', some a)) : False := by
  induction fuel generalizing b prev t with
  | zero => simp [findCell] at h
  | succ fuel ih =>
    cases b with
    | none => simp [findCell] at h
    | some b =>
      rw [findCell] at h
      split at h
      · simp at h
      · split at h
        · simp at h
        · exact ih h

theorem rmCell_ne_ok {rmData : Table → ℕ → Table} {t : TableState} :
    rmCell row col bent rmData t ≠ some (t', .ok ()) := by
  intro h
  rw [rmCell] at h
  split at h
  · simp at h
  · simp at h
  next hfind => exact findCell_snd hfind

theorem findCell_of_absent (hpath : Node.Path t.cell ls) (habsent : ∀ a ∈ ls, ¬ t.IsAt row col a) :
    findCell row col (ls.length + 1) ls.head? prev t = some (t, none) := by
  induction ls generalizing prev with
  | nil => rfl
  | cons a ls ih =>
    obtain ⟨⟨l, ha⟩, hrest⟩ := hpath
    have hnot : ¬ (t.celldef l).isAt row col := fun hat =>
      habsent a mem_cons_self ⟨_, ha, hat⟩
    have hnext : Node.nexts t.cell a = ls.head? := by rw [Node.nexts, ha, Option.bind_some]
    simp only [head?_cons, length_cons, findCell, ha, if_neg hnot, hnext]
    exact ih hrest fun b hb => habsent b (mem_cons_of_mem _ hb)

/-- At most links of cells and the ends of the list differ. -/
structure Table.SameButLinks (t t' : Table) : Prop where
  cell : ∀ b, (t'.cell b).map Node.val = (t.cell b).map Node.val
  celldefBids : t'.celldefBids = t.celldefBids
  celldefNful : t'.celldefNful = t.celldefNful
  celldef : t'.celldef = t.celldef
  ncells : t'.ncells = t.ncells
  store : t'.store = t.store

theorem Table.SameButLinks.refl (t : Table) : t.SameButLinks t := ⟨fun _ => rfl, rfl, rfl, rfl, rfl, rfl⟩

theorem Table.SameButLinks.trans {t'' : Table} (h : t.SameButLinks t') (h' : t'.SameButLinks t'') :
    t.SameButLinks t'' :=
  ⟨fun b => (h'.cell b).trans (h.cell b), h'.celldefBids.trans h.celldefBids, h'.celldefNful.trans h.celldefNful,
    h'.celldef.trans h.celldef, h'.ncells.trans h.ncells, h'.store.trans h.store⟩

theorem sameButLinks_setNext (p : ℕ) (next last : Option ℕ) :
    t.SameButLinks { t with cell := Node.setNext t.cell p next, last := last } := by
  refine ⟨fun b => ?_, rfl, rfl, rfl, rfl, rfl⟩
  by_cases hb : b = p
  · simp [hb, Node.setNext, Option.map_map, Function.comp_def]
  · simp [Node.setNext, hb]

theorem exists_unlink (h : t.first = some a ∨ ∃ p ∉ a :: ls, prev = some p) :
    ∃ t', unlink t prev a = some t' ∧ (∀ b ∈ a :: ls, t'.cell b = t.cell b) ∧ t.SameButLinks t' := by
  unfold unlink
  by_cases hfirst : t.first = some a
  · rw [if_pos hfirst]
    exact ⟨_, rfl, fun _ _ => rfl, fun _ => rfl, rfl, rfl, rfl, rfl, rfl⟩
  · obtain ⟨p, hp, rfl⟩ := h.resolve_left hfirst
    have hframe : ∀ next, ∀ b ∈ a :: ls, Node.setNext t.cell p next b = t.cell b := by
      intro next b hb
      exact Function.update_of_ne (ne_of_mem_of_not_mem hb hp) _ _
    rw [if_neg hfirst]
    by_cases hlast : t.last = some a
    · exact ⟨_, if_pos hlast, hframe none, sameButLinks_setNext p none (some p)⟩
    · exact ⟨_, if_neg hlast, hframe _, sameButLinks_setNext p _ t.last⟩

theorem exists_findCell (hpath : Node.Path t.cell ls) (hnodup : ls.Nodup)
    (hprev : t.first = ls.head? ∨ ∃ p ∉ ls, prev = some p) :
    ∃ t', findCell row col (ls.length + 1) ls.head? prev t = some (t', none) ∧ t.SameButLinks t' := by
  induction ls generalizing t prev with
  | nil => exact ⟨t, rfl, .refl t⟩
  | cons a ls ih =>
    obtain ⟨⟨l, ha⟩, hrest⟩ := hpath
    rw [nodup_cons] at hnodup
    obtain ⟨t1, hstep, hframe, hsame⟩ : ∃ t1,
        (if (t.celldef l).isAt row col then unlink t prev a else some t) = some t1 ∧
        (∀ b ∈ a :: ls, t1.cell b = t.cell b) ∧ t.SameButLinks t1 := by
      split_ifs
      · exact exists_unlink hprev
      · exact ⟨t, rfl, fun _ _ => rfl, .refl t⟩
    obtain ⟨t', hfind, hsame'⟩ := ih (hrest.congr fun b hb => hframe b (mem_cons_of_mem _ hb)) hnodup.2
      (.inr ⟨a, hnodup.1, rfl⟩)
    refine ⟨t', ?_, hsame.trans hsame'⟩
    have hnext : Node.nexts t1.cell a = ls.head? := by
      rw [Node.nexts, hframe a mem_cons_self, ha, Option.bind_some]
    simp only [head?_cons, length_cons, findCell, ha, hstep, hnext, hfind]

section Remove
variable {env : Env} {g : Geometry} {bent : ℕ} {rmData : Table → ℕ → Table} {s : TableState}

/-- `jdb_rm_cell` always fails, and changes nothing but the links of the list. -/
theorem exists_rmCell :
    ∃ t', rmCell row col bent rmData s = some (t', .error .notfound) ∧ s.toTable.SameButLinks t' := by
  obtain ⟨t', hfind, hsame⟩ := @exists_findCell row col s.toTable s.first s.cells s.path s.nodup (.inl s.first_eq)
  rw [← s.first_eq] at hfind
  exact ⟨t', by rw [rmCell, hfind], hsame⟩

/-- The cell `a` is removed and the others stay as they are. -/
structure Removed (env : Env) (g : Geometry) (s : TableState) (a : ℕ) (t' : Table) : Prop where
  list : ∃ s' : TableState, s'.toTable = t' ∧ s'.cells = s.cells.erase a
  celldef : ∀ nd, s.cell a = some nd → (t'.celldef nd.val).row = none ∧ ∀ l ≠ nd.val, t'.celldef l = s.celldef l
  data : ∀ nd first fuel ptrs, s.cell a = some nd → (s.celldef nd.val).celldef.first = some first →
    Node.follow s.store.entry fuel first = some ptrs →
    ∀ ptr ∈ ptrs, ∀ b, ptr.bid = some b → ∀ i, ptr.bent ≤ i → i < ptr.bent + ptr.nent →
      (t'.store.data b).bitmap i = false
  others : ∀ b ∈ s.cells.erase a, ∀ nd, s.cell b = some nd → (t'.cell b).map Node.val = some nd.val ∧ ∀ fuel,
      loadCellData env g t'.store fuel (CelldefEntry.celldef (t'.celldef nd.val)) =
        loadCellData env g s.store fuel (CelldefEntry.celldef (s.celldef nd.val))

/-- A cell that is there is removed; without one there is an error and no change. -/
def RemovesCell (row col : ℕ) (env : Env) (g : Geometry) (bent : ℕ) (rmData : Table → ℕ → Table)
    (s : TableState) : Prop :=
  (∀ a ∈ s.cells, s.IsAt row col a → ∃ t', rmCell row col bent rmData s = some (t', .ok ()) ∧ Removed env g s a t') ∧
  ((∀ a ∈ s.cells, ¬ s.IsAt row col a) → ∃ e, rmCell row col bent rmData s = some (s.toTable, .error e))

end Remove

/-- A cell is never removed: the call is right exactly when there is none. -/
theorem removesCell_iff (row col : ℕ) (env : Env) (g : Geometry) (bent : ℕ)
    (rmData : Table → ℕ → Table) (s : TableState) :
    RemovesCell row col env g bent rmData s ↔ ∀ a ∈ s.cells, ¬ s.IsAt row col a := by
  constructor
  · rintro ⟨hpresent, -⟩ a ha hat
    obtain ⟨t', hok, -⟩ := hpresent a ha hat
    exact rmCell_ne_ok hok
  · refine fun habsent => ⟨fun a ha hat => absurd hat (habsent a ha), fun _ => ⟨.notfound, ?_⟩⟩
    have hfind := @findCell_of_absent row col s.toTable s.first s.cells s.path habsent
    rw [rmCell, s.first_eq]
    rw [s.first_eq] at hfind
    rw [hfind]

def oneCell (store : Store) : TableState where
  cell a := if a = 0 then some ⟨(0, 0), none⟩ else none
  first := some 0
  last := some 0
  celldefBids := [0]
  celldefNful _ := 1
  celldef l := ⟨if l = (0, 0) then some 1 else none, 1, ⟨none, 0, 0⟩⟩
  ncells := 1
  store := store
  cells := [0]
  nodup := List.nodup_singleton 0
  path := ⟨⟨(0, 0), rfl⟩, trivial⟩
  first_eq := rfl
  last_eq := rfl

theorem not_removesCell_oneCell :
    ¬ RemovesCell 1 1 countingEnv byteGeometry 4 (fun t _ => t) (oneCell emptyStore) := by
  intro h
  obtain ⟨t', hok, -⟩ := h.1 0 (mem_singleton_self 0) ⟨_, rfl, rfl⟩
  exact rmCell_ne_ok hok

end Prj.Jlib
