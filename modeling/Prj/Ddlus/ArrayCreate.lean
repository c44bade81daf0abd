import Prj.Ddlus.Calc
import Prj.Ddlus.Variable

/-!
Definition of arrays (`create_array` in `ddlus/console/array.c`), and an array with two dimensions over a session.

An array that is defined again grows: new columns are added to its rows, and then new rows.
-/
namespace Prj.Ddlus
open List

variable {F : Type} [Fnum F]

section Model
/-- A token behind the name of the array: a value, or the text of an element. -/
inductive Init (F : Type)
  | num (val : F)
  | str (s : List Char)

def Init.exp : Option (Init F) → List Char
  | some (.str s) => s
  | _ => []

def Init.val : Option (Init F) → F
  | some (.num val) => val
  | _ => Fnum.zero

namespace Table
variable (compiles : List Char → Bool) (junk : F) (name : List Char)

/-- A loop of `_create_array1` and `_create_array2` over `k`, with the tokens that are left. -/
def createLoop (pos : ℤ → ℤ × ℤ) : ℕ → ℤ → List (Init F) → Table F → Bool × Table F × List (Init F)
  | 0, _, tk, t => (true, t, tk)
  | n + 1, k, tk, t =>
    match t.createVar name compiles junk .array (pos k).1 (pos k).2 (Init.exp tk.head?) with
    | (false, t) => (false, t, tk)
    | (true, t) =>
      createLoop pos n (k + 1) tk.tail (t.setArrayval name (pos k).1 (pos k).2 (Init.val tk.head?)).2

/-- `_create_array1`; the tokens are only used for a new array. -/
def createArray1 (t : Table F) (tk : List (Init F)) (maxi resize : ℤ) : Option (Bool × Table F) := do
  let idx ← if resize = 0 then some 0 else (t.arrayLimits name).map (·.1 + 1)
  let (ok, t, _) := createLoop compiles junk name (·, -1) (maxi - idx).toNat idx (if resize = 0 then tk else []) t
  return (ok, t)

/-- `_create_array2`, with `*nexttk` and `*prevmaxj` in the result. -/
def createArray2 (t : Table F) (nexttk : List (Init F)) (idx maxj resize prevmaxj : ℤ) :
    Option (Bool × Table F × List (Init F) × ℤ) := do
  let jdx ← if resize < 0 then
      if prevmaxj < 0 then (t.arrayLimits name).map (·.2 + 1) else some prevmaxj
    else some 0
  let (ok, t, tk) :=
    createLoop compiles junk name (idx, ·) (maxj - jdx).toNat jdx (if resize = 0 then nexttk else []) t
  return (ok, t, if ok then tk else nexttk, if resize < 0 then jdx else prevmaxj)

/-- A loop of `create_array` over the rows. -/
def createRows (maxj resize : ℤ) : ℕ → ℤ → List (Init F) → ℤ → Table F → Option (Bool × Table F × List (Init F))
  | 0, _, tk, _, t => some (true, t, tk)
  | n + 1, idx, tk, prevmaxj, t => do
    let (ok, t, tk, prevmaxj) ← createArray2 compiles junk name t tk idx maxj resize prevmaxj
    if ok then createRows maxj resize n (idx + 1) tk prevmaxj t else return (false, t, tk)

/-- `create_array`, for the name and the sizes of the first token. -/
def createArray (t : Table F) (maxi maxj : ℤ) (tk : List (Init F)) : Option (Bool × Table F) := do
  let resize : ℤ :=
    match (t.varPtr name).bind (t.vars[·]?) with
    | none => 0
    | some ptr => if ptr.j > -1 then 2 else if ptr.i > -1 then 1 else -1
  let maxj := if maxj < 0 then -1 else maxj
  if resize = -1 then return t.printe (.exist name)
  else if maxi < 0 then return t.printe (.badarg name)
  else if resize = 1 ∧ maxj > -1 then return t.printe (.badarg name)
  else if resize = 2 ∧ (maxi < 0 ∨ maxj < 0) then return t.printe (.badarg name)
  else if maxj > -1 then
    if resize = 0 then
      let (ok, t, _) ← createRows compiles junk name maxj 0 maxi.toNat 0 tk (-1) t
      return (ok, t)
    else
      let (last, _) ← t.arrayLimits name
      let (ok, t, tk) ← createRows compiles junk name maxj (-1) (last + 1).toNat 0 tk (-1) t
      if !ok then return (false, t)
      -- from here on `resize` is the last column
      let (last, resize) ← t.arrayLimits name
      let (ok, t, _) ← createRows compiles junk name maxj resize (maxi - (last + 1)).toNat (last + 1) tk (-1) t
      return (ok, t)
  else createArray1 compiles junk name t tk maxi resize

end Table
end Model

section Create
variable (compiles : List Char → Bool) (junk : F) {n : List Char} {t : Table F} {Q R : ℤ → ℤ → Prop} {f : ℤ → ℤ → F}
  {i j : ℤ} {tk used : List (Init F)}

structure OpenElems (t : Table F) (n : List Char) (P : ℤ → ℤ → Prop) (f : ℤ → ℤ → F) : Prop extends Elems t n P f where
  unlocked : ∀ v ∈ t.vars, v.name = n → v.lock = false

omit [Fnum F] in
theorem OpenElems.congr (h : OpenElems t n Q f) (hQ : ∀ i j, Q i j ↔ R i j) : OpenElems t n R f :=
  ⟨h.toElems.congr hQ fun _ _ _ => rfl, h.unlocked⟩

omit [Fnum F] in
theorem OpenElems.append (h : OpenElems t n Q f) (hQ : ¬Q i j) (exp : List Char) (val : F) :
    OpenElems { t with vars := t.vars ++ [Table.cell n i j exp val] } n (fun i' j' => Q i' j' ∨ (i' = i ∧ j' = j))
      (fun i' j' => if i' = i ∧ j' = j then val else f i' j') := by
  refine ⟨h.toElems.append hQ exp val, fun v hv hname => ?_⟩
  rcases mem_append.1 hv with hv | hv
  · exact h.unlocked v hv hname
  · rw [mem_singleton.1 hv]
    rfl

def Init.Compiles (tk : Option (Init F)) : Prop :=
  (Init.exp tk = [] || compiles (Init.exp tk)) = true

def initVal (tk : List (Init F)) (k : ℕ) : F := Init.val tk[k]?

variable (hn : IsName n)
include hn

theorem createLoop_row (h : OpenElems t n Q f) (m : ℕ) (hj : 0 ≤ j)
    (hrow : ∀ j', j ≤ j' → j' < j + m → InRange i j' ∧ ¬Q i j') (htk : ∀ x ∈ tk, Init.Compiles compiles (some x)) :
    ∃ t' f', Table.createLoop compiles junk n (i, ·) m j tk t = (true, t', tk.drop m) ∧
      OpenElems t' n (fun i' j' => Q i' j' ∨ (i' = i ∧ j ≤ j' ∧ j' < j + m)) f' ∧
      (∀ i' j', Q i' j' → f' i' j' = f i' j') ∧ ∀ j', j ≤ j' → j' < j + m → f' i j' = initVal tk (j' - j).toNat := by
  induction m generalizing t Q f j tk with
  | zero =>
    refine ⟨t, f, rfl, h.congr fun i' j' => (or_iff_left (by omega)).symm, fun _ _ _ => rfl, fun j' _ _ => by omega⟩
  | succ m ih =>
    obtain ⟨hr, hQ⟩ := hrow j (by omega) (by omega)
    have hnew := h.not_at hj hQ
    have hok : (Init.exp tk.head? = [] || compiles (Init.exp tk.head?)) = true := by
      cases tk with
      | nil => rfl
      | cons x tk => exact htk x mem_cons_self
    have hstep := h.append hQ (Init.exp tk.head?) (Init.val tk.head?)
    have hrest : ∀ j', j + 1 ≤ j' → j' < j + 1 + m → InRange i j' ∧ ¬(Q i j' ∨ (i = i ∧ j' = j)) := by
      intro j' hle hlt
      obtain ⟨hr', hQ'⟩ := hrow j' (by omega) (by omega)
      exact ⟨hr', not_or.2 ⟨hQ', by omega⟩⟩
    obtain ⟨t', f', hrun, helems, hkept, hvals⟩ :=
      ih hstep (by omega) hrest fun x hx => htk x (mem_of_mem_tail hx)
    refine ⟨t', f', ?_, helems.congr fun i' j' => ?_, fun i' j' hQ' => ?_, fun j' hle hlt => ?_⟩
    · rw [Table.createLoop, Table.createVar_new hn hr hnew, hok]
      simp only [Table.setArrayval_cell hn hr hnew]
      rw [hrun, drop_tail]
    · rw [or_assoc]
      exact or_congr_right (by omega)
    · rw [hkept i' j' (.inl hQ'), if_neg]
      rintro ⟨rfl, rfl⟩
      exact hQ hQ'
    · obtain rfl | hlt' : j' = j ∨ j + 1 ≤ j' := by omega
      · rw [hkept i j' (.inr ⟨rfl, rfl⟩), if_pos ⟨rfl, rfl⟩, Int.sub_self, initVal, Int.toNat_zero, head?_eq_getElem?]
      · rw [hvals j' hlt' (by omega), initVal, getElem?_tail]
        congr 2
        omega

omit hn in
theorem initVal_nil (k : ℕ) : initVal ([] : List (Init F)) k = Fnum.zero := by
  rfl

theorem createRows_from (tk : List (Init F)) (h : OpenElems t n Q f) (lo cols m : ℕ) (resize prevmaxj : ℤ)
    (hused : (if resize = 0 then tk else []) = used)
    (hlo : if resize < 0 then prevmaxj = lo ∨ prevmaxj = -1 ∧ ∃ a, t.arrayLimits n = some (a, (lo : ℤ) - 1) else lo = 0)
    (hcomp : ∀ x ∈ used, Init.Compiles compiles (some x))
    (hrows : ∀ i' j' : ℤ, i ≤ i' → i' < i + m → lo ≤ j' → j' < cols → InRange i' j' ∧ ¬Q i' j') :
    ∃ t' f', Table.createRows compiles junk n cols resize m i tk prevmaxj t =
        some (true, t', if m = 0 then tk else used.drop (m * (cols - lo))) ∧
      OpenElems t' n (fun i' j' => Q i' j' ∨ (i ≤ i' ∧ i' < i + m ∧ lo ≤ j' ∧ j' < cols)) f' ∧
      (∀ i' j', Q i' j' → f' i' j' = f i' j') ∧ ∀ i' j' : ℤ, i ≤ i' → i' < i + m → lo ≤ j' → j' < cols →
        f' i' j' = initVal used ((i' - i).toNat * (cols - lo) + (j' - lo).toNat) := by
  induction m generalizing t Q f i tk prevmaxj used with
  | zero =>
    exact ⟨t, f, rfl, h.congr fun i' j' => (or_iff_left (by omega)).symm, fun _ _ _ => rfl, fun i' j' _ _ => by omega⟩
  | succ m ih =>
    obtain ⟨t1, f1, hrow, helems, hkept, hvals⟩ := createLoop_row compiles junk hn h (cols - lo)
      (Int.natCast_nonneg lo) (fun j' hle hlt => hrows i j' (by omega) (by omega) hle (by omega)) hcomp
    have hrest : ∀ i' j' : ℤ, i + 1 ≤ i' → i' < i + 1 + m → lo ≤ j' → j' < cols → InRange i' j' ∧
        ¬(Q i' j' ∨ (i' = i ∧ lo ≤ j' ∧ j' < lo + (cols - lo : ℕ))) := by
      intro i' j' hle hlt hle' hlt'
      obtain ⟨hr, hQ⟩ := hrows i' j' (by omega) (by omega) hle' hlt'
      exact ⟨hr, not_or.2 ⟨hQ, by omega⟩⟩
    have hlen : ((cols : ℤ) - lo).toNat = cols - lo := by omega
    have hstep : Table.createArray2 compiles junk n t tk i cols resize prevmaxj =
        some (true, t1, used.drop (cols - lo), if resize < 0 then (lo : ℤ) else prevmaxj) := by
      rw [Table.createArray2, hused]
      split_ifs at hlo ⊢ with hneg hnone
      · obtain ⟨a, hlim⟩ := (hlo.resolve_left (by omega)).2
        simp [hlim, hlen, hrow]
      · obtain rfl := hlo.resolve_right (by omega)
        simp [hlen, hrow]
      · subst hlo
        simp only [Int.natCast_zero, Nat.sub_zero] at hrow
        simp [hrow]
    have hused' : (if resize = 0 then used.drop (cols - lo) else []) = used.drop (cols - lo) := by
      rw [← hused]
      split_ifs <;> simp
    obtain ⟨t', f', hrun, helems', hkept', hvals'⟩ := ih _ helems (if resize < 0 then lo else prevmaxj) hused'
      (by split_ifs at hlo ⊢ with hneg; exacts [.inl rfl, hlo]) (fun x hx => hcomp x (mem_of_mem_drop hx)) hrest
    refine ⟨t', f', ?_, helems'.congr fun i' j' => ?_, fun i' j' hQ => ?_, fun i' j' hle hlt hle' hlt' => ?_⟩
    · rw [Table.createRows, hstep]
      simp only [Option.bind_eq_bind, Option.bind_some, if_pos]
      rw [hrun, drop_drop, if_neg (Nat.succ_ne_zero m), Nat.succ_mul, Nat.add_comm]
      split_ifs with hm <;> simp [hm]
    · rw [or_assoc]
      exact or_congr_right (by omega)
    · rw [hkept' i' j' (.inl hQ), hkept i' j' hQ]
    · obtain rfl | hlt'' : i' = i ∨ i + 1 ≤ i' := by omega
      · rw [hkept' i' j' (.inr ⟨rfl, hle', by omega⟩), hvals j' hle' (by omega)]
        simp
      · rw [hvals' i' j' hlt'' (by omega) hle' hlt', initVal, initVal, getElem?_drop]
        have hrowidx : (i' - i).toNat = (i' - (i + 1)).toNat + 1 := by omega
        rw [hrowidx, Nat.succ_mul, Nat.add_comm (cols - lo), Nat.add_right_comm]

end Create

open Option

section Grid
/-- What happens to an array: it is defined, again or for the first time, or an element is assigned. -/
inductive ArrayOp (F : Type)
  | define (maxi maxj : ℤ) (tk : List (Init F))
  | assign (i j : ℕ) (val : F)

def Table.arrayStep (compiles : List Char → Bool) (junk : F) (name : List Char) (t : Table F) :
    ArrayOp F → Option (Table F)
  | .define maxi maxj tk => (t.createArray compiles junk name maxi maxj tk).map (·.2)
  | .assign i j val => some (t.setArrayval name i j val).2

def Table.arrayRun (compiles : List Char → Bool) (junk : F) (name : List Char) (t : Table F) (ops : List (ArrayOp F)) :
    Option (Table F) := ops.foldlM (Table.arrayStep compiles junk name) t

/-- An array as it should be; it is not there without an element. -/
structure Grid (F : Type) where
  rows : ℕ
  cols : ℕ
  val : ℤ → ℤ → F

namespace Grid

def Has (g : Grid F) (i j : ℤ) : Prop := 0 ≤ i ∧ i < g.rows ∧ 0 ≤ j ∧ j < g.cols

instance (g : Grid F) (i j : ℤ) : Decidable (g.Has i j) := inferInstanceAs (Decidable (_ ∧ _))

def Absent (g : Grid F) : Prop := g.rows = 0 ∨ g.cols = 0

instance (g : Grid F) : Decidable g.Absent := inferInstanceAs (Decidable (_ ∨ _))

def undefined : Grid F := ⟨0, 0, fun _ _ => Fnum.zero⟩

/-- A first definition takes the values of the tokens. A later one adds elements with zero and leaves the others. -/
def step (g : Grid F) : ArrayOp F → Grid F
  | .define maxi maxj tk =>
    if maxi < 0 ∨ maxj < 0 then g
    else if g.Absent then
      ⟨maxi.toNat, maxj.toNat, fun i j => initVal tk (i.toNat * maxj.toNat + j.toNat)⟩
    else
      ⟨if maxj = 0 then g.rows else max g.rows maxi.toNat, max g.cols maxj.toNat,
        fun i j => if g.Has i j then g.val i j else Fnum.zero⟩
  | .assign i j val => { g with val := fun i' j' => if i' = i ∧ j' = j then val else g.val i' j' }

/-- Definitions that are carried out as they should: the indices are allowed, and the first definition has two
dimensions and texts that can be compiled. No later one adds rows that are shorter than those before. -/
def Fits (compiles : List Char → Bool) (g : Grid F) : ArrayOp F → Prop
  | .define maxi maxj tk =>
    maxi < 0 ∨ (¬g.Absent ∧ maxj < 0) ∨ (0 ≤ maxj ∧ maxi ≤ maxArrayMembers + 1 ∧ maxj ≤ maxArrayMembers + 1 ∧
        if g.Absent then ∀ x ∈ tk, Init.Compiles compiles (some x)
        else ¬(g.rows < maxi ∧ 0 < maxj ∧ maxj < g.cols))
  | .assign .. => True

def FitsAll (compiles : List Char → Bool) : Grid F → List (ArrayOp F) → Prop
  | _, [] => True
  | g, op :: ops => g.Fits compiles op ∧ (g.step op).FitsAll compiles ops

/-- The array of a session is `g`. -/
structure Stored (t : Table F) (n : List Char) (g : Grid F) : Prop extends OpenElems t n g.Has g.val where
  rows_le : g.rows ≤ maxArrayMembers + 1
  cols_le : g.cols ≤ maxArrayMembers + 1

variable {compiles : List Char → Bool} {junk : F} {n : List Char} {t t' : Table F} {g : Grid F} {i j : ℤ}

section Stored
omit [Fnum F]

section
variable (h : Stored t n g)
include h

theorem Stored.inRange (hhas : g.Has i j) : InRange i j := by
  have hrows := h.rows_le
  have hcols := h.cols_le
  unfold Has at hhas
  unfold InRange
  omega

theorem Stored.printe (msg : ArrayMsg) : Stored (t.printe msg).2 n g :=
  ⟨⟨⟨h.type_eq, h.nodup, h.mem_iff, h.val_eq⟩, h.unlocked⟩, h.rows_le, h.cols_le⟩

theorem Stored.name_ne (habs : g.Absent) : ∀ v ∈ t.vars, v.name ≠ n := by
  intro v hv hname
  have hhas : g.Has v.i v.j := (h.mem_iff _ _).1 ⟨v, hv, hname, rfl, rfl⟩
  unfold Has at hhas
  unfold Absent at habs
  omega

theorem Stored.ptr_absent (hn : IsName n) (habs : g.Absent) : (t.varPtr n).bind (t.vars[·]?) = none := by
  have hfind : t.vars.findIdx? (·.name = n) = none := by
    simpa using h.name_ne habs
  rw [Table.varPtr_eq hn, hfind, ite_self, bind_none]

theorem Stored.ptr (hn : IsName n) (hclip : n ≠ clipVarName) (hdef : ¬g.Absent) :
    ∃ v, (t.varPtr n).bind (t.vars[·]?) = some v ∧ v.j > -1 := by
  have hfirst : g.Has 0 0 := by
    unfold Absent at hdef
    unfold Has
    omega
  obtain ⟨w, hw, hwname, -⟩ := (h.mem_iff 0 0).2 hfirst
  obtain ⟨A, v, B, ht, hA, hv⟩ := Table.exists_first (·.name = n) ⟨w, hw, hwname⟩
  have hhas : g.Has v.i v.j := (h.mem_iff _ _).1 ⟨v, ht ▸ by simp, hv, rfl, rfl⟩
  refine ⟨v, ?_, by unfold Has at hhas; omega⟩
  have hfind : t.vars.findIdx? (·.name = n) = some A.length := by
    rw [ht]
    exact Base.findIdx?_append_cons (by simpa using hA) (by simpa using hv)
  rw [Table.varPtr_eq hn, if_neg hclip, hfind, bind_some, Table.getElem?_append_cons ht]

theorem Stored.arrayLimits_eq (hn : IsName n) (hdef : ¬g.Absent) :
    t.arrayLimits n = some ((g.rows : ℤ) - 1, (g.cols : ℤ) - 1) := by
  unfold Absent at hdef
  refine h.toElems.arrayLimits_eq hn (fun i j hhas => ?_) ⟨0, ?_⟩ ⟨0, ?_⟩
  · unfold Has at hhas
    omega
  all_goals
    unfold Has
    omega

end
end Stored

theorem stored_undefined (hnew : ∀ v ∈ t.vars, v.name ≠ n) : Stored t n undefined := by
  refine ⟨⟨(elems_of_new hnew _).congr (fun i j => ?_) fun _ _ _ => rfl, ?_⟩, ?_, ?_⟩
  · refine ⟨False.elim, fun hhas => ?_⟩
    simp only [Has, undefined] at hhas
    omega
  · exact fun v hv hname => absurd hname (hnew v hv)
  all_goals simp [undefined, maxArrayMembers]

theorem Stored.assign (h : Stored t n g) (hn : IsName n) (i j : ℕ) (val : F) :
    Stored (t.setArrayval n i j val).2 n (g.step (.assign i j val)) := by
  by_cases hhas : g.Has i j
  · obtain ⟨A, v, B, ht, hA, hv, hvj, -⟩ := h.exists_at hhas (.inl (Int.natCast_nonneg j))
    have hmem : v ∈ t.vars := ht ▸ by simp
    have hlock := h.unlocked v hmem hv.1
    have hprot : ¬v.Protected := by simp [Variable.Protected, h.type_eq v hmem hv.1, hlock]
    rw [Table.setArrayval_append hn (h.inRange hhas) hA hv ht hprot]
    refine ⟨⟨(h.toElems.set ht hv.1 val).congr (fun _ _ => Iff.rfl) fun i' j' _ => ?_, fun w hw hname => ?_⟩,
      h.rows_le, h.cols_le⟩
    · rw [hv.2.1, hvj]
      rfl
    · obtain rfl | hw : w = { v with val } ∨ w ∈ A ++ B := by simpa [or_left_comm] using hw
      · exact hlock
      · refine h.unlocked w ?_ hname
        rw [ht, mem_append, mem_cons]
        exact (mem_append.1 hw).imp_right .inr
  · have hptr : t.arrayPtr n i j = none := by
      by_cases hr : InRange i j
      · exact Table.arrayPtr_eq_none hn hr (h.not_at (Int.natCast_nonneg j) hhas)
      · rw [Table.arrayPtr, if_pos]
        unfold InRange at hr
        omega
    have hprinted : (t.setArrayval n i j val).2 = (t.printe (.anotfound n i j)).2 := by
      rw [Table.setArrayval, hptr]
      rfl
    have hstored := h.printe (.anotfound n i j)
    rw [hprinted]
    refine ⟨⟨hstored.toElems.congr (fun _ _ => Iff.rfl) fun i' j' hhas' => ?_, hstored.unlocked⟩, h.rows_le, h.cols_le⟩
    refine (if_neg ?_).symm
    rintro ⟨rfl, rfl⟩
    exact hhas hhas'

section Define
variable (junk) {maxi maxj : ℤ} (tk : List (Init F))

omit [Fnum F] in
theorem not_has_of_absent (habs : g.Absent) : ¬g.Has i j := by
  unfold Has
  unfold Absent at habs
  omega

section
variable (h : Stored t n g) (hn : IsName n)
include h hn

theorem Stored.define_refused (hclip : n ≠ clipVarName) (href : maxi < 0 ∨ (¬g.Absent ∧ maxj < 0)) :
    ∃ t', t.createArray compiles junk n maxi maxj tk = some (false, t') ∧ Stored t' n g := by
  refine ⟨(t.printe (.badarg n)).2, ?_, h.printe _⟩
  by_cases habs : g.Absent
  · have hmaxi : maxi < 0 := href.resolve_right fun hand => hand.1 habs
    rw [Table.createArray, h.ptr_absent hn habs]
    simp [hmaxi, Table.printe]
  · obtain ⟨v, hptr, hvj⟩ := h.ptr hn hclip habs
    rw [Table.createArray, hptr]
    by_cases hmaxi : maxi < 0
    · simp [hvj, hmaxi, Table.printe]
    · have hmaxj : maxj < 0 := (href.resolve_left hmaxi).2
      simp [hvj, hmaxi, hmaxj, Table.printe]

theorem Stored.define_first (habs : g.Absent) (hmaxi : 0 ≤ maxi) (hmaxj : 0 ≤ maxj)
    (hrows : maxi ≤ maxArrayMembers + 1) (hcols : maxj ≤ maxArrayMembers + 1)
    (hcomp : ∀ x ∈ tk, Init.Compiles compiles (some x)) :
    ∃ t', t.createArray compiles junk n maxi maxj tk = some (true, t') ∧
      Stored t' n (g.step (.define maxi maxj tk)) := by
  obtain ⟨rows, rfl⟩ := Int.eq_ofNat_of_zero_le hmaxi
  obtain ⟨cols, rfl⟩ := Int.eq_ofNat_of_zero_le hmaxj
  obtain ⟨t', f', hrun, helems, -, hvals⟩ := createRows_from compiles junk hn tk h.toOpenElems 0 cols rows 0
    (-1) (if_pos rfl) rfl hcomp (i := 0) (fun i' j' hle hlt hle' hlt' =>
      ⟨⟨hle, by omega, by omega⟩, not_has_of_absent habs⟩)
  refine ⟨t', ?_, ?_⟩
  · rw [Table.createArray, h.ptr_absent hn habs]
    simp only [bind_eq_bind, if_neg (show ¬(cols : ℤ) < 0 by omega), if_neg (show ¬(rows : ℤ) < 0 by omega)]
    simp [show (-1 : ℤ) < cols by omega, hrun]
  · rw [step, if_neg (by omega), if_pos habs]
    refine ⟨⟨helems.toElems.congr (fun i j => ?_) fun i j hin => ?_, helems.unlocked⟩, hrows, hcols⟩
    · rw [or_iff_right (not_has_of_absent habs)]
      simp only [Has, Int.toNat_natCast, Int.zero_add, Int.natCast_zero]
    · obtain ⟨hle, hlt, hle', hlt'⟩ := hin.resolve_left (not_has_of_absent habs)
      rw [hvals i j hle hlt hle' hlt']
      simp only [Int.toNat_natCast, Int.natCast_zero, Int.sub_zero, Nat.sub_zero]

theorem Stored.define_again (hclip : n ≠ clipVarName) (hdef : ¬g.Absent)
    (hmaxi : 0 ≤ maxi) (hmaxj : 0 ≤ maxj) (hrows : maxi ≤ maxArrayMembers + 1) (hcols : maxj ≤ maxArrayMembers + 1)
    (hlong : ¬(g.rows < maxi ∧ 0 < maxj ∧ maxj < g.cols)) :
    ∃ t', t.createArray compiles junk n maxi maxj tk = some (true, t') ∧
      Stored t' n (g.step (.define maxi maxj tk)) := by
  obtain ⟨rows, rfl⟩ := Int.eq_ofNat_of_zero_le hmaxi
  obtain ⟨cols, rfl⟩ := Int.eq_ofNat_of_zero_le hmaxj
  have hrows' := h.rows_le
  have hcols' := h.cols_le
  have hpos : 0 < g.rows ∧ 0 < g.cols := by
    unfold Absent at hdef
    omega
  obtain ⟨v, hptr, hvj⟩ := h.ptr hn hclip hdef
  have hlim := h.arrayLimits_eq hn hdef
  -- the rows that are there get their new columns
  obtain ⟨t1, f1, hrun1, helems1, hkept1, hzero1⟩ := createRows_from compiles junk hn tk h.toOpenElems g.cols cols
    g.rows (-1) (-1) (if_neg (by decide)) (.inr ⟨rfl, _, hlim⟩) (forall_mem_nil _) (i := 0)
      (fun i' j' hle hlt hle' hlt' =>
      ⟨⟨hle, by omega, by omega⟩, by unfold Has; omega⟩)
  have hlim1 : t1.arrayLimits n = some ((g.rows : ℤ) - 1, (max g.cols cols : ℤ) - 1) := by
    refine helems1.toElems.arrayLimits_eq hn (fun i j hhas => ?_) ⟨0, ?_⟩ ⟨0, ?_⟩
    all_goals unfold Has at *; omega
  -- then the new rows are created
  obtain ⟨t2, f2, hrun2, helems2, hkept2, hzero2⟩ := createRows_from compiles junk hn [] helems1 0 cols (rows - g.rows)
    ((max g.cols cols : ℤ) - 1) (-1) (ite_self _) (by rw [if_neg (by omega)]) (forall_mem_nil _) (i := g.rows)
    (fun i' j' hle hlt hle' hlt' => ⟨⟨by omega, by omega, by omega⟩, by unfold Has; omega⟩)
  refine ⟨t2, ?_, ?_⟩
  · have hlast : ((g.rows : ℤ) - 1 + 1).toNat = g.rows := by omega
    have hnew : ((rows : ℤ) - ((g.rows : ℤ) - 1 + 1)).toNat = rows - g.rows := by omega
    rw [if_neg (by omega)] at hrun1
    rw [Table.createArray, hptr]
    simp only [bind_eq_bind, if_neg (show ¬(cols : ℤ) < 0 by omega), if_neg (show ¬(rows : ℤ) < 0 by omega),
      if_pos hvj, hlim, bind_some, hlast, hrun1, hlim1, hnew]
    simp [show (-1 : ℤ) < cols by omega, show ¬((rows : ℤ) < 0 ∨ (cols : ℤ) < 0) by omega, hrun2]
  · rw [step, if_neg (by omega), if_neg hdef]
    refine ⟨⟨helems2.toElems.congr (fun i j => ?_) fun i j hin => ?_, helems2.unlocked⟩, ?_, ?_⟩
    · simp only [Has]
      split <;> omega
    · rcases hin with (hhas | ⟨hle, hlt, hle', hlt'⟩) | ⟨hle, hlt, hle', hlt'⟩
      · rw [hkept2 i j (.inl hhas), hkept1 i j hhas]
        exact (if_pos hhas).symm
      · rw [hkept2 i j (.inr ⟨hle, hlt, hle', hlt'⟩), hzero1 i j hle hlt hle' hlt', initVal_nil]
        exact (if_neg (by unfold Has; omega)).symm
      · rw [hzero2 i j hle hlt hle' hlt', initVal_nil]
        exact (if_neg (by unfold Has; omega)).symm
    · dsimp only
      split <;> omega
    · dsimp only
      omega

end
end Define

section
variable (junk : F) (h : Stored t n g) (hn : IsName n) (hclip : n ≠ clipVarName)
include h hn hclip

theorem Stored.step {op : ArrayOp F}
    (hfits : g.Fits compiles op) : ∃ t', t.arrayStep compiles junk n op = some t' ∧ Stored t' n (g.step op) := by
  cases op with
  | assign i j val => exact ⟨_, rfl, h.assign hn i j val⟩
  | define maxi maxj tk =>
    have hdone : ∃ ok t', t.createArray compiles junk n maxi maxj tk = some (ok, t') ∧
        Stored t' n (g.step (.define maxi maxj tk)) := by
      by_cases href : maxi < 0 ∨ (¬g.Absent ∧ maxj < 0)
      · obtain ⟨t', hrun, hstored⟩ := Stored.define_refused junk tk h hn hclip href
        refine ⟨false, t', hrun, ?_⟩
        rwa [Grid.step, if_pos (href.imp_right And.right)]
      · have hfits' := (hfits.resolve_left fun hmaxi => href (.inl hmaxi)).resolve_left fun hand => href (.inr hand)
        obtain ⟨hmaxj, hrows, hcols, hkind⟩ := hfits'
        have hmaxi : 0 ≤ maxi := Int.not_lt.1 fun hmaxi => href (.inl hmaxi)
        refine ⟨true, ?_⟩
        by_cases habs : g.Absent
        · rw [if_pos habs] at hkind
          exact Stored.define_first junk tk h hn habs hmaxi hmaxj hrows hcols hkind
        · rw [if_neg habs] at hkind
          exact Stored.define_again junk tk h hn hclip habs hmaxi hmaxj hrows hcols hkind
    obtain ⟨ok, t', hrun, hstored⟩ := hdone
    refine ⟨t', ?_, hstored⟩
    rw [Table.arrayStep, hrun]
    rfl

theorem Stored.run {ops : List (ArrayOp F)} (hfits : g.FitsAll compiles ops) :
    ∃ t', t.arrayRun compiles junk n ops = some t' ∧ Stored t' n (ops.foldl Grid.step g) := by
  induction ops generalizing t g with
  | nil => exact ⟨t, rfl, h⟩
  | cons op ops ih =>
    obtain ⟨t1, hstep, hstored⟩ := h.step junk hn hclip hfits.1
    obtain ⟨t', hrun, hstored'⟩ := ih hstored hfits.2
    refine ⟨t', ?_, hstored'⟩
    rw [Table.arrayRun, foldlM_cons, hstep]
    exact hrun

end

theorem has_step_define (hhas : g.Has i j) (maxi maxj : ℤ) (tk : List (Init F)) :
    (g.step (.define maxi maxj tk)).Has i j ∧ (g.step (.define maxi maxj tk)).val i j = g.val i j := by
  have hdef : ¬g.Absent := fun habs => not_has_of_absent habs hhas
  rw [step]
  split
  · exact ⟨hhas, rfl⟩
  · refine ⟨?_, if_pos hhas⟩
    simp only [Has] at hhas ⊢
    split <;> omega

theorem Stored.arrayVal_eq (h : Stored t n g) (hn : IsName n) (hhas : g.Has i j) : t.arrayVal n i j = g.val i j :=
  h.toElems.arrayVal_eq hn (h.inRange hhas) hhas (.inl hhas.2.2.1)

end Grid
end Grid

section Read
open Function Mach
variable {x : Ext F} {m m' : Mach F} {op tk : ℕ}

omit [Fnum F] in
theorem tok_poptok (m : Mach F) : (poptok m).2.tok = m.tok := by
  unfold poptok
  split
  · rfl
  · split <;> rfl

theorem id_leftVal (m : Mach F) (tk : Option ℕ) (op : ℕ) : ((m.leftVal x tk).2.tok op).id = (m.tok op).id := by
  cases tk with
  | none => rfl
  | some tk => exact Tok.id_eq_of_shape (Tok.shape_update (Tok.shape_resolve ..) op)

theorem read_result (m : Mach F) (tk1 tk2 : ℕ) (ans : F) : (result m tk1 (some tk2) ans).read x tk2 = ans := by
  have htok : (result m tk1 (some tk2) ans).tok tk2 = (m.tok tk2).settokval ans := update_self ..
  rw [Mach.read, Mach.resolved, htok, Tok.resolve_of_res rfl, Tok.signed_settokval]

/-- The operator `[` leaves the uninitialised `ans` as value of the array. -/
theorem read_of_index (hop : (m.tok op).id = .abrOpen) (hrun : m.calcBasic x op = some (true, m'))
    (htop : m'.stacktop = some tk) : m'.read x tk = x.junk := by
  unfold calcBasic at hrun
  split at hrun
  · cases hrun
  · rename_i tk1 m1 hpop
    have htok : m1.tok = m.tok := by rw [← tok_poptok m, hpop]
    have hid : (((m1.poptok).2.leftVal x m1.poptok.1).2.tok op).id = .abrOpen := by
      rw [id_leftVal, tok_poptok, htok, hop]
    simp only [hid, basicOp, arith] at hrun
    cases hsecond : m1.poptok.1 with
    | none =>
      rw [hsecond] at hrun
      cases hrun
    | some tk2 =>
      rw [hsecond] at hrun
      cases hrun
      cases htop
      exact read_result _ tk1 tk2 x.junk

end Read

section Main
variable (compiles : List Char → Bool) (junk : F) {n : List Char} {t : Table F}

/-- After definitions that fit, the array has exactly the elements within its limits, and each definition leaves the
values that were there. What an expression gets for an element is not its value but the uninitialised `ans`. -/
theorem arrayRun_of_fitsAll (hn : IsName n) (hclip : n ≠ clipVarName) (hnew : ∀ v ∈ t.vars, v.name ≠ n)
    (ops : List (ArrayOp F)) (hfits : Grid.undefined.FitsAll compiles ops) :
    ∃ t' g, t.arrayRun compiles junk n ops = some t' ∧ g = ops.foldl Grid.step Grid.undefined ∧
      Elems t' n g.Has g.val ∧ (¬g.Absent → t'.arrayLimits n = some ((g.rows : ℤ) - 1, (g.cols : ℤ) - 1)) ∧
      (∀ i j, g.Has i j → t'.arrayVal n i j = g.val i j) ∧
      (∀ maxi maxj tk, g.Fits compiles (.define maxi maxj tk) →
        ∃ t'', t'.arrayStep compiles junk n (.define maxi maxj tk) = some t'' ∧
          ∀ i j, g.Has i j → t''.arrayVal n i j = t'.arrayVal n i j) ∧
      ∀ (x : Ext F) (m m' : Mach F) (op tk : ℕ), (m.tok op).id = .abrOpen → m.calcBasic x op = some (true, m') →
        m'.stacktop = some tk → (m'.tok tk).str = n → g.Has (m'.tok tk).i (m'.tok tk).j →
        (m'.read x tk = t'.arrayVal n (m'.tok tk).i (m'.tok tk).j ↔ x.junk = g.val (m'.tok tk).i (m'.tok tk).j) := by
  obtain ⟨t', hrun, h⟩ := (Grid.stored_undefined hnew).run junk hn hclip hfits
  refine ⟨t', _, hrun, rfl, h.toElems, h.arrayLimits_eq hn, fun i j => h.arrayVal_eq hn, ?_, ?_⟩
  · intro maxi maxj tk hfits'
    obtain ⟨t'', hstep, h''⟩ := h.step junk hn hclip hfits'
    refine ⟨t'', hstep, fun i j hhas => ?_⟩
    obtain ⟨hhas', hval⟩ := Grid.has_step_define hhas maxi maxj tk
    rw [h''.arrayVal_eq hn hhas', h.arrayVal_eq hn hhas, hval]
  · intro x m m' op tk hop hcalc htop _ hhas
    rw [read_of_index hop hcalc htop, h.arrayVal_eq hn hhas]

theorem arrayRun_of_fitsAll_grown : ∃ t', (⟨[], []⟩ : Table ℤ).arrayRun (fun _ => true) 7 ['a']
      [.define 2 3 [.num 5], .assign 1 2 9, .define 3 4 []] = some t' ∧
    t'.arrayLimits ['a'] = some (2, 3) ∧ t'.arrayVal ['a'] 0 0 = 5 ∧ t'.arrayVal ['a'] 1 2 = 9 ∧
    t'.arrayVal ['a'] 2 3 = 0 := by
  obtain ⟨t', g, hrun, rfl, -, hlim, hval, -⟩ := arrayRun_of_fitsAll (fun _ => true) (7 : ℤ) (n := ['a'])
    (t := ⟨[], []⟩) (by decide) (by decide) (by simp) [.define 2 3 [.num 5], .assign 1 2 9, .define 3 4 []]
    ⟨.inr (.inr ⟨by decide, by decide, by decide, by simp [Init.Compiles, Grid.Absent, Grid.undefined]⟩), trivial,
      .inr (.inr ⟨by decide, by decide, by decide, by rw [if_neg (by decide)]; decide⟩), trivial⟩
  exact ⟨t', hrun, hlim (by decide), hval 0 0 (by decide), hval 1 2 (by decide), hval 2 3 (by decide)⟩

/-- Two rows of three columns are defined again as three rows of two: the last row has no third column. And `a[0][1]`
with the value 5 is read as what the uninitialised `ans` holds. -/
theorem arrayRun_short_row :
    ((⟨[], []⟩ : Table ℤ).arrayRun (fun _ => true) 7 ['a'] [.define 2 3 [], .define 3 2 []]).map
      (fun t => (t.arrayLimits ['a'], t.arrayPtr ['a'] 2 2)) = some (some (2, 2), none) ∧
    ((⟨[], []⟩ : Table ℤ).arrayRun (fun _ => true) 7 ['a'] [.define 1 2 [.num 0, .num 5]]).map (fun t =>
        let x : Ext ℤ := { Ext.nothing with junk := 7, arrayVal := fun _ => t.arrayVal }
        let tok : ℕ → Tok ℤ := fun k =>
          if k = 0 then { Tok.fresh .array ['a'] with i := 0 }
          else if k = 1 then .fresh .int ['1']
          else .fresh .abrOpen ['[']
        let m : Mach ℤ := ⟨tok, fun k => if k = 1 then some 0 else none, fun _ => none, fun _ => none, none, none, none,
          none, some 1, [], 0, 0, []⟩
        (t.arrayVal ['a'] 0 1, (m.calcBasic x 2).map fun r => r.2.read x 0)) = some (5, some 7) := by
  decide

end Main
end Prj.Ddlus
