import Prj.Ddlus.Variable

/-! Copying variables and arrays (`vdup` in `ddlus/console/var.c`, `adup` in `array.c`). -/
namespace Prj.Ddlus

namespace Table
variable {F : Type} (compiles : List Char → Bool) (junk : F) (dst src : List Char)

section Model
/-- The source element at `old` is copied to `new`; `none` if there is none. -/
def copyElem (old new : ℤ × ℤ) (t : Table F) : Option (Table F) :=
  match (t.arrayPtr src old.1 old.2).bind (t.vars[·]?) with
  | none => none
  | some var =>
    let (_, t) := t.createVar dst compiles junk .array new.1 new.2 var.exp
    some (t.setArrayval dst new.1 new.2 var.val).2

/-- A loop of `adup` over `k`, which stops at the first element that is not there. -/
def copyLoop (old new : ℤ → ℤ × ℤ) : ℕ → ℤ → Table F → Table F
  | 0, _, t => t
  | n + 1, k, t =>
    match copyElem compiles junk dst src (old k) (new k) t with
    | none => t
    | some t => copyLoop old new n (k + 1) t

/-- The loop over the rows; `break` leaves only the inner loop. -/
def copyRows (jmax : ℕ) : ℕ → ℤ → Table F → Table F
  | 0, _, t => t
  | n + 1, i, t => copyRows jmax n (i + 1) (copyLoop compiles junk dst src (i, ·) (i, ·) jmax 0 t)

def adup (t : Table F) (tkdst tksrc : Tok F) : Option (Bool × Table F) := do
  let (imax, jmax) ← t.arrayLimits tksrc.str
  let imax := (imax + 1).toNat
  let jmax := (jmax + 1).toNat
  let copy := copyLoop compiles junk tkdst.str tksrc.str
  if tksrc.i < 0 ∧ tksrc.j < 0 then
    return (true, copyRows compiles junk tkdst.str tksrc.str jmax imax 0 t)
  else if tksrc.i < 0 then return (true, copy (·, tksrc.j) (·, 0) imax 0 t)
  else if tksrc.j < 0 then return (true, copy (tksrc.i, ·) (0, ·) jmax 0 t)
  else return (true, t)

/-- `vdup`; the source is on top of the stack. -/
def vdup (t : Table F) : List (Tok F) → Option (Bool × Table F)
  | tksrc :: tkdst :: _ =>
    if tksrc.str = [] ∨ tkdst.str = [] then some (t.printe (.moreargs "vdup".toList))
    else if (t.varPtr tkdst.str).isSome then some (t.printe (.exist tkdst.str))
    else match (t.varPtr tksrc.str).bind (t.vars[·]?) with
      | none => some (t.printe (.badarg tksrc.str))
      | some var =>
        if var.type = .array then adup compiles junk t tkdst tksrc
        else
          let (_, t) := t.createVar tkdst.str compiles junk .norm (-1) (-1) var.exp
          some (true, (t.setVarval tkdst.str var.val).2)
  | _ => some (t.printe (.moreargs "vdup".toList))

end Model
end Table

inductive Dims
  | one (rows : ℕ)
  | two (rows cols : ℕ)

def Dims.Has : Dims → ℤ → ℤ → Prop
  | .one rows, i, j => 0 ≤ i ∧ i < rows ∧ j = -1
  | .two rows cols, i, j => 0 ≤ i ∧ i < rows ∧ 0 ≤ j ∧ j < cols

/-- The array has elements, and all of them can be created. -/
def Dims.Allowed : Dims → Prop
  | .one rows => 0 < rows ∧ (rows : ℤ) ≤ maxArrayMembers + 1
  | .two rows cols => (0 < rows ∧ (rows : ℤ) ≤ maxArrayMembers + 1) ∧ 0 < cols ∧ (cols : ℤ) ≤ maxArrayMembers + 1

def Dims.limits : Dims → ℤ × ℤ
  | .one rows => (rows - 1, -1)
  | .two rows cols => (rows - 1, cols - 1)

section Dup
variable {F : Type} (compiles : List Char → Bool) (junk : F) {dst src : List Char} {t t' : Table F}
  {P Q R : ℤ → ℤ → Prop} {f : ℤ → ℤ → F} {i j : ℤ}

structure Copied (t t' : Table F) (dst src : List Char) (P Q : ℤ → ℤ → Prop) (f : ℤ → ℤ → F) : Prop where
  kept : ∃ new, t'.vars = t.vars ++ new
  source : Elems t' src P f
  copy : Elems t' dst Q f

theorem Copied.congr (h : Copied t t' dst src P Q f) (hQ : ∀ i j, Q i j ↔ R i j) : Copied t t' dst src P R f :=
  ⟨h.kept, h.source, h.copy.congr hQ fun _ _ _ => rfl⟩

variable (hdst : IsName dst) (hsrc : IsName src) (hne : dst ≠ src)
include hdst hsrc hne

section
variable (h : Copied t t' dst src P Q f)
include h

theorem copyElem_copied (hr : InRange i j) (hj : 0 ≤ j) (hP : P i j) (hQ : ¬Q i j) :
    ∃ t'', t'.copyElem compiles junk dst src (i, j) (i, j) = some t'' ∧
      Copied t t'' dst src P (fun i' j' => Q i' j' ∨ (i' = i ∧ j' = j)) f := by
  obtain ⟨A, v, B, ht, hA, hv, -, hval⟩ := h.source.exists_at hP (.inl hj)
  have hnew := h.copy.not_at hj hQ
  obtain ⟨new, hkept⟩ := h.kept
  refine ⟨{ t' with vars := t'.vars ++ [Table.cell dst i j v.exp v.val] }, ?_, ⟨new ++ [Table.cell dst i j v.exp v.val],
    ?_⟩, ?_, ?_⟩
  · rw [Table.copyElem, Table.arrayPtr_append hsrc hr hA hv ht, Option.bind_some, Table.getElem?_append_cons ht]
    simp only [Table.createVar_new hdst hr hnew, Table.setArrayval_cell hdst hr hnew]
  · rw [hkept, List.append_assoc]
  · exact h.source.append_of_ne hne
  · refine (h.copy.append hQ v.exp v.val).congr (fun _ _ => Iff.rfl) fun i' j' _ => ?_
    split
    · next heq => rw [heq.1, heq.2, hval]
    · rfl

theorem copyLoop_copied (n : ℕ) (hj : 0 ≤ j) (hrow : ∀ j', j ≤ j' → j' < j + n → InRange i j' ∧ P i j' ∧ ¬Q i j') :
    Copied t (t'.copyLoop compiles junk dst src (i, ·) (i, ·) n j) dst src P
      (fun i' j' => Q i' j' ∨ (i' = i ∧ j ≤ j' ∧ j' < j + n)) f := by
  induction n generalizing t' Q j with
  | zero => exact h.congr fun i' j' => (or_iff_left (by omega)).symm
  | succ n ih =>
    obtain ⟨hr, hP, hQ⟩ := hrow j (by omega) (by omega)
    obtain ⟨t'', hstep, hcopied⟩ := copyElem_copied compiles junk hdst hsrc hne h hr hj hP hQ
    rw [Table.copyLoop, hstep]
    refine (ih hcopied (by omega) fun j' hle hlt => ?_).congr fun i' j' => ?_
    · obtain ⟨hr', hP', hQ'⟩ := hrow j' (by omega) (by omega)
      exact ⟨hr', hP', not_or.2 ⟨hQ', by omega⟩⟩
    · rw [or_assoc]
      exact or_congr_right (by omega)

theorem copyRows_copied (cols n : ℕ)
    (hrows : ∀ i' j' : ℤ, i ≤ i' → i' < i + n → 0 ≤ j' → j' < cols → InRange i' j' ∧ P i' j' ∧ ¬Q i' j') :
    Copied t (t'.copyRows compiles junk dst src cols n i) dst src P
      (fun i' j' => Q i' j' ∨ (i ≤ i' ∧ i' < i + n ∧ 0 ≤ j' ∧ j' < cols)) f := by
  induction n generalizing t' Q i with
  | zero => exact h.congr fun i' j' => (or_iff_left (by omega)).symm
  | succ n ih =>
    have hrow := copyLoop_copied compiles junk hdst hsrc hne h cols (Int.le_refl 0)
      fun j' hle hlt => hrows i j' (by omega) (by omega) hle (by omega)
    refine (ih hrow fun i' j' hle hlt hle' hlt' => ?_).congr fun i' j' => ?_
    · obtain ⟨hr', hP', hQ'⟩ := hrows i' j' (by omega) (by omega) hle' hlt'
      exact ⟨hr', hP', not_or.2 ⟨hQ', by omega⟩⟩
    · rw [or_assoc]
      exact or_congr_right (by omega)

end

omit hdst hsrc hne in
theorem copyRows_zero (n : ℕ) (i : ℤ) : t.copyRows compiles junk dst src 0 n i = t := by
  induction n generalizing i with
  | zero => rfl
  | succ n ih => exact ih (i + 1)

omit hdst hsrc hne in
theorem Dims.exists_has (dims : Dims) (h : dims.Allowed) : ∃ i j, dims.Has i j := by
  cases dims with
  | one rows => exact ⟨0, -1, Int.le_refl 0, by exact_mod_cast h.1, rfl⟩
  | two rows cols => exact ⟨0, 0, Int.le_refl 0, by exact_mod_cast h.1.1, Int.le_refl 0, by exact_mod_cast h.2.1⟩

omit hsrc hne in
theorem varPtr_eq_none (hnew : ∀ v ∈ t.vars, v.name ≠ dst) : t.varPtr dst = none := by
  rw [Table.varPtr_eq hdst, List.findIdx?_eq_none_iff.2 (by simpa using hnew), ite_self]

omit hdst hne in
theorem arrayLimits_dims (dims : Dims) (h : Elems t src dims.Has f) (hdims : dims.Allowed) :
    t.arrayLimits src = some dims.limits := by
  cases dims with
  | one rows =>
    have hpos := hdims.1
    apply h.arrayLimits_eq hsrc
    · intro i j hij
      obtain ⟨-, hi, hj⟩ := hij
      exact ⟨by omega, by omega⟩
    · exact ⟨-1, by omega, by omega, rfl⟩
    · exact ⟨0, by omega, by omega, rfl⟩
  | two rows cols =>
    have hrows := hdims.1.1
    have hcols := hdims.2.1
    apply h.arrayLimits_eq hsrc
    · intro i j hij
      obtain ⟨-, hi, -, hj⟩ := hij
      exact ⟨by omega, by omega⟩
    all_goals exact ⟨0, by omega, by omega, by omega, by omega⟩

omit hsrc hne in
theorem ne_nil_of_isName : dst ≠ [] := by
  rintro rfl
  simp [IsName] at hdst

omit hne in
theorem vdup_eq_adup {tksrc tkdst : Tok F} (stack : List (Tok F)) (h : Elems t src P f) (hP : ∃ i j, P i j)
    (hclip : src ≠ clipVarName) (hnew : ∀ v ∈ t.vars, v.name ≠ dst) (hs : tksrc.str = src) (hd : tkdst.str = dst) :
    t.vdup compiles junk (tksrc :: tkdst :: stack) = t.adup compiles junk tkdst tksrc := by
  obtain ⟨i, j, hP⟩ := hP
  obtain ⟨v0, hv0, hname, -⟩ := (h.mem_iff i j).2 hP
  obtain ⟨A, v, B, ht, hA, hv⟩ := Table.exists_first (·.name = src) ⟨v0, hv0, hname⟩
  have hfound : t.varPtr src = some A.length := by
    rw [Table.varPtr_eq hsrc, if_neg hclip, ht]
    exact Base.findIdx?_append_cons (by simpa using hA) (by simpa using hv)
  have htype : v.type = .array := h.type_eq v (ht ▸ by simp) hv
  rw [Table.vdup, hs, hd, if_neg (not_or.2 ⟨ne_nil_of_isName hsrc, ne_nil_of_isName hdst⟩), varPtr_eq_none hdst hnew,
    if_neg (by simp), hfound, Option.bind_some, Table.getElem?_append_cons ht]
  simp only [if_pos htype]

omit hdst hsrc hne in
/-- Only arrays with two dimensions are copied. -/
theorem vdup_iff (dims : Dims) (tksrc tkdst : Tok F) (stack : List (Tok F)) (h : Elems t tksrc.str dims.Has f)
    (hdims : dims.Allowed) (hsrc : IsName tksrc.str) (hwhole : tksrc.i < 0 ∧ tksrc.j < 0) (hdst : IsName tkdst.str)
    (hnew : ∀ v ∈ t.vars, v.name ≠ tkdst.str) :
    (∃ t', t.vdup compiles junk (tksrc :: tkdst :: stack) = some (true, t') ∧
      Copied t t' tkdst.str tksrc.str dims.Has dims.Has f) ↔
    (∃ rows cols, dims = .two rows cols) ∧ tksrc.str ≠ clipVarName := by
  obtain ⟨i, j, hhas⟩ := dims.exists_has hdims
  obtain ⟨v, hv, hname, -⟩ := (h.mem_iff i j).2 hhas
  have hne : tkdst.str ≠ tksrc.str := fun heq => hnew v hv (hname.trans heq.symm)
  by_cases hclip : tksrc.str = clipVarName
  · have hnone : t.varPtr tksrc.str = none := by rw [Table.varPtr_eq hsrc, if_pos hclip]
    rw [Table.vdup, if_neg (not_or.2 ⟨ne_nil_of_isName hsrc, ne_nil_of_isName hdst⟩), varPtr_eq_none hdst hnew,
      if_neg (by simp), hnone]
    refine iff_of_false ?_ fun h => h.2 hclip
    rintro ⟨t', hprinte, -⟩
    cases hprinte
  · rw [vdup_eq_adup compiles junk hdst hsrc stack h ⟨i, j, hhas⟩ hclip hnew rfl rfl, Table.adup,
      arrayLimits_dims hsrc dims h hdims]
    simp only [Option.bind_eq_bind, Option.bind_some, if_pos hwhole]
    cases dims with
    | one rows =>
      refine iff_of_false ?_ ?_
      · rintro ⟨t', ht', hcopied⟩
        rw [show ((Dims.one rows).limits.2 + 1).toNat = 0 from rfl, copyRows_zero] at ht'
        cases ht'
        obtain ⟨v, hv, hname, -⟩ := (hcopied.copy.mem_iff i j).2 hhas
        exact hnew v hv hname
      · rintro ⟨⟨rows, cols, hdims⟩, -⟩
        cases hdims
    | two rows cols =>
      refine iff_of_true ⟨_, rfl, ?_⟩ ⟨⟨rows, cols, rfl⟩, hclip⟩
      have hstart : Copied t t tkdst.str tksrc.str (Dims.two rows cols).Has (fun _ _ => False) f :=
        ⟨⟨[], (List.append_nil _).symm⟩, h, elems_of_new hnew f⟩
      have hrows : ((rows : ℤ) - 1 + 1).toNat = rows := by omega
      have hcols : ((cols : ℤ) - 1 + 1).toNat = cols := by omega
      simp only [Dims.limits, hrows, hcols]
      refine (copyRows_copied compiles junk hdst hsrc hne hstart cols rows ?_).congr ?_
      · intro i' j' hi hi' hj hj'
        have hr := hdims.1.2
        have hc := hdims.2.2
        exact ⟨⟨hi, by omega, by omega⟩, ⟨hi, by omega, hj, hj'⟩, not_false⟩
      · intro i' j'
        rw [false_or, Int.zero_add]
        rfl

end Dup

section Example
def single (j : ℤ) : Table ℤ := ⟨[Table.cell ['a'] 0 j [] 5], []⟩

theorem elems_single (j : ℤ) : Elems (single j) ['a'] (fun i' j' => i' = 0 ∧ j' = j) (fun _ _ => 5) :=
  ((elems_of_new (t := ⟨[], []⟩) (by simp) fun _ _ => 5).append not_false [] 5).congr (fun _ _ => .of_eq (false_or _))
    fun _ _ _ => ite_self _

def square : Table ℤ :=
  ⟨[Table.cell ['a'] 0 0 [] 5, Table.cell ['a'] 0 1 [] 6, Table.cell ['a'] 1 0 [] 7, Table.cell ['a'] 1 1 [] 8], []⟩

theorem elems_square : Elems square ['a'] (Dims.two 2 2).Has fun i j => 5 + 2 * i + j := by
  have hnew : Elems (⟨[], []⟩ : Table ℤ) ['a'] (fun _ _ => False) fun _ _ => 0 := elems_of_new (by simp) _
  have hfirst := (hnew.append (i := 0) (j := 0) not_false [] 5).append (i := 0) (j := 1) (by simp) [] 6
  refine ((hfirst.append (i := 1) (j := 0) (by simp) [] 7).append (i := 1) (j := 1) (by simp) [] 8).congr
    (fun i j => ?_) fun i j h => ?_
  · simp only [Dims.Has, false_or]
    omega
  · simp only [false_or] at h
    split_ifs <;> omega

theorem vdup_iff_square : ∃ t', square.vdup (fun _ => true) 0 [Tok.fresh .array ['a'], Tok.fresh .var ['b']] =
    some (true, t') ∧ Copied square t' ['b'] ['a'] (Dims.two 2 2).Has (Dims.two 2 2).Has fun i j => 5 + 2 * i + j :=
  (vdup_iff (fun _ => true) 0 (.two 2 2) (Tok.fresh .array ['a']) (Tok.fresh .var ['b']) [] elems_square
    ⟨⟨by decide, by decide⟩, by decide, by decide⟩ (by decide) (by decide) (by decide) (by decide)).2
    ⟨⟨2, 2, rfl⟩, by decide⟩

/-- An array with one dimension: nothing is copied, and no error is reported. -/
theorem vdup_one_dim : Elems (single (-1)) ['a'] (Dims.one 1).Has (fun _ _ => 5) ∧
    (single (-1)).vdup (fun _ => true) 0 [Tok.fresh .array ['a'], Tok.fresh .var ['b']] = some (true, single (-1)) :=
  ⟨(elems_single (-1)).congr (fun i j => by simp only [Dims.Has]; omega) fun _ _ _ => rfl, by decide⟩

end Example
end Prj.Ddlus
