import Prj.Base.CString
import Prj.Ddlus.Token

/-!
Variables and array elements in the list of a session (`var.c` and `array.c` of `ddlus/console`).

The session has no forks and no clipboard. Whether the text of a variable can be compiled is taken as it comes.
-/
namespace Prj.Ddlus
open List Option

deriving instance DecidableEq for Var

/-- `struct variable`; `j` is negative unless it is an element of an array with two dimensions. -/
structure Variable (F : Type) extends Var F where
  j : ℤ
  exp : List Char
  deriving DecidableEq

def maxArrayMembers : ℤ := 10000

/-- The name behind `@`; a second `@` names a fork. -/
def ownName : List Char → Option (List Char)
  | '@' :: rest => if '@' ∈ rest then none else some rest
  | name => some name

/-- `isalpha(*name) || *name == '_'` -/
def IsName (name : List Char) : Prop := (name.head?.any fun c => c.isAlpha || c = '_') = true

instance : DecidablePred IsName := fun name =>
  inferInstanceAs (Decidable ((name.head?.any fun c => c.isAlpha || c = '_') = true))

/-- Messages of `printe`, with what stands in their brackets. -/
inductive ArrayMsg
  | moreargs (s : List Char)
  | badarg (s : List Char)
  | exist (s : List Char)
  | range (s : List Char)
  | format (s : List Char)
  | forbid (s : List Char)
  | baduse (s : List Char)
  | notfound (s : List Char)
  | anotfound (s : List Char) (i j : ℤ)
  deriving DecidableEq

/-- The variables of a session and what was printed, the last message first. -/
structure Table (F : Type) where
  vars : List (Variable F)
  out : List ArrayMsg
  deriving DecidableEq

variable {F : Type}

/-- `var->type == VAR_SYS || var->type == VAR_CTL || var->flags & VARF_LOCK` -/
def Variable.Protected (v : Variable F) : Prop := v.type = .sys ∨ v.type = .ctl ∨ v.lock = true

instance : DecidablePred (Variable.Protected (F := F)) := fun v =>
  inferInstanceAs (Decidable (v.type = .sys ∨ v.type = .ctl ∨ v.lock = true))

namespace Table

/-- `printe(...); return false_;` -/
def printe (t : Table F) (msg : ArrayMsg) : Bool × Table F := (false, { t with out := msg :: t.out })

/-- `var->val = val` -/
def putVal (t : Table F) (k : ℕ) (val : F) : Table F :=
  { t with vars := t.vars.modify k fun v => { v with val } }

variable [Fnum F] (t : Table F) (name : List Char)

def varPtr : Option ℕ := Prj.Ddlus.varPtr (t.vars.map (·.toVar)) name

def setVarval (val : F) : Bool × Table F :=
  match (t.varPtr name).bind fun k => (t.vars[k]?).map (k, ·) with
  | none => t.printe (.notfound name)
  | some (k, v) =>
    if v.Protected then t.printe (.forbid name)
    else if v.type = .array then t.printe (.baduse name)
    else (true, t.putVal k val)

/-- `array_ptr`; a negative `jdx` stands for any column. -/
def arrayPtr (idx jdx : ℤ) : Option ℕ :=
  if idx < 0 ∨ idx > maxArrayMembers ∨ jdx > maxArrayMembers then none
  else (ownName name).bind fun n =>
    t.vars.findIdx? fun v => v.name = n ∧ v.i = idx ∧ (jdx > -1 → v.j = jdx)

def arrayVal (idx jdx : ℤ) : F :=
  match (t.arrayPtr name idx jdx).bind (t.vars[·]?) with
  | some v => v.val
  | none => Fnum.zero

def setArrayval (idx jdx : ℤ) (val : F) : Bool × Table F :=
  match (t.arrayPtr name idx jdx).bind fun k => (t.vars[k]?).map (k, ·) with
  | none => t.printe (.anotfound name idx jdx)
  | some (k, v) => if v.Protected then t.printe (.forbid name) else (true, t.putVal k val)

/-- The loop of `array_limits`. -/
def widen (vs : List (Variable F)) (lim : ℤ × ℤ) : ℤ × ℤ :=
  vs.foldl (fun lim v => if v.name = name then (max v.i lim.1, max v.j lim.2) else lim) lim

/-- `array_limits`; `none` if `*i` and `*j` are not set, or are set by the uninitialised `var` of a name with `@`. -/
def arrayLimits : Option (ℤ × ℤ) :=
  if name.head? = some '@' then none
  else match t.vars.dropWhile (·.name ≠ name) with
    | [] => none
    | v :: vs => some (widen name (v :: vs) (v.i, v.j))

/-- `create_var`; `junk` is what `malloc` leaves in `val`, and `compiles` the answer of `_precompile`. The variable that
the expression assigns to is not in the model. -/
def createVar (compiles : List Char → Bool) (junk : F) (type : VarType) (idx jdx : ℤ) (exp : List Char) :
    Bool × Table F :=
  if type = .array ∧ (idx < 0 ∨ idx > maxArrayMembers ∨ jdx > maxArrayMembers) then t.printe (.range name)
  else if (if type = .array then t.arrayPtr name idx jdx else t.varPtr name).isSome then (true, t)
  else if ¬IsName name then t.printe (.format name)
  else (exp = [] || compiles exp, { t with vars := t.vars ++ [⟨⟨name, type, false, junk, idx⟩, jdx, exp⟩] })

end Table

/-- What `array_ptr` looks for. -/
def Variable.At (n : List Char) (i j : ℤ) (v : Variable F) : Prop := v.name = n ∧ v.i = i ∧ (j > -1 → v.j = j)

instance (n : List Char) (i j : ℤ) : DecidablePred (Variable.At (F := F) n i j) := fun v =>
  inferInstanceAs (Decidable (v.name = n ∧ v.i = i ∧ (j > -1 → v.j = j)))

def InRange (i j : ℤ) : Prop := 0 ≤ i ∧ i ≤ maxArrayMembers ∧ j ≤ maxArrayMembers

namespace Table
variable {t : Table F} {n : List Char} {i j : ℤ} {A B : List (Variable F)} {v : Variable F}

theorem ownName_of_isName (hn : IsName n) : ownName n = some n := by
  unfold ownName
  split
  · simp [IsName] at hn
  · rfl

theorem varPtr_eq (hn : IsName n) : t.varPtr n = if n = clipVarName then none else t.vars.findIdx? (·.name = n) := by
  unfold varPtr Prj.Ddlus.varPtr
  split
  · simp [IsName] at hn
  · simp only [findIdx?_map]
    rfl

section
variable (hn : IsName n) (h : InRange i j)
include hn h

theorem arrayPtr_eq : t.arrayPtr n i j = t.vars.findIdx? fun v => v.At n i j := by
  have hrange : ¬(i < 0 ∨ i > maxArrayMembers ∨ j > maxArrayMembers) := by
    unfold InRange at h
    omega
  rw [arrayPtr, if_neg hrange, ownName_of_isName hn]
  rfl

theorem arrayPtr_eq_none (hnone : ∀ v ∈ t.vars, ¬v.At n i j) : t.arrayPtr n i j = none := by
  rw [arrayPtr_eq hn h]
  simpa using hnone

theorem arrayPtr_append (hA : ∀ w ∈ A, ¬w.At n i j) (hv : v.At n i j)
    (ht : t.vars = A ++ v :: B) : t.arrayPtr n i j = some A.length := by
  rw [arrayPtr_eq hn h, ht]
  exact Base.findIdx?_append_cons (by simpa using hA) (by simpa using hv)

end

theorem getElem?_append_cons (ht : t.vars = A ++ v :: B) : t.vars[A.length]? = some v := by
  rw [ht]
  simp

theorem exists_first (p : Variable F → Prop) [DecidablePred p] (h : ∃ v ∈ A, p v) :
    ∃ B v C, A = B ++ v :: C ∧ (∀ w ∈ B, ¬p w) ∧ p v := by
  cases hfind : A.find? p with
  | none =>
    obtain ⟨v, hv, hp⟩ := h
    exact absurd hp (by simpa using find?_eq_none.1 hfind v hv)
  | some v =>
    obtain ⟨hv, B, C, hA, hB⟩ := find?_eq_some_iff_append.1 hfind
    exact ⟨B, v, C, hA, by simpa using hB, by simpa using hv⟩

section
variable (hn : IsName n) (h : InRange i j) (hA : ∀ w ∈ A, ¬w.At n i j) (hv : v.At n i j) (ht : t.vars = A ++ v :: B)
include hn h hA hv ht

theorem setArrayval_append (hprot : ¬v.Protected) (val : F) :
    t.setArrayval n i j val = (true, { t with vars := A ++ { v with val } :: B }) := by
  rw [setArrayval, arrayPtr_append hn h hA hv ht, bind_some, getElem?_append_cons ht, map_some]
  simp only [if_neg hprot, putVal, ht, modify_eq_take_drop, take_left, drop_left]
  rfl

theorem arrayVal_append [Fnum F] : t.arrayVal n i j = v.val := by
  rw [arrayVal, arrayPtr_append hn h hA hv ht, bind_some, getElem?_append_cons ht]

end

def cell (n : List Char) (i j : ℤ) (exp : List Char) (val : F) : Variable F := ⟨⟨n, .array, false, val, i⟩, j, exp⟩

variable {compiles : List Char → Bool} {junk val : F} {exp : List Char}

section
variable (hn : IsName n) (h : InRange i j) (hnew : ∀ v ∈ t.vars, ¬v.At n i j)
include hn h hnew

theorem createVar_new : t.createVar n compiles junk .array i j exp =
      (exp = [] || compiles exp, { t with vars := t.vars ++ [cell n i j exp junk] }) := by
  have hrange : ¬(i < 0 ∨ i > maxArrayMembers ∨ j > maxArrayMembers) := by
    unfold InRange at h
    omega
  rw [createVar, if_neg (fun hbad => hrange hbad.2), arrayPtr_eq_none hn h hnew, if_neg (not_not.2 hn)]
  rfl

theorem setArrayval_cell : { t with vars := t.vars ++ [cell n i j exp junk] }.setArrayval n i j val =
      (true, { t with vars := t.vars ++ [cell n i j exp val] }) :=
  setArrayval_append (v := cell n i j exp junk) hn h hnew ⟨rfl, rfl, fun _ => rfl⟩ rfl
    (by simp [Variable.Protected, cell]) val

end
end Table

section Elems
/-- The elements of the array `n`: one for each index with `P`, with the values of `f`. -/
structure Elems (t : Table F) (n : List Char) (P : ℤ → ℤ → Prop) (f : ℤ → ℤ → F) : Prop where
  type_eq : ∀ v ∈ t.vars, v.name = n → v.type = .array
  nodup : ((t.vars.filter (·.name = n)).map fun v => (v.i, v.j)).Nodup
  mem_iff : ∀ i j, (∃ v ∈ t.vars, v.name = n ∧ v.i = i ∧ v.j = j) ↔ P i j
  val_eq : ∀ v ∈ t.vars, v.name = n → v.val = f v.i v.j

variable {t : Table F} {n : List Char} {P Q : ℤ → ℤ → Prop} {f g : ℤ → ℤ → F} {i j : ℤ} {exp : List Char} {val : F}
  {v : Variable F}

theorem Elems.congr (h : Elems t n P f) (hP : ∀ i j, P i j ↔ Q i j) (hf : ∀ i j, P i j → f i j = g i j) :
    Elems t n Q g where
  type_eq := h.type_eq
  nodup := h.nodup
  mem_iff i j := (h.mem_iff i j).trans (hP i j)
  val_eq v hv hname := (h.val_eq v hv hname).trans (hf _ _ ((h.mem_iff _ _).1 ⟨v, hv, hname, rfl, rfl⟩))

theorem elems_of_new (hnew : ∀ v ∈ t.vars, v.name ≠ n) (f : ℤ → ℤ → F) : Elems t n (fun _ _ => False) f where
  type_eq v hv hname := absurd hname (hnew v hv)
  nodup := by
    rw [filter_eq_nil_iff.2 (by simpa using hnew)]
    exact nodup_nil
  mem_iff i j := ⟨fun ⟨v, hv, hname, _⟩ => hnew v hv hname, False.elim⟩
  val_eq v hv hname := absurd hname (hnew v hv)

section
variable (h : Elems t n P f)
include h

theorem Elems.append (hP : ¬P i j) (exp : List Char) (val : F) :
    Elems { t with vars := t.vars ++ [Table.cell n i j exp val] } n (fun i' j' => P i' j' ∨ (i' = i ∧ j' = j))
      (fun i' j' => if i' = i ∧ j' = j then val else f i' j') where
  type_eq v hv hname := by
    rcases mem_append.1 hv with hv | hv
    · exact h.type_eq v hv hname
    · rw [mem_singleton.1 hv]
      rfl
  nodup := by
    rw [filter_append, map_append, filter_cons_of_pos (by simp [Table.cell]), filter_nil, nodup_append]
    refine ⟨h.nodup, nodup_cons.2 ⟨not_mem_nil, nodup_nil⟩, ?_⟩
    intro p hp q hq heq
    obtain ⟨v, hv, rfl⟩ := mem_map.1 hp
    obtain ⟨hv, hname⟩ := mem_filter.1 hv
    rw [mem_singleton.1 hq, Prod.mk.injEq] at heq
    exact hP ((h.mem_iff i j).1 ⟨v, hv, by simpa using hname, heq.1, heq.2⟩)
  mem_iff i' j' := by
    rw [← h.mem_iff i' j']
    simp only [mem_append, mem_singleton, or_and_right, exists_or, exists_eq_left]
    exact or_congr_right ⟨fun hcell => ⟨hcell.2.1.symm, hcell.2.2.symm⟩, fun heq => ⟨rfl, heq.1.symm, heq.2.symm⟩⟩
  val_eq v hv hname := by
    rcases mem_append.1 hv with hv | hv
    · rw [if_neg fun heq => hP ((h.mem_iff i j).1 ⟨v, hv, hname, heq.1, heq.2⟩)]
      exact h.val_eq v hv hname
    · rw [mem_singleton.1 hv, if_pos ⟨rfl, rfl⟩]
      rfl

theorem Elems.append_of_ne (hne : v.name ≠ n) : Elems { t with vars := t.vars ++ [v] } n P f where
  type_eq w hw hname := by
    rcases mem_append.1 hw with hw | hw
    · exact h.type_eq w hw hname
    · exact absurd (mem_singleton.1 hw ▸ hname) hne
  nodup := by
    rw [filter_append, filter_cons_of_neg (by simpa using hne), filter_nil, append_nil]
    exact h.nodup
  mem_iff i j := by
    rw [← h.mem_iff i j]
    simp only [mem_append, mem_singleton, or_and_right, exists_or, exists_eq_left]
    exact or_iff_left fun hv => hne hv.1
  val_eq w hw hname := by
    rcases mem_append.1 hw with hw | hw
    · exact h.val_eq w hw hname
    · exact absurd (mem_singleton.1 hw ▸ hname) hne

theorem Elems.not_at (hj : 0 ≤ j) (hP : ¬P i j) : ∀ v ∈ t.vars, ¬v.At n i j := by
  intro v hv hat
  exact hP ((h.mem_iff i j).1 ⟨v, hv, hat.1, hat.2.1, hat.2.2 (by omega)⟩)

theorem Elems.exists_at (hP : P i j) (hj : 0 ≤ j ∨ ∀ j', P i j' → j' = j) :
    ∃ A v B, t.vars = A ++ v :: B ∧ (∀ w ∈ A, ¬w.At n i j) ∧ v.At n i j ∧ v.j = j ∧ v.val = f i j := by
  obtain ⟨v0, hv0, hname, rfl, rfl⟩ := (h.mem_iff i j).2 hP
  obtain ⟨A, v, B, ht, hA, hv⟩ := Table.exists_first (Variable.At n v0.i v0.j) ⟨v0, hv0, hname, rfl, fun _ => rfl⟩
  have hmem : v ∈ t.vars := ht ▸ by simp
  have hvj : v.j = v0.j := by
    rcases hj with hj | hj
    · exact hv.2.2 (by omega)
    · exact hj v.j ((h.mem_iff _ _).1 ⟨v, hmem, hv.1, hv.2.1, rfl⟩)
  refine ⟨A, v, B, ht, hA, hv, hvj, ?_⟩
  rw [h.val_eq v hmem hv.1, hv.2.1, hvj]

theorem Elems.arrayVal_eq [Fnum F] (hn : IsName n) (hr : InRange i j) (hP : P i j)
    (hj : 0 ≤ j ∨ ∀ j', P i j' → j' = j) : t.arrayVal n i j = f i j := by
  obtain ⟨A, v, B, ht, hA, hv, -, hval⟩ := h.exists_at hP hj
  rw [Table.arrayVal_append hn hr hA hv ht, hval]

end

theorem Table.widen_le_iff (vs : List (Variable F)) (lim : ℤ × ℤ) (a b : ℤ) :
    ((Table.widen n vs lim).1 ≤ a ∧ (Table.widen n vs lim).2 ≤ b) ↔
      (lim.1 ≤ a ∧ lim.2 ≤ b) ∧ ∀ v ∈ vs, v.name = n → v.i ≤ a ∧ v.j ≤ b := by
  induction vs generalizing lim with
  | nil => simp [widen]
  | cons v vs ih =>
    have hcons : widen n (v :: vs) lim = widen n vs (if v.name = n then (max v.i lim.1, max v.j lim.2) else lim) := rfl
    rw [hcons, ih, forall_mem_cons]
    by_cases hv : v.name = n
    · rw [if_pos hv, Int.max_le, Int.max_le]
      constructor
      · rintro ⟨⟨⟨hvi, hi⟩, hvj, hj⟩, hvs⟩
        exact ⟨⟨hi, hj⟩, fun _ => ⟨hvi, hvj⟩, hvs⟩
      · rintro ⟨⟨hi, hj⟩, hv', hvs⟩
        exact ⟨⟨⟨(hv' hv).1, hi⟩, (hv' hv).2, hj⟩, hvs⟩
    · simp [hv]

theorem Table.arrayLimits_eq (hn : IsName n) (h : ∃ v ∈ t.vars, v.name = n) : ∃ r, t.arrayLimits n = some r ∧
      ∀ a b, (r.1 ≤ a ∧ r.2 ≤ b) ↔ ∀ v ∈ t.vars, v.name = n → v.i ≤ a ∧ v.j ≤ b := by
  obtain ⟨A, v, B, ht, hA, hv⟩ := exists_first (·.name = n) h
  have hdrop : t.vars.dropWhile (·.name ≠ n) = v :: B := by
    rw [ht, dropWhile_append_of_pos (by simpa using hA), dropWhile_cons_of_neg (by simp [hv])]
  refine ⟨widen n (v :: B) (v.i, v.j), ?_, fun a b => ?_⟩
  · have hhead : n.head? ≠ some '@' := by
      intro hat
      rw [IsName, hat] at hn
      exact absurd hn (by decide)
    rw [arrayLimits, if_neg hhead, hdrop]
  · rw [widen_le_iff, ht, and_iff_right_of_imp fun hall => hall v mem_cons_self hv]
    constructor
    · intro hall w hw hname
      rcases mem_append.1 hw with hw | hw
      · exact absurd hname (hA w hw)
      · exact hall w hw hname
    · exact fun hall w hw => hall w (mem_append_right _ hw)

theorem Elems.arrayLimits_eq (h : Elems t n P f) (hn : IsName n) (hmax : ∀ i' j', P i' j' → i' ≤ i ∧ j' ≤ j)
    (hi : ∃ j', P i j') (hj : ∃ i', P i' j) : t.arrayLimits n = some (i, j) := by
  obtain ⟨j', hi⟩ := hi
  obtain ⟨i', hj⟩ := hj
  obtain ⟨v, hv, hname, hvi, -⟩ := (h.mem_iff i j').2 hi
  obtain ⟨w, hw, hwname, -, hwj⟩ := (h.mem_iff i' j).2 hj
  obtain ⟨r, hr, hle⟩ := Table.arrayLimits_eq hn ⟨v, hv, hname⟩
  have hbound := (hle r.1 r.2).1 ⟨Int.le_refl _, Int.le_refl _⟩
  have hupper := (hle i j).2 fun v hv hname => hmax _ _ ((h.mem_iff _ _).1 ⟨v, hv, hname, rfl, rfl⟩)
  have hlowi := (hbound v hv hname).1
  have hlowj := (hbound w hw hwname).2
  rw [hr, some_inj]
  exact Prod.ext (by omega) (by omega)

theorem Elems.set {A B : List (Variable F)} (h : Elems t n P f) (ht : t.vars = A ++ v :: B)
    (hv : v.name = n) (val : F) : Elems { t with vars := A ++ { v with val } :: B } n P
      (fun i j => if i = v.i ∧ j = v.j then val else f i j) := by
  have hindex : ((A ++ { v with val } :: B).filter (·.name = n)).map (fun w => (w.i, w.j)) =
      (t.vars.filter (·.name = n)).map fun w => (w.i, w.j) := by
    rw [ht, filter_append, filter_append, filter_cons_of_pos (by simpa using hv),
      filter_cons_of_pos (by simpa using hv), map_append, map_append]
    rfl
  have hother : ∀ w ∈ A ++ B, w.name = n → ¬(w.i = v.i ∧ w.j = v.j) := by
    intro w hw hname heq
    have hnodup := h.nodup
    rw [ht, filter_append, filter_cons_of_pos (by simpa using hv), map_append, map_cons,
      perm_middle.nodup_iff, ← map_append, ← filter_append, nodup_cons] at hnodup
    refine hnodup.1 (mem_map.2 ⟨w, mem_filter.2 ⟨hw, by simpa using hname⟩, ?_⟩)
    rw [heq.1, heq.2]
  have hmem : ∀ w, w ∈ A ++ { v with val } :: B → w.name = n → w = { v with val } ∨
      (w ∈ t.vars ∧ ¬(w.i = v.i ∧ w.j = v.j)) := by
    intro w hw hname
    obtain rfl | hw : w = { v with val } ∨ w ∈ A ++ B := by simpa [or_left_comm] using hw
    · exact .inl rfl
    · refine .inr ⟨?_, hother w hw hname⟩
      rw [ht, mem_append, mem_cons]
      exact (mem_append.1 hw).imp_right .inr
  refine ⟨fun w hw hname => ?_, hindex ▸ h.nodup, fun i j => ?_, fun w hw hname => ?_⟩
  · obtain rfl | hw := hmem w hw hname
    · exact h.type_eq v (ht ▸ by simp) hv
    · exact h.type_eq w hw.1 hname
  · have hmap : ∀ vs : List (Variable F), (∃ w ∈ vs, w.name = n ∧ w.i = i ∧ w.j = j) ↔
        (i, j) ∈ (vs.filter (·.name = n)).map fun w => (w.i, w.j) := by
      simp [and_assoc]
    rw [hmap, hindex, ← hmap, h.mem_iff]
  · obtain rfl | ⟨hw, hne⟩ := hmem w hw hname
    · exact (if_pos ⟨rfl, rfl⟩).symm
    · rw [if_neg hne]
      exact h.val_eq w hw hname

end Elems
end Prj.Ddlus
