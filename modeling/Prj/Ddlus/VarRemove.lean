import Prj.Base.Trail
import Prj.Ddlus.Variable

/-!
Removing variables (`rm_var` and `clear_all_vars` in `ddlus/console/var.c`).

Here the list is one of nodes in a memory. A result `none` is a call that reads or writes through a pointer that
designates no variable, or does not return.
-/
namespace Prj.Ddlus.VarRemove
open Prj.Base Function List Option

section Model
variable {L F : Type} [DecidableEq L]

/-- The memory of the variables, `vfirst` and `vlast`. -/
structure Vars (L F : Type) where
  heap : L → Option (Node L (Variable F))
  vfirst : Option L
  vlast : Option L

namespace Vars

/-- The loop of `var_ptr`, with `*prev`. -/
def find (n : List Char) (heap : L → Option (Node L (Variable F))) :
    ℕ → Option L → Option L → Option (Option L × Option L)
  | 0, _, _ => none
  | _ + 1, none, prev => some (none, prev)
  | fuel + 1, some var, prev => do
    let nd ← heap var
    if nd.val.name = n then return (some var, prev) else find n heap fuel nd.next (some var)

def varPtr (fuel : ℕ) (s : Vars L F) (name : List Char) : Option (Option L × Option L) :=
  match ownName name with
  | none => some (none, none)
  | some n => if n = clipVarName then some (none, none) else find n s.heap fuel s.vfirst s.vfirst

/-- `prev->next = next` -/
def setNext (s : Vars L F) (prev : Option L) (next : Option L) : Option (Vars L F) := do
  let x ← prev
  let nd ← s.heap x
  return { s with heap := update s.heap x (some { nd with next }) }

def unlink (s : Vars L F) (var : L) (prev : Option L) : Option (Vars L F) := do
  let nd ← s.heap var
  let s ← if some var = s.vfirst then some { s with vfirst := nd.next }
    else if some var = s.vlast then (s.setNext prev none).map ({ · with vlast := prev })
    else if prev.isSome then s.setNext prev nd.next
    else some s
  return { s with heap := update s.heap var none }

/-- The loop of `rm_var`: the list, `found` and what is printed. -/
def rmLoop (name : List Char) : ℕ → Vars L F → Bool → Option (Vars L F × Bool × List Msg)
  | 0, _, _ => none
  | fuel + 1, s, found => do
    match ← s.varPtr (fuel + 1) name with
    | (none, _) => return (s, found, [])
    | (some var, prev) =>
      let nd ← s.heap var
      if nd.val.Protected then return (s, true, [.forbid name])
      else rmLoop name fuel (← s.unlink var prev) true

def rmVar (fuel : ℕ) (s : Vars L F) (name : List Char) : Option (Vars L F × Bool × List Msg) := do
  let (s, found, out) ← rmLoop name fuel s false
  return (s, found, if found then out else .notfound name :: out)

/-- The loop of `clear_all_vars`. -/
def clearLoop : ℕ → Vars L F → Option L → Option L → Option (Vars L F)
  | 0, _, _, _ => none
  | _ + 1, s, none, _ => some s
  | fuel + 1, s, some var, prev => do
    let nd ← s.heap var
    if nd.val.Protected then clearLoop fuel s nd.next (some var)
    else
      let s ← s.unlink var prev
      let last ← prev
      let nd ← s.heap last
      clearLoop fuel s nd.next prev

def clearAllVars (fuel : ℕ) (s : Vars L F) : Option (Vars L F) := clearLoop fuel s s.vfirst none

/-- The variables of the list, with their places; the last pointer designates the final one. -/
structure Holds (s : Vars L F) (vs : List (L × Variable F)) : Prop where
  trail : Trail s.heap s.vfirst vs none
  vlast : s.vlast = vs.getLast?.map Prod.fst

end Vars
end Model

variable {L F : Type} {s s' : Vars L F} {vs A B ws : List (L × Variable F)}
  {m : L → Option (Node L (Variable F))} {p : Option L}
  {x a : L} {v w : Variable F} {n name : List Char} {fuel : ℕ} {found f : Bool}

namespace Vars

theorem notMem_of_holds (h : Holds s (A ++ (a, v) :: (x, w) :: B)) : x ∉ (A ++ (a, v) :: B).map Prod.fst := by
  have hnodup := h.trail.nodup
  rw [← singleton_append, ← append_assoc, map_append, map_cons, nodup_middle, ← map_append, append_assoc] at hnodup
  exact (nodup_cons.1 hnodup).1

theorem find_skip (prev : Option L) (h : Trail m p A q) (hA : ∀ w ∈ A, w.2.name ≠ n) :
    find n m (fuel + A.length) p prev = find n m fuel q ((A.getLast?.map Prod.fst).or prev) := by
  induction A generalizing p prev with
  | nil =>
    obtain rfl : p = q := h
    rfl
  | cons b A ih =>
    obtain ⟨rfl, next, hm, hA'⟩ := h
    have hrest := ih (some b.1) hA' fun w hw => hA w (mem_cons_of_mem _ hw)
    rw [length_cons, ← Nat.add_assoc]
    simp only [find, hm, bind_eq_bind, bind_some, if_neg (hA b mem_cons_self), hrest]
    rw [getLast?_cons]
    cases A.getLast? with
    | none | some => rfl

theorem find_found (prev : Option L) (h : Trail m p (A ++ (x, v) :: B) none) (hA : ∀ w ∈ A, w.2.name ≠ n)
    (hx : v.name = n) (hfuel : A.length < fuel) :
    find n m fuel p prev = some (some x, (A.getLast?.map Prod.fst).or prev) := by
  obtain ⟨q, htrail, rfl, next, hm, -⟩ := trail_append.1 h
  obtain ⟨fuel, rfl⟩ := Nat.exists_eq_add_of_lt hfuel
  rw [Nat.add_assoc, Nat.add_comm, find_skip prev htrail hA]
  simp [find, hm, hx]

theorem find_none (prev : Option L) (h : Trail m p A none) (hA : ∀ w ∈ A, w.2.name ≠ n) (hfuel : A.length < fuel) :
    ∃ q, find n m fuel p prev = some (none, q) := by
  obtain ⟨fuel, rfl⟩ := Nat.exists_eq_add_of_lt hfuel
  exact ⟨_, by rw [Nat.add_assoc, Nat.add_comm, find_skip prev h hA]; rfl⟩

/-- The list after `rm_var`: the first protected variable of the name stops it. -/
def kept (n : List Char) : List (L × Variable F) → List (L × Variable F)
  | [] => []
  | p :: vs => if p.2.name ≠ n then p :: kept n vs else if p.2.Protected then p :: vs else kept n vs

theorem kept_append (hA : ∀ w ∈ A, w.2.name ≠ n) : kept n (A ++ B) = A ++ kept n B := by
  induction A with
  | nil => rfl
  | cons b A ih =>
    rw [cons_append, kept, if_pos (hA b mem_cons_self), ih fun w hw => hA w (mem_cons_of_mem _ hw), cons_append]

/-- The variables of the name are all gone if no unprotected one stands behind a protected one. -/
theorem kept_eq_filter_iff (n : List Char) (vs : List (L × Variable F)) :
    kept n vs = vs.filter (fun p => ¬(p.2.name = n ∧ ¬p.2.Protected)) ↔
      (vs.filter (·.2.name = n)).Pairwise fun p q => p.2.Protected → q.2.Protected := by
  induction vs with
  | nil => simp [kept]
  | cons p vs ih =>
    by_cases hn : p.2.name = n
    · by_cases hp : p.2.Protected
      · rw [kept, if_neg (not_not.2 hn), if_pos hp, filter_cons_of_pos (by simp [hp]),
          filter_cons_of_pos (by simp [hn]), pairwise_cons, cons_inj_right, eq_comm, filter_eq_self]
        constructor
        · intro h
          have hall : ∀ q ∈ vs.filter (·.2.name = n), q.2.Protected := by
            intro q hq
            obtain ⟨hmem, hname⟩ := mem_filter.1 hq
            by_contra hno
            exact of_decide_eq_true (h q hmem) ⟨of_decide_eq_true hname, hno⟩
          exact ⟨fun q hq _ => hall q hq, pairwise_of_forall_mem_list fun q _ r hr _ => hall r hr⟩
        · intro h q hq
          exact decide_eq_true fun hbad => hbad.2 (h.1 q (mem_filter.2 ⟨hq, decide_eq_true hbad.1⟩) hp)
      · rw [kept, if_neg (not_not.2 hn), if_neg hp, filter_cons_of_neg (by simp [hn, hp]),
          filter_cons_of_pos (by simp [hn]), pairwise_cons, ih]
        exact ⟨fun h => ⟨fun q _ hprot => absurd hprot hp, h⟩, And.right⟩
    · rw [kept, if_pos hn, filter_cons_of_pos (by simp [hn]), filter_cons_of_neg (by simp [hn]), cons_inj_right, ih]

theorem eq_head_of_trail (h : Trail m p vs none) : p = vs.head?.map Prod.fst := by
  cases vs with
  | nil => exact h
  | cons q vs => exact h.1

variable [DecidableEq L]

section Unlink
theorem unlink_holds (h : Holds s (A ++ (a, v) :: (x, w) :: B)) :
    ∃ s', s.unlink x (some a) = some s' ∧ Holds s' (A ++ (a, v) :: B) := by
  have hnotin := notMem_of_holds h
  have hvlast := h.vlast
  obtain ⟨q, hA, hq, next, ha, -, nx, hx, hB⟩ := trail_append.1 h.trail
  have hfirst : some x ≠ s.vfirst := by
    cases A with
    | nil =>
      rw [show s.vfirst = q from hA, hq]
      intro heq
      exact hnotin (by simp [some_inj.1 heq])
    | cons b A =>
      rw [hA.1]
      intro heq
      exact hnotin (by simp [some_inj.1 heq])
  have htrail := h.trail.unlink hx
  rcases eq_nil_or_concat B with rfl | ⟨B, b, rfl⟩
  · obtain rfl : nx = none := hB
    have hlast : some x = s.vlast := by simp [hvlast]
    refine ⟨⟨_, s.vfirst, some a⟩, ?_, htrail, by simp⟩
    rw [unlink, hx]
    simp only [bind_eq_bind, bind_some, if_neg hfirst, if_pos hlast, setNext, ha]
    rfl
  · have hend : ∀ C : List (L × Variable F), (A ++ (C ++ B.concat b)).getLast? = some b := by
      intro C
      rw [concat_eq_append, ← append_assoc, ← append_assoc, getLast?_concat]
    have hvlast' : s.vlast = some b.1 := hvlast.trans (congrArg _ (hend [(a, v), (x, w)]))
    have hlast : some x ≠ s.vlast := by
      rw [hvlast']
      intro heq
      exact hnotin (by simp [some_inj.1 heq])
    refine ⟨⟨_, s.vfirst, s.vlast⟩, ?_, htrail, hvlast'.trans (congrArg (Option.map Prod.fst) (hend [(a, v)])).symm⟩
    rw [unlink, hx]
    simp only [bind_eq_bind, bind_some, if_neg hfirst, if_neg hlast, setNext, ha, isSome_some, if_true]
    rfl

end Unlink

section Remove
theorem rmLoop_holds (hn : ownName name = some n) (hclip : n ≠ clipVarName) (h : Holds s vs)
    (hfirst : ∀ p ∈ vs.head?, p.2.Protected) (hfuel : vs.length < fuel) :
    ∃ s' f out, rmLoop name fuel s found = some (s', f, out) ∧ Holds s' (kept n vs) := by
  induction fuel generalizing s vs found with
  | zero => omega
  | succ fuel ih =>
    have hptr : s.varPtr (fuel + 1) name = find n s.heap (fuel + 1) s.vfirst s.vfirst := by
      simp [varPtr, hn, hclip]
    cases hfind : vs.find? (·.2.name = n) with
    | none =>
      have hA : ∀ w ∈ vs, w.2.name ≠ n := by simpa using hfind
      obtain ⟨q, hq⟩ := find_none s.vfirst h.trail hA hfuel
      have hkept : kept n vs = vs := by
        have happend := kept_append (B := []) hA
        rwa [kept, append_nil] at happend
      refine ⟨s, found, [], ?_, hkept.symm ▸ h⟩
      rw [rmLoop, hptr, hq]
      rfl
    | some p =>
      obtain ⟨hp, A, B, rfl, hA⟩ := find?_eq_some_iff_append.1 hfind
      have hp : p.2.name = n := by simpa using hp
      have hA : ∀ w ∈ A, w.2.name ≠ n := by simpa using hA
      have hlen : A.length < fuel + 1 := by
        rw [length_append] at hfuel
        omega
      obtain ⟨q, -, -, next, hx, -⟩ := trail_append.1 h.trail
      rw [kept_append hA, kept, if_neg (not_not.2 hp), rmLoop, hptr, find_found s.vfirst h.trail hA hp hlen]
      simp only [bind_eq_bind, bind_some, hx]
      by_cases hprot : p.2.Protected
      · rw [if_pos hprot, if_pos hprot]
        exact ⟨s, true, _, rfl, h⟩
      · rw [if_neg hprot, if_neg hprot]
        rcases eq_nil_or_concat A with rfl | ⟨A, b, rfl⟩
        · exact absurd (hfirst p rfl) hprot
        · rw [concat_eq_append, append_assoc] at h
          obtain ⟨s', hs', hholds⟩ := unlink_holds h
          have hlast : (A.concat b).getLast? = some b := by simp
          have hsplit : A.concat b ++ B = A ++ b :: B := by simp
          have hfirst' : ∀ p ∈ (A.concat b ++ B).head?, p.2.Protected := by
            rw [head?_append_of_ne_nil _ (by simp)] at hfirst ⊢
            exact hfirst
          rw [hlast, map_some, some_or, hs', ← kept_append hA]
          refine ih (hsplit ▸ hholds) hfirst' ?_
          rw [length_append, length_cons] at hfuel
          rw [length_append]
          omega

theorem rmLoop_none (h : ∀ n, ownName name = some n → n = clipVarName) :
    rmLoop name (fuel + 1) s found = some (s, found, []) := by
  have hptr : s.varPtr (fuel + 1) name = some (none, none) := by
    rw [varPtr]
    cases hn : ownName name with
    | none => rfl
    | some n => exact if_pos (h n hn)
  rw [rmLoop, hptr]
  rfl

end Remove

section Clear
theorem clearLoop_holds (h : Holds s (A ++ (a, v) :: B)) (hfuel : B.length < fuel) :
    ∃ s', clearLoop fuel s (B.head?.map Prod.fst) (some a) = some s' ∧
      Holds s' (A ++ (a, v) :: B.filter (·.2.Protected)) := by
  induction fuel generalizing s A a v B with
  | zero => omega
  | succ fuel ih =>
    cases B with
    | nil => exact ⟨s, rfl, h⟩
    | cons p B =>
      obtain ⟨q, -, -, -, -, -, next, hx, hB⟩ := trail_append.1 h.trail
      rw [head?_cons, map_some, clearLoop, hx]
      simp only [bind_eq_bind, bind_some]
      by_cases hprot : p.2.Protected
      · rw [if_pos hprot, filter_cons_of_pos (by simpa using hprot), eq_head_of_trail hB]
        have hsplit : ∀ C : List (L × Variable F), A ++ (a, v) :: p :: C = A ++ [(a, v)] ++ (p.1, p.2) :: C := by simp
        rw [hsplit] at h ⊢
        exact ih h (Nat.lt_of_succ_lt_succ hfuel)
      · rw [if_neg hprot, filter_cons_of_neg (by simpa using hprot)]
        obtain ⟨s', hs', hholds⟩ := unlink_holds h
        obtain ⟨q', -, -, next', ha, hB'⟩ := trail_append.1 hholds.trail
        rw [hs', bind_some, ha, eq_head_of_trail hB']
        exact ih hholds (Nat.lt_of_succ_lt_succ hfuel)

theorem clearAllVars_holds (h : Holds s vs) (hfirst : ∀ p ∈ vs.head?, p.2.Protected) (hfuel : vs.length < fuel) :
    ∃ s', clearAllVars fuel s = some s' ∧ Holds s' (vs.filter (·.2.Protected)) := by
  obtain ⟨fuel, rfl⟩ := Nat.exists_eq_succ_of_ne_zero (Nat.ne_zero_of_lt hfuel)
  rw [clearAllVars, eq_head_of_trail h.trail]
  cases vs with
  | nil => exact ⟨s, rfl, h⟩
  | cons p vs =>
    obtain ⟨-, next, hx, hvs⟩ := h.trail
    have hprot := hfirst p rfl
    rw [head?_cons, map_some, clearLoop, hx, filter_cons_of_pos (by simpa using hprot)]
    simp only [bind_eq_bind, bind_some, if_pos hprot]
    rw [eq_head_of_trail hvs]
    exact clearLoop_holds (A := []) (a := p.1) (v := p.2) h (Nat.lt_of_succ_lt_succ hfuel)

end Clear

/-- An entry that `rm_var` should remove. -/
def Removable (name : List Char) (p : L × Variable F) : Prop :=
  ownName name = some p.2.name ∧ ¬p.2.Protected

instance (name : List Char) : DecidablePred (Removable (L := L) (F := F) name) := fun p =>
  inferInstanceAs (Decidable (ownName name = some p.2.name ∧ ¬p.2.Protected))

theorem rmVar_holds_iff {out : List Msg} (hrun : rmLoop name fuel s false = some (s', f, out)) (h : Holds s' ws) :
    (∃ s' ret out, rmVar fuel s name = some (s', ret, out) ∧ Holds s' vs) ↔ ws = vs := by
  have hrm : rmVar fuel s name = some (s', f, if f then out else .notfound name :: out) := by
    rw [rmVar, hrun]
    rfl
  constructor
  · rintro ⟨s'', ret, out', hs, hholds⟩
    rw [hrm, some_inj] at hs
    obtain ⟨rfl, -⟩ := hs
    exact h.trail.unique hholds.trail
  · rintro rfl
    exact ⟨s', _, _, hrm, h⟩

/-- `rm_var` removes all unprotected variables of a name if none of them stands behind a protected one, and if it is not
the name of the clipboard. -/
theorem rmVar_iff_and_clearAllVars (fuel : ℕ) (name : List Char) (h : Holds s vs)
    (hfirst : ∀ p ∈ vs.head?, p.2.Protected) (hfuel : vs.length < fuel) :
    ((∃ s' ret out, rmVar fuel s name = some (s', ret, out) ∧ Holds s' (vs.filter (¬Removable name ·))) ↔
      ∀ n, ownName name = some n → if n = clipVarName then ∀ p ∈ vs, p.2.name = n → p.2.Protected
        else (vs.filter (·.2.name = n)).Pairwise fun p q => p.2.Protected → q.2.Protected) ∧
    ∃ s', clearAllVars fuel s = some s' ∧ Holds s' (vs.filter (·.2.Protected)) := by
  refine ⟨?_, clearAllVars_holds h hfirst hfuel⟩
  obtain ⟨fuel, rfl⟩ := Nat.exists_eq_succ_of_ne_zero (Nat.ne_zero_of_lt hfuel)
  cases hn : ownName name with
  | none =>
    rw [rmVar_holds_iff (rmLoop_none (by simp [hn])) h]
    simp [Removable, hn]
  | some n =>
    have hremovable : vs.filter (¬Removable name ·) = vs.filter fun p => ¬(p.2.name = n ∧ ¬p.2.Protected) := by
      simp only [Removable, hn, some_inj, eq_comm (a := n)]
    have hsome : ∀ P : List Char → Prop, (∀ n', some n = some n' → P n') ↔ P n := by simp
    rw [hremovable, hsome]
    by_cases hclip : n = clipVarName
    · rw [if_pos hclip, rmVar_holds_iff (rmLoop_none (by simp [hn, hclip])) h, eq_comm]
      simp [imp_iff_not_or]
    · rw [if_neg hclip]
      obtain ⟨s', f, out, hrun, hholds⟩ := rmLoop_holds hn hclip h hfirst hfuel
      rw [rmVar_holds_iff hrun hholds]
      exact kept_eq_filter_iff n vs

section Example
def ansVar : Variable ℤ := ⟨⟨ansVarName, .sys, false, 0, -1⟩, -1, []⟩

def element (lock : Bool) (i : ℤ) : Variable ℤ := ⟨⟨['x'], .array, lock, 0, i⟩, -1, []⟩

def chained (x y : Variable ℤ) : ℕ → Option (Node ℕ (Variable ℤ))
  | 0 => some ⟨ansVar, some 1⟩
  | 1 => some ⟨x, some 2⟩
  | 2 => some ⟨y, none⟩
  | _ => none

theorem holds_chained (x y : Variable ℤ) : Holds ⟨chained x y, some 0, some 2⟩ [(0, ansVar), (1, x), (2, y)] :=
  ⟨⟨rfl, _, rfl, rfl, _, rfl, rfl, _, rfl, rfl⟩, rfl⟩

/-- The first element is removed, the second one is locked. -/
theorem rmVar_iff_and_clearAllVars_locked :
    let s : Vars ℕ ℤ := ⟨chained (element false 0) (element true 1), some 0, some 2⟩
    (∃ s' ret out, rmVar 4 s ['x'] = some (s', ret, out) ∧ Holds s' [(0, ansVar), (2, element true 1)]) ∧
      ∃ s', clearAllVars 4 s = some s' ∧ Holds s' [(0, ansVar), (2, element true 1)] := by
  have h := rmVar_iff_and_clearAllVars 4 ['x'] (holds_chained (element false 0) (element true 1))
    (by simp [ansVar, Variable.Protected]) (by decide)
  refine ⟨h.1.2 fun n hn => ?_, h.2⟩
  obtain rfl : ['x'] = n := some_inj.1 hn
  decide

def lockedFirst : Vars ℕ ℤ := ⟨chained (element true 0) (element false 1), some 0, some 2⟩

/-- The second element is not locked, but it stays behind the first one. -/
theorem rmVar_stops : Removable ['x'] (2, element false 1) ∧
    ∃ s' ret out, rmVar 4 lockedFirst ['x'] = some (s', ret, out) ∧
      Holds s' [(0, ansVar), (1, element true 0), (2, element false 1)] :=
  ⟨by decide, lockedFirst, true, [.forbid ['x']], rfl, holds_chained _ _⟩

end Example
end Vars
end Prj.Ddlus.VarRemove
