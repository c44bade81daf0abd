import Prj.Ddlus.Loop

/-! Calculating on values that are kept apart from the tokens. The ledger says which token holds
which value, what a token held last, and which tokens were read before they held a result; the
tokens of a run can be told from it. -/
namespace Prj.Ddlus
open Prj.Base Function List Option

structure Ledger (F : Type) where
  stk : List (ℕ × F)
  held : ℕ → Option F
  known : ℕ → Bool

namespace Ledger
variable {F : Type}

def empty : Ledger F := ⟨[], fun _ => none, fun _ => false⟩

def read (c : Ledger F) (t : ℕ) : Ledger F :=
  { c with known := update c.known t (c.known t || (c.held t).isNone) }

def readIf (c : Ledger F) (b : Bool) (t : ℕ) : Ledger F := if b then c.read t else c

def store (c : Ledger F) (t : ℕ) (a : F) (stk : List (ℕ × F)) : Ledger F :=
  { c with stk := (t, a) :: stk, held := update c.held t (some a) }

@[simp] theorem held_readIf (c : Ledger F) (b : Bool) (t : ℕ) : (c.readIf b t).held = c.held := by
  cases b <;> rfl

@[simp] theorem held_read (c : Ledger F) (t : ℕ) : (c.read t).held = c.held := rfl

section
variable [Fnum F] (id : ℕ → TokId) (val : ℕ → F) (ans : F)

/-- One token; `val` has the values of the operands, and `ans` is the last answer. -/
def step (c : Ledger F) (ent : ℕ) : Option (Ledger F) :=
  let op := id ent
  if op.IsOp then
    match c.stk with
    | [] => none
    | [(t1, v1)] => some ((c.readIf (readsRight op ans) t1).store t1 (unOp op ans v1) [])
    | (t1, v1) :: (t2, v2) :: stk =>
      if op = .not then
        some ((c.readIf (readsRight op ans) t1).store t1 (unOp op ans v1) ((t2, v2) :: stk))
      else some (((c.read t2).readIf (readsRight op v2) t1).store t2 (binOp op v2 v1) stk)
  else some { c with stk := (ent, val ent) :: c.stk }

def run (c : Ledger F) (xs : List ℕ) : Option (Ledger F) := xs.foldlM (step id val ans) c

end

variable [Fnum F] {id : ℕ → TokId} {val : ℕ → F} {ans v1 v2 a : F} {c c' : Ledger F} {ent t1 t2 t : ℕ} {xs : List ℕ}
  {stk : List (ℕ × F)} {d : ℕ} {b : ℕ}

theorem run_cons : c.run id val ans (ent :: xs) = (c.step id val ans ent).bind (run id val ans · xs) :=
  foldlM_cons

theorem step_cases (h : c.step id val ans ent = some c') :
    ((id ent).IsOp = false ∧ c' = { c with stk := (ent, val ent) :: c.stk }) ∨
    (∃ t1 v1 stk, (id ent).IsOp = true ∧ c.stk = (t1, v1) :: stk ∧ (id ent ≠ .not → stk = []) ∧
      c' = (c.readIf (readsRight (id ent) ans) t1).store t1 (unOp (id ent) ans v1) stk) ∨
    ∃ t1 v1 t2 v2 stk, (id ent).IsOp = true ∧ c.stk = (t1, v1) :: (t2, v2) :: stk ∧
      id ent ≠ .not ∧ c' = ((c.read t2).readIf (readsRight (id ent) v2) t1).store t2 (binOp (id ent) v2 v1) stk := by
  simp only [step] at h
  cases hop : (id ent).IsOp with
  | false => exact .inl ⟨rfl, by simpa [hop] using h.symm⟩
  | true =>
    rw [if_pos hop] at h
    refine .inr ?_
    match hstk : c.stk with
    | [] => simp [hstk] at h
    | [(t1, v1)] =>
      rw [hstk] at h
      exact .inl ⟨t1, v1, [], rfl, rfl, fun _ => rfl, (some.inj h).symm⟩
    | (t1, v1) :: (t2, v2) :: stk =>
      rw [hstk] at h
      by_cases hnot : id ent = .not
      · exact .inl ⟨t1, v1, (t2, v2) :: stk, rfl, rfl, absurd hnot, by simpa [hnot] using h.symm⟩
      · exact .inr ⟨t1, v1, t2, v2, stk, rfl, rfl, hnot, by simpa [hnot] using h.symm⟩

theorem step_eq_one (hop : (id ent).IsOp = true) (hstk : c.stk = (t1, v1) :: stk) (hnot : id ent ≠ .not → stk = []) :
    c.step id val ans ent = some ((c.readIf (readsRight (id ent) ans) t1).store t1 (unOp (id ent) ans v1) stk) := by
  cases stk with
  | nil => simp [step, hop, hstk]
  | cons p stk =>
    have hid : id ent = .not := not_not.1 fun h => by simpa using hnot h
    simp [step, hstk, hid, TokId.IsOp]

theorem step_eq_two (hop : (id ent).IsOp = true) (hstk : c.stk = (t1, v1) :: (t2, v2) :: stk) (hnot : id ent ≠ .not) :
    c.step id val ans ent = some (((c.read t2).readIf (readsRight (id ent) v2) t1).store t2
      (binOp (id ent) v2 v1) stk) := by
  simp [step, hop, hstk, hnot]

/-! How many values are on the stack, and which token is the lowest, does not depend on the values. -/

def depthStep (id : ℕ → TokId) (d : ℕ) (t : ℕ) : Option ℕ :=
  if (id t).IsOp then
    if d = 0 then none else if d = 1 ∨ id t = .not then some d else some (d - 1)
  else some (d + 1)

theorem step_of_depth (val : ℕ → F) (ans : F) (h : depthStep id c.stk.length ent = some d) :
    ∃ c', c.step id val ans ent = some c' ∧ c'.stk.length = d := by
  unfold depthStep at h
  cases hop : (id ent).IsOp with
  | false => exact ⟨_, by simp only [step, hop]; rfl, by simpa [hop] using h⟩
  | true =>
    rw [if_pos hop] at h
    match hstk : c.stk with
    | [] => simp [hstk] at h
    | [(t1, v1)] => exact ⟨_, step_eq_one hop hstk fun _ => rfl, by simpa [hstk, store] using h⟩
    | (t1, v1) :: (t2, v2) :: stk =>
      by_cases hnot : id ent = .not
      · exact ⟨_, step_eq_one hop hstk (absurd hnot), by simpa [hstk, hnot, store] using h⟩
      · exact ⟨_, step_eq_two hop hstk hnot, by simpa [hstk, hnot, store] using h⟩

theorem run_of_depth (val : ℕ → F) (ans : F) (h : xs.foldlM (depthStep id) c.stk.length = some d) :
    ∃ c', c.run id val ans xs = some c' ∧ c'.stk.length = d := by
  induction xs generalizing c with
  | nil => exact ⟨c, rfl, some.inj h⟩
  | cons ent xs ih =>
    obtain ⟨d1, hd1, h⟩ := bind_eq_some_iff.1 h
    obtain ⟨c1, hc1, hlen⟩ := step_of_depth val ans hd1
    obtain ⟨c', hc', hlen'⟩ := ih (c := c1) (by rwa [hlen])
    exact ⟨c', by rw [run_cons, hc1]; exact hc', hlen'⟩

theorem getLast_step (hb : (c.stk.map Prod.fst).getLast? = some b)
    (h : c.step id val ans ent = some c') : (c'.stk.map Prod.fst).getLast? = some b := by
  obtain ⟨-, rfl⟩ | ⟨t1, v1, stk, -, hstk, -, rfl⟩ | ⟨t1, v1, t2, v2, stk, -, hstk, -, rfl⟩ :=
    step_cases h
  · simp [getLast?_cons, hb]
  all_goals simpa [hstk, store] using hb

theorem getLast_run (hb : (c.stk.map Prod.fst).getLast? = some b)
    (h : c.run id val ans xs = some c') : (c'.stk.map Prod.fst).getLast? = some b := by
  induction xs generalizing c with
  | nil =>
    cases h
    exact hb
  | cons ent xs ih =>
    obtain ⟨c1, hc1, h⟩ := bind_eq_some_iff.1 h
    exact ih (getLast_step hb hc1) h

/-! Tokens are told from the ledger. -/

section Track
variable (x : Ext F) (vars : List (Var F)) (tok : ℕ → Tok F)

/-- The token `t` after what the ledger says. -/
def track (c : Ledger F) (t : ℕ) : Tok F :=
  let base := if c.known t then Reg.resolved x vars tok t else tok t
  match c.held t with
  | none => base
  | some a => base.settokval a

variable {x vars tok}

theorem shape_track (t : ℕ) : (track x vars tok c t).shape = (tok t).shape := by
  have hbase : (if c.known t then Reg.resolved x vars tok t else tok t).shape = (tok t).shape := by
    split_ifs
    · exact Tok.shape_resolve _ _ _
    · rfl
  unfold track
  cases c.held t with
  | none => exact hbase
  | some a => exact (Tok.shape_settokval _ _).trans hbase

theorem value_track (t : ℕ) : Reg.value x vars (track x vars tok c) t = (c.held t).getD (Reg.value x vars tok t) := by
  unfold Reg.value Reg.resolved track
  cases c.held t with
  | none =>
    cases c.known t with
    | false => rfl
    | true => simp [Reg.resolved, Tok.resolve_of_res]
  | some a => exact (congrArg Tok.signed (Tok.resolve_of_res rfl)).trans (Tok.signed_settokval _ _)

theorem track_read (t : ℕ) : track x vars tok (c.read t) =
    update (track x vars tok c) t (Reg.resolved x vars (track x vars tok c) t) := by
  funext a
  by_cases ha : a = t
  · subst ha
    unfold Reg.resolved track read
    cases c.held a with
    | none =>
      cases c.known a with
      | false => simp [Reg.resolved]
      | true => simp [Reg.resolved, Tok.resolve_of_res]
    | some v =>
      simp only [isNone_some, Bool.or_false, update_self]
      exact (Tok.resolve_of_res rfl).symm
  · simp [track, read, update_of_ne ha]

theorem track_store (t : ℕ) (v : F) (stk : List (ℕ × F)) : track x vars tok (c.store t v stk) =
    update (track x vars tok c) t ((track x vars tok c t).settokval v) := by
  funext a
  by_cases ha : a = t
  · subst ha
    unfold track store
    cases c.held a <;> simp [Tok.settokval]
  · simp only [track, store, update_of_ne ha]
    rfl

end Track

/-- The ledger and a run agree; `rest` is still to come. -/
structure Tracks (x : Ext F) (vars : List (Var F)) (tok : ℕ → Tok F) (r : Reg F) (c : Ledger F)
    (rest : List ℕ) : Prop where
  tok_eq : r.tok = track x vars tok c
  stk_eq : r.stk = c.stk.map Prod.fst
  entries : ∀ p ∈ c.stk, (c.held p.1).getD (Reg.value x vars tok p.1) = p.2
  unheld : ∀ t ∈ rest, c.held t = none
  nodup : (r.stk ++ rest).Nodup

namespace Tracks
variable {x : Ext F} {vars : List (Var F)} {tok : ℕ → Tok F} {r : Reg F} {rest : List ℕ} {c' : Ledger F}

theorem value_eq (h : Tracks x vars tok r c rest) {p : ℕ × F} (hp : p ∈ c.stk) : Reg.value x vars r.tok p.1 = p.2 := by
  rw [h.tok_eq, value_track, h.entries p hp]

theorem id_eq (h : Tracks x vars tok r c rest) (t : ℕ) : (r.tok t).id = (tok t).id := by
  rw [h.tok_eq]
  exact Tok.id_eq_of_shape (shape_track t)

theorem store {d : Ledger F} {n : ℤ} (hent : ∀ p ∈ stk, (d.held p.1).getD (Reg.value x vars tok p.1) = p.2)
    (hrest : ∀ t ∈ rest, d.held t = none) (hn : (t :: (stk.map Prod.fst ++ rest)).Nodup) :
    Tracks x vars tok (Reg.store ⟨track x vars tok d, stk.map Prod.fst, n⟩ t a) (d.store t a stk) rest := by
  have ht := (nodup_cons.1 hn).1
  refine ⟨(track_store _ _ _).symm, rfl, fun p hp => ?_, fun b hb => ?_, hn⟩
  · rcases mem_cons.1 hp with rfl | hp
    · simp [Ledger.store]
    · have hne : p.1 ≠ t := fun heq => ht (by simp [← heq, mem_map_of_mem hp])
      simpa [Ledger.store, update_of_ne hne] using hent p hp
  · have hne : b ≠ t := fun heq => ht (by simp [← heq, hb])
    simpa [Ledger.store, update_of_ne hne] using hrest b hb

theorem look_eq (h : r.tok = track x vars tok c) (op : TokId) (v : F) (t : ℕ) :
    Reg.look x vars op v r.tok t = track x vars tok (c.readIf (readsRight op v) t) := by
  rw [Reg.look, h]
  cases readsRight op v with
  | false => rfl
  | true => exact (track_read t).symm

theorem step (h : Tracks x vars tok r c (ent :: rest))
    (hs : c.step (fun t => (tok t).id) (Reg.value x vars tok) (varVal vars ansVarName) ent = some c') :
    ∃ r', r.step x vars ent = some r' ∧ Tracks x vars tok r' c' rest := by
  have hid := h.id_eq ent
  have hrest : ∀ t ∈ rest, c.held t = none := fun t ht => h.unheld t (by simp [ht])
  have hn : (r.stk ++ rest).Nodup := h.nodup.sublist (by simp)
  obtain ⟨hop, rfl⟩ | ⟨t1, v1, stk, hop, hstk, hnot, rfl⟩ | ⟨t1, v1, t2, v2, stk, hop, hstk, hnot, rfl⟩ := step_cases hs
  · have hstep : r.step x vars ent = some { r with
        stk := ent :: r.stk, ncalc := r.ncalc + if (r.tok ent).type = .number then 1 else 0 } := by
      simp [Reg.step, hid, hop]
    have hunheld := h.unheld ent (by simp)
    refine ⟨_, hstep, h.tok_eq, by simp [h.stk_eq], ?_, hrest, perm_middle.nodup_iff.1 h.nodup⟩
    simpa [hunheld] using h.entries
  · have hv1 : Reg.value x vars r.tok t1 = v1 := h.value_eq (p := (t1, v1)) (by simp [hstk])
    have hr : r.stk = t1 :: stk.map Prod.fst := by simp [h.stk_eq, hstk]
    rw [← hid] at hop hnot ⊢
    refine ⟨_, Reg.step_eq_step1 hop hr fun h => by simp [hnot h], ?_⟩
    simp only [Reg.step1, look_eq h.tok_eq, hv1]
    exact store (fun p hp => by simpa using h.entries p (by simp [hstk, hp])) (by simpa using hrest)
      (by simpa [hr] using hn)
  · have hv1 : Reg.value x vars r.tok t1 = v1 := h.value_eq (p := (t1, v1)) (by simp [hstk])
    have hv2 : Reg.value x vars r.tok t2 = v2 := h.value_eq (p := (t2, v2)) (by simp [hstk])
    have hr : r.stk = t1 :: t2 :: stk.map Prod.fst := by simp [h.stk_eq, hstk]
    have htok : update r.tok t2 (Reg.resolved x vars r.tok t2) = track x vars tok (c.read t2) := by
      rw [track_read, h.tok_eq]
    rw [← hid] at hop hnot ⊢
    refine ⟨_, Reg.step_eq_step2 hop hr hnot, ?_⟩
    simp only [Reg.step2, htok, hv1, hv2]
    rw [look_eq (r := ⟨track x vars tok (c.read t2), [], 0⟩) (c := c.read t2) rfl]
    refine store (fun p hp => by simpa using h.entries p (by simp [hstk, hp])) (by simpa using hrest) ?_
    rw [hr] at hn
    exact (nodup_cons.1 hn).2

theorem run (h : Tracks x vars tok r c (xs ++ rest))
    (hs : c.run (fun t => (tok t).id) (Reg.value x vars tok) (varVal vars ansVarName) xs = some c') :
    ∃ r', r.run x vars xs = some r' ∧ Tracks x vars tok r' c' rest := by
  induction xs generalizing r c with
  | nil =>
    cases hs
    exact ⟨r, rfl, h⟩
  | cons ent xs ih =>
    obtain ⟨c1, hc1, hs⟩ := bind_eq_some_iff.1 hs
    obtain ⟨r1, hr1, h1⟩ := h.step hc1
    obtain ⟨r', hr', h'⟩ := ih h1 hs
    exact ⟨r', by rw [Reg.run_cons, hr1]; exact hr', h'⟩

end Tracks
end Ledger
end Prj.Ddlus
