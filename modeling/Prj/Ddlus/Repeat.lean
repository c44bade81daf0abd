import Prj.Ddlus.Restore

/-! Running an expression again after `restore_prefix` (`ddlus/console/parse.c`). The tokens of
variables keep the sign of the last result they held. -/
namespace Prj.Ddlus
open Prj.Base Function List Option

namespace Ledger
variable {F : Type} {c c' d : Ledger F} {t ent a : ℕ} {xs : List ℕ}

/-! Operands that are never read do not matter. -/

theorem known_read (h : c.held t = none) : (c.read t).known t = true := by
  simp [read, h]

theorem known_readIf {b : Bool} (h : c.known t = true) : (c.readIf b a).known t = true := by
  cases b with
  | false => exact h
  | true =>
    by_cases hta : t = a
    · simp [readIf, read, ← hta, h]
    · simpa [readIf, read, update_of_ne hta] using h

/-- Two ledgers differ at most in the values of operands that are not in `known`. -/
structure Agree (known : ℕ → Bool) (c d : Ledger F) : Prop where
  held_eq : d.held = c.held
  stk : List.Forall₂ (fun p q : ℕ × F => p.1 = q.1 ∧ (p.2 = q.2 ∨ c.held p.1 = none ∧ known p.1 = false)) c.stk d.stk

variable {known : ℕ → Bool}

theorem read_eq {v v' : F} (h : v = v' ∨ c.held t = none ∧ known t = false)
    (hk : c.held t = none → known t = true) : v = v' :=
  h.resolve_right fun h => by simp [hk h.1] at h

theorem Agree.store {a : F} {stk stk' : List (ℕ × F)} {c1 d1 : Ledger F} (hc : c1.held = c.held)
    (hd : d1.held = c.held) (hn : t ∉ stk.map Prod.fst) (h : List.Forall₂ (fun p q : ℕ × F => p.1 = q.1 ∧
      (p.2 = q.2 ∨ c.held p.1 = none ∧ known p.1 = false)) stk stk') :
    Agree known (c1.store t a stk) (d1.store t a stk') := by
  refine ⟨by simp [Ledger.store, hc, hd], .cons ⟨rfl, .inl rfl⟩ ?_⟩
  have hne : ∀ p ∈ stk, p.1 ≠ t := fun p hp heq => hn (heq ▸ mem_map_of_mem hp)
  refine ((List.forall₂_and_left _ _).2 ⟨hne, h⟩).imp fun p q hpq => ?_
  simpa [Ledger.store, hc, update_of_ne hpq.1] using hpq.2

variable [Fnum F] {id : ℕ → TokId} {val val' : ℕ → F} {ans : F}

theorem known_step (h : c.step id val ans ent = some c') (ht : c.known t = true) : c'.known t = true := by
  obtain ⟨-, rfl⟩ | ⟨t1, v1, stk, -, -, -, rfl⟩ | ⟨t1, v1, t2, v2, stk, -, -, -, rfl⟩ :=
    step_cases h
  · exact ht
  · exact known_readIf ht
  · exact known_readIf (known_readIf (b := true) (a := t2) ht)

theorem known_run (h : c.run id val ans xs = some c') (ht : c.known t = true) : c'.known t = true := by
  induction xs generalizing c with
  | nil =>
    cases h
    exact ht
  | cons ent xs ih =>
    obtain ⟨c1, hc1, h⟩ := bind_eq_some_iff.1 h
    exact ih h (known_step hc1 ht)

theorem Agree.step (h : Agree known c d) (hval : (id ent).IsOp = false → known ent = true → val' ent = val ent)
    (hent : c.held ent = none) (hn : (c.stk.map Prod.fst).Nodup)
    (hs : c.step id val ans ent = some c') (hk : ∀ t, c'.known t = true → known t = true) :
    ∃ d', d.step id val' ans ent = some d' ∧ Agree known c' d' := by
  obtain ⟨hop, rfl⟩ | ⟨t1, v1, stk, hop, hstk, hnot, rfl⟩ | ⟨t1, v1, t2, v2, stk, hop, hstk, hnot, rfl⟩ := step_cases hs
  · refine ⟨{ d with stk := (ent, val' ent) :: d.stk }, by simp [Ledger.step, hop], h.held_eq, .cons ⟨rfl, ?_⟩ h.stk⟩
    by_cases hke : known ent = true
    · exact .inl (hval hop hke).symm
    · exact .inr ⟨hent, by simpa using hke⟩
  · have hag := h.stk
    rw [hstk, List.forall₂_cons_left_iff] at hag
    obtain ⟨⟨_, v1'⟩, stk', ⟨rfl, hv1⟩, hag, hd⟩ := hag
    have heq : unOp (id ent) ans v1 = unOp (id ent) ans v1' := by
      cases hr : readsRight (id ent) ans with
      | false => exact unOp_of_not_readsRight hr _ _
      | true =>
        have heq : v1 = v1' := read_eq hv1 fun hh => hk _ <| by
          simpa [hr, readIf, Ledger.store] using known_read hh
        rw [heq]
    refine ⟨_, step_eq_one hop hd fun h => ?_, ?_⟩
    · have hnil := hag.length_eq
      simpa [hnot h] using hnil.symm
    · rw [← heq]
      refine .store (c := c) (by simp) (by simp [h.held_eq]) ?_ hag
      rw [hstk] at hn
      exact (nodup_cons.1 hn).1
  · have hag := h.stk
    rw [hstk, List.forall₂_cons_left_iff] at hag
    obtain ⟨⟨_, v1'⟩, stk1, ⟨rfl, hv1⟩, hag, hd⟩ := hag
    rw [List.forall₂_cons_left_iff] at hag
    obtain ⟨⟨_, v2'⟩, stk', ⟨rfl, hv2⟩, hag, rfl⟩ := hag
    have h2 : v2 = v2' := read_eq hv2 fun hh => hk _ <| known_readIf (known_read hh)
    subst h2
    have heq : binOp (id ent) v2 v1 = binOp (id ent) v2 v1' := by
      cases hr : readsRight (id ent) v2 with
      | false => exact binOp_of_not_readsRight hr _ _
      | true =>
        have heq : v1 = v1' := read_eq hv1 fun hh => hk _ <| by
          simpa [hr, readIf, Ledger.store] using known_read (c := c.read t2) hh
        rw [heq]
    refine ⟨_, step_eq_two hop hd hnot, ?_⟩
    rw [← heq]
    refine .store (c := c) (by simp) (by simp [h.held_eq]) ?_ hag
    rw [hstk] at hn
    exact (nodup_cons.1 (nodup_cons.1 hn).2).1

theorem Agree.run {x : Ext F} {vars : List (Var F)} {tok : ℕ → Tok F} {r : Reg F}
    (h : Agree known c d) (ht : Tracks x vars tok r c xs)
    (hval : ∀ t ∈ xs, (tok t).id.IsOp = false → known t = true → val' t = Reg.value x vars tok t)
    (hs : c.run (fun t => (tok t).id) (Reg.value x vars tok) (varVal vars ansVarName) xs = some c')
    (hk : ∀ t, c'.known t = true → known t = true) :
    ∃ d', d.run (fun t => (tok t).id) val' (varVal vars ansVarName) xs = some d' ∧ Agree known c' d' := by
  induction xs generalizing c d r with
  | nil =>
    cases hs
    exact ⟨d, rfl, h⟩
  | cons ent xs ih =>
    obtain ⟨c1, hc1, hs⟩ := bind_eq_some_iff.1 hs
    obtain ⟨r1, -, ht1⟩ := ht.step hc1
    have hn : (c.stk.map Prod.fst).Nodup := by
      rw [← ht.stk_eq]
      exact (nodup_append.1 ht.nodup).1
    obtain ⟨d1, hd1, h1⟩ := h.step (hval ent (by simp))
      (ht.unheld ent (by simp)) hn hc1 fun t ht => hk t (known_run hs ht)
    obtain ⟨d', hd', h'⟩ := ih h1 ht1 (fun t ht => hval t (by simp [ht])) hs
    exact ⟨d', by rw [run_cons, hd1]; exact hd', h'⟩

theorem run_congr {id' : ℕ → TokId} (h : ∀ t ∈ xs, id' t = id t ∧ ((id t).IsOp = false → val' t = val t)) :
    c.run id' val' ans xs = c.run id val ans xs := by
  induction xs generalizing c with
  | nil => rfl
  | cons ent xs ih =>
    have hent := h ent (by simp)
    have hstep : c.step id' val' ans ent = c.step id val ans ent := by
      unfold step
      rw [hent.1]
      cases hop : (id ent).IsOp with
      | true => simp only [hop, if_true]
      | false => simp [hent.2 hop]
    rw [run_cons, run_cons, hstep]
    congr 1
    funext c1
    exact ih fun t ht => h t (by simp [ht])

end Ledger

namespace Sess
variable {F : Type} [Fnum F] {s s1 s2 : Sess F} {e fuel : ℕ} {xs es : List ℕ} {val : ℕ → F} {c : Ledger F} {d : ℕ}

/-- Expression `e` is compiled to the postfix list `xs` of numbers, variables and operators that
leave one value, or one on top of the first operand if that is a variable. -/
structure Calculation (s : Sess F) (e : ℕ) (xs : List ℕ) : Prop where
  cur : s.cur = some e
  stack : (s.exps e).stacktop = none
  post : Chain s.next (s.exps e).saveprefixfirst xs
  table : ∀ t ∈ xs, (s.tok t).FromTable
  value : ∀ t ∈ xs, (s.tok t).id.IsOperand = true ∨ (s.tok t).id.IsOp = true
  depth : xs.foldlM (Ledger.depthStep fun t => (s.tok t).id) 0 = some 1 ∨
    xs.foldlM (Ledger.depthStep fun t => (s.tok t).id) 0 = some 2 ∧ ∃ v, xs.head? = some v ∧ (s.tok v).id = .var
  ncalc : 0 ≤ s.ncalc
  counts : s.ncalc ≠ 0 ∨ ∃ t ∈ xs, (s.tok t).id.Counts = true
  ans : HasAns s.vars

def ledger (s : Sess F) (val : ℕ → F) (xs : List ℕ) : Option (Ledger F) :=
  Ledger.empty.run (fun t => (s.tok t).id) val (varVal s.vars ansVarName) xs

/-- What a calculation leaves: tokens, the order of the list, and nothing on the stack. -/
structure Done (e : ℕ) (xs : List ℕ) (tok : ℕ → Tok F) (s s' : Sess F) : Prop where
  same : ∃ next prenext first n vars log, s' = { s with
    tok, next, prenext, ncalc := n, vars, log
    exps := update s.exps e { s.exps e with prefixfirst := first, stacktop := none } }
  order : Chain s'.prenext (s.exps e).saveprefixfirst xs
  prenext_eq : ∀ t ∉ xs, s'.prenext t = s.prenext t
  ncalc : 0 < s'.ncalc

theorem Calculation.exists_ledger (h : Calculation s e xs) (val : ℕ → F) : ∃ c, s.ledger val xs = some c := by
  rcases h.depth with hd | ⟨hd, -⟩
  all_goals
    obtain ⟨c, hc, -⟩ := Ledger.run_of_depth val (varVal s.vars ansVarName) (c := Ledger.empty) hd
    exact ⟨c, hc⟩

theorem length_ledger (hc : s.ledger val xs = some c)
    (hd : xs.foldlM (Ledger.depthStep fun t => (s.tok t).id) 0 = some d) : c.stk.length = d := by
  obtain ⟨c', hc', hlen⟩ := Ledger.run_of_depth val (varVal s.vars ansVarName) (c := Ledger.empty) hd
  obtain rfl := some.inj (hc.symm.trans hc')
  exact hlen

theorem Calculation.below (h : Calculation s e xs)
    (hc : s.ledger val xs = some c) : ∃ w v below, c.stk = (w, v) :: below ∧
      (below = [] ∨ ∃ p, below = [p] ∧ (s.tok p.1).id = .var) := by
  rcases h.depth with hd | ⟨hd, a, hhead, ha⟩
  · obtain ⟨⟨w, v⟩, hstk⟩ := length_eq_one_iff.1 (length_ledger hc hd)
    exact ⟨w, v, [], hstk, .inl rfl⟩
  · obtain ⟨⟨w, v⟩, p, hstk⟩ := length_eq_two.1 (length_ledger hc hd)
    refine ⟨w, v, [p], hstk, .inr ⟨p, rfl, ?_⟩⟩
    obtain ⟨ys, rfl⟩ : ∃ ys, xs = a :: ys := by
      cases xs with
      | nil => simp at hhead
      | cons b ys => exact ⟨ys, by simpa using hhead⟩
    obtain ⟨c1, hc1, hc⟩ := bind_eq_some_iff.1 hc
    obtain rfl : { Ledger.empty with stk := [(a, val a)] } = c1 := by
      simpa [Ledger.step, ha, TokId.IsOp, Ledger.empty] using hc1
    have hlast := Ledger.getLast_run (b := a) (by simp) hc
    obtain rfl : p.1 = a := by simpa [hstk] using hlast
    exact ha

theorem Calculation.run (h : Calculation s e xs) (x : Ext F) (ci : Sess F → Res F Bool) (hfuel : xs.length < fuel) :
    ∃ c w v below s', s.ledger (Reg.value x s.vars s.tok) xs = some c ∧ c.stk = (w, v) :: below ∧
      s.runPrefix x ci fuel = (some true, s') ∧ varVal s'.vars ansVarName = v ∧
      Done e xs (Ledger.track x s.vars s.tok (c.read w)) s s' := by
  obtain ⟨c, hc⟩ := h.exists_ledger (Reg.value x s.vars s.tok)
  obtain ⟨w, v, below, hstk, hbelow⟩ := h.below hc
  have hstart : Ledger.Tracks x s.vars s.tok ⟨s.tok, [], s.ncalc⟩ Ledger.empty (xs ++ []) :=
    ⟨rfl, rfl, by simp [Ledger.empty], fun _ _ => rfl, by simpa using h.post.nodup⟩
  obtain ⟨r, hr, ht⟩ := hstart.run hc
  obtain ⟨s1, hs1, h1, hran⟩ := runPrefix_run ci fuel h.cur h.stack h.post h.table h.value hfuel hr
  have hrstk : r.stk = w :: below.map Prod.fst := by simp [ht.stk_eq, hstk]
  have hcount := Reg.ncalc_run h.table hr
  have hpos : 0 < r.ncalc := by
    have h0 := h.ncalc
    simp only at hcount
    rcases h.counts with hne | ⟨t, hin, hct⟩
    · omega
    · have : 0 < xs.countP fun t => (s.tok t).id.Counts := countP_pos_iff.2 ⟨t, hin, hct⟩
      omega
  have hw : (r.tok w).id ≠ .brOpen := by
    intro heq
    rw [ht.id_eq] at heq
    have hmem := h.value w ((Reg.mem_stk_of_run hr (by simp [hrstk])).resolve_right (by simp))
    simp [heq, TokId.IsOperand, TokId.IsOp] at hmem
  have hval : Reg.value x s.vars r.tok w = v := ht.value_eq (p := (w, v)) (by simp [hstk])
  obtain ⟨vars', hset, hans⟩ := setAnsvar_spec h.ans v
  have hbelow' : below.map Prod.fst = [] ∨ ∃ a, below.map Prod.fst = [a] ∧ (r.tok a).id = .var := by
    rcases hbelow with rfl | ⟨p, rfl, hp⟩
    · exact .inl rfl
    · exact .inr ⟨p.1, rfl, by rw [ht.id_eq, hp]⟩
  obtain ⟨m, hm, hworks, hholds⟩ := finish_value fuel (x := x) (hran.cur_eq.trans h.cur) h1
    hrstk hbelow' hw (by omega) (by rw [hval, hset])
  refine ⟨c, w, v, below, _, hc, hstk, hs1.trans hm, hans, ?_⟩
  have hfirst : (s1.exps e).prefixfirst = none := h1.todo
  have horder : Chain s1.prenext (s.exps e).saveprefixfirst xs := by
    have hseg := hran.order
    rw [hfirst] at hseg
    simpa [ready, put] using Seg.chain_iff.1 hseg
  have hskip := hran.prenext_eq
  have htok : m.tok = Ledger.track x s.vars s.tok (c.read w) := by
    rw [hholds.tok_eq, Ledger.track_read, ht.tok_eq]
  have htop : m.stacktop = none := hholds.stack
  have hcalc : m.ncalc = r.ncalc := hholds.ncalc_eq
  obtain ⟨_, _, prenext, first, _, _, log, rfl⟩ := hran.same
  obtain ⟨tok, next, top, n, rfl⟩ := hworks
  refine ⟨⟨next, prenext, first, n, vars', log, ?_⟩, ?_, ?_, ?_⟩
  · simp only at htok htop
    simp [put, mach, ready, htok, htop]
  · simpa [put, mach] using horder
  · simpa [put, mach, ready] using hskip
  · simpa [put, ← hcalc] using hpos

def result (s : Sess F) (val : ℕ → F) (xs : List ℕ) : Option F :=
  (s.ledger val xs).bind fun c => c.stk.head?.map Prod.snd

/-- What a calculation has read and stored when it has set `ans`. -/
def used (s : Sess F) (x : Ext F) (xs : List ℕ) : Option (Ledger F) :=
  (s.ledger (Reg.value x s.vars s.tok) xs).bind fun c => c.stk.head?.map fun p => c.read p.1

/-- The value with every operand as it is read after `restore_prefix`. -/
def resultAgain (s : Sess F) (x : Ext F) (xs : List ℕ) : Option F :=
  (s.used x xs).bind fun c =>
    s.result (fun t => reread s.vars (s.tok t) (c.known t) (c.held t)) xs

/-- Every result that was stored in the token of a variable has the sign the token was compiled
with. -/
def SignsKept (s : Sess F) (x : Ext F) (xs : List ℕ) : Prop :=
  ∀ c, s.used x xs = some c → ∀ t ∈ xs, (s.tok t).id.IsNumber = false →
    ∀ v, c.held t = some v → isNeg v = (s.tok t).neg

theorem resultAgain_of_signsKept {x : Ext F} (h : Calculation s e xs)
    (hres : ∀ t ∈ xs, (s.tok t).res = false) (hsigns : s.SignsKept x xs) :
    s.resultAgain x xs = s.result (Reg.value x s.vars s.tok) xs := by
  obtain ⟨c, hc⟩ := h.exists_ledger (Reg.value x s.vars s.tok)
  obtain ⟨w, v, below, hstk, -⟩ := h.below hc
  have hused : s.used x xs = some (c.read w) := by simp [used, hc, hstk]
  have hstart : Ledger.Tracks x s.vars s.tok ⟨s.tok, [], s.ncalc⟩ Ledger.empty xs :=
    ⟨rfl, rfl, by simp [Ledger.empty], fun _ _ => rfl, by simpa using h.post.nodup⟩
  have hmono : ∀ t, c.known t = true → (c.read w).known t = true := fun t ht =>
    Ledger.known_readIf (b := true) ht
  have hnone : Ledger.Agree (c.read w).known (Ledger.empty (F := F)) Ledger.empty := ⟨rfl, .nil⟩
  have hval : ∀ t ∈ xs, (s.tok t).id.IsOp = false → (c.read w).known t = true →
      reread s.vars (s.tok t) ((c.read w).known t) ((c.read w).held t) =
        Reg.value x s.vars s.tok t := fun t ht hop hk =>
    reread_eq (hres t ht) ((h.value t ht).resolve_right (by simp [hop])) hk fun hnum => hsigns _ hused t ht hnum
  obtain ⟨d, hd, hag⟩ := hnone.run hstart hval hc hmono
  have hhead := hag.stk
  rw [hstk, List.forall₂_cons_left_iff] at hhead
  obtain ⟨⟨_, v'⟩, below', ⟨rfl, hv⟩, -, hdstk⟩ := hhead
  have heq : v = v' := Ledger.read_eq hv fun hh => Ledger.known_read hh
  have hd' : s.ledger (fun t => reread s.vars (s.tok t) ((c.read w).known t) ((c.read w).held t)) xs = some d := hd
  simp only [resultAgain, hused, result, bind_some, hd', hdstk, hc, hstk, head?_cons, map_some, heq]

/-- Expression `e` is one of the list `es` without branches, and the others have tokens of their
own. -/
structure Listed (s : Sess F) (fuel e : ℕ) (xs es : List ℕ) : Prop where
  list : Chain (fun e => (s.exps e).next) (s.pres s.pre).expfirst es
  mem : e ∈ es
  branch : ∀ a ∈ es, (s.exps a).branch = none
  others : ∀ a ∈ es, a ≠ e → ∃ ys, Chain s.prenext (s.exps a).saveprefixfirst ys ∧ ys.length < fuel ∧ ∀ t ∈ ys, t ∉ xs
  len : es.length < fuel

/-- The session as `restore_prefix` left it, at the start of expression `e` and with the variables
as they were. -/
def rewind (s : Sess F) (e : ℕ) (vars : List (Var F)) : Sess F := { s.setCur (some e) with vars }

theorem Done.restore {tok : ℕ → Tok F} (h : Done e xs tok s s1)
    (hl : Listed s fuel e xs es) (hfuel : xs.length < fuel) :
    ∃ s2, restorePrefix (fuel + 1) s1 = some s2 ∧ Resets s1 s2 ∧
      ∀ t ∈ xs, s2.tok t = Mach.restoreTok (tok t) ∧ s2.next t = s1.prenext t := by
  have horder := h.order
  have hskip := h.prenext_eq
  obtain ⟨next, prenext, first, n, vars, log, rfl⟩ := h.same
  -- only the cursor and the stack of `e` changed
  have hexps : ∀ a, (update s.exps e { s.exps e with prefixfirst := first, stacktop := none } a).next =
      (s.exps a).next ∧ (update s.exps e
        { s.exps e with prefixfirst := first, stacktop := none } a).branch = (s.exps a).branch ∧
      (update s.exps e { s.exps e with prefixfirst := first, stacktop := none } a).saveprefixfirst =
        (s.exps a).saveprefixfirst := by
    intro a
    by_cases ha : a = e
    · subst ha
      simp
    · simp [ha]
  refine restorePrefix_spec es ?_ (fun a ha => ?_) hl.mem (fun a ha => ?_) hl.len
  · simpa only [hexps] using hl.list
  · simpa only [hexps] using hl.branch a ha
  · simp only [hexps]
    by_cases hae : a = e
    · subst hae
      exact ⟨xs, horder, hfuel, by simp⟩
    · obtain ⟨ys, hys, hlen, hdis⟩ := hl.others a ha hae
      refine ⟨ys, hys.congr fun t ht => ?_, hlen, by simpa [hae] using hdis⟩
      exact hskip t (hdis t ht)

theorem depth_congr {id id' : ℕ → TokId} (h : ∀ t ∈ xs, id' t = id t) :
    xs.foldlM (Ledger.depthStep id') d = xs.foldlM (Ledger.depthStep id) d := by
  induction xs generalizing d with
  | nil => rfl
  | cons t xs ih =>
    rw [foldlM_cons, Ledger.depthStep, h t (by simp)]
    congr 1
    funext d'
    exact ih fun a ha => h a (by simp [ha])

theorem Calculation.again {tok : ℕ → Tok F} (h : Calculation s e xs)
    (hdone : Done e xs tok s s1) (hshape : ∀ t ∈ xs, (tok t).shape = (s.tok t).shape) (hreset : Resets s1 s2)
    (htok : ∀ t ∈ xs, s2.tok t = Mach.restoreTok (tok t) ∧ s2.next t = s1.prenext t) :
    Calculation (s2.rewind e s.vars) e xs := by
  have hid : ∀ t ∈ xs, (s2.tok t).id = (s.tok t).id := fun t ht => by
    rw [(htok t ht).1, Mach.id_restoreTok, Tok.id_eq_of_shape (hshape t ht)]
  have htab : ∀ t ∈ xs, (s2.tok t).FromTable := fun t ht => by
    rw [(htok t ht).1]
    exact Mach.fromTable_restoreTok (Tok.fromTable_of_shape (hshape t ht) (h.table t ht))
  have hchain : Chain s2.next (s.exps e).saveprefixfirst xs :=
    hdone.order.congr fun t ht => (htok t ht).2
  have hn := hdone.ncalc
  have hdepth := h.depth
  obtain ⟨_, _, _, _, _, _, rfl⟩ := hdone.same
  obtain ⟨tok2, next2, first, cur, rfl⟩ := hreset
  constructor
  · simp [rewind, setCur, Sess.cur]
  · simp [rewind, setCur]
  · simpa [rewind, setCur] using hchain
  · exact htab
  · intro t ht
    have hv := h.value t ht
    rwa [← hid t ht] at hv
  · rcases hdepth with hd | ⟨hd, v, hv, hvar⟩
    · left
      rw [← hd]
      exact depth_congr hid
    · refine .inr ⟨?_, v, hv, ?_⟩
      · rw [← hd]
        exact depth_congr hid
      · rw [← hvar]
        exact hid v (mem_of_head? hv)
  · exact Int.le_of_lt hn
  · exact .inl (Int.ne_of_gt hn)
  · exact h.ans

/-- An expression that is run again after `restore_prefix` with the same variables sets `ans` to the
value with each variable under the sign of the last result its token held, and so to the value of the
first run if the signs are those of the tokens as compiled. -/
theorem repeats_iff {es : List ℕ} (x : Ext F) (ci : Sess F → Res F Bool) (h : Calculation s e xs)
    (hres : ∀ t ∈ xs, (s.tok t).res = false) (hl : Listed s fuel e xs es)
    (hfuel : xs.length < fuel) : ∃ s₁ s₂ s₃, s.runPrefix x ci fuel = (some true, s₁) ∧
      restorePrefix (fuel + 1) s₁ = some s₂ ∧ (s₂.rewind e s.vars).runPrefix x ci fuel = (some true, s₃) ∧
      (varVal s₃.vars ansVarName = varVal s₁.vars ansVarName ↔
        s.resultAgain x xs = s.result (Reg.value x s.vars s.tok) xs) ∧
      (s.SignsKept x xs → varVal s₃.vars ansVarName = varVal s₁.vars ansVarName) := by
  obtain ⟨c, w, v, below, s₁, hc, hstk, hs1, hans1, hdone⟩ := h.run x ci hfuel
  obtain ⟨s₂, hs2, hreset, htok⟩ := hdone.restore hl hfuel
  have h2 := h.again hdone (fun t _ => Ledger.shape_track t) hreset htok
  obtain ⟨d, w', v', below', s₃, hd, hstk', hs3, hans3, -⟩ := h2.run x ci hfuel
  have hused : s.used x xs = some (c.read w) := by simp [used, hc, hstk]
  -- the second run is the ledger with the values as they are read again
  have hd' : s.ledger (fun t => reread s.vars (s.tok t) ((c.read w).known t) ((c.read w).held t)) xs = some d := by
    rw [← hd]
    refine (Ledger.run_congr fun t ht => ?_).symm
    have hid : ((s₂.rewind e s.vars).tok t).id = (s.tok t).id := by
      change (s₂.tok t).id = _
      rw [(htok t ht).1, Mach.id_restoreTok, Tok.id_eq_of_shape (Ledger.shape_track t)]
    refine ⟨hid, fun hop => ?_⟩
    change ((s₂.tok t).resolve (x.arrayVal s.vars) s.vars).signed = _
    rw [(htok t ht).1]
    exact value_restoreTok (h.table t ht) ((h.value t ht).resolve_right (by simp [hop])) (hres t ht)
  have hagain : s.resultAgain x xs = some v' := by
    simp only [resultAgain, hused, result, bind_some, hd', hstk', head?_cons, map_some]
  have hfirst : s.result (Reg.value x s.vars s.tok) xs = some v := by
    simp [result, hc, hstk]
  have hiff : varVal s₃.vars ansVarName = varVal s₁.vars ansVarName ↔
      s.resultAgain x xs = s.result (Reg.value x s.vars s.tok) xs := by
    rw [hans1, hans3, hagain, hfirst, some.injEq]
  exact ⟨s₁, s₂, s₃, hs1, hs2, hs3, hiff, fun hsigns =>
    hiff.2 (resultAgain_of_signsKept h hres hsigns)⟩

/-- `a - 5` where `a` is `v`, compiled. -/
def minusSess (v : ℤ) : Sess ℤ :=
  let s := (start [⟨['a'], .norm, false, v, -1⟩, ⟨ansVarName, .sys, false, 0, -1⟩]).newExp.addInfix 0
    [.fresh .var ['a'], .fresh .minus ['-'], .fresh .int ['5']]
  match (s.mach 0).compile 9 with
  | some (_, m) => s.put 0 m
  | none => s

theorem calculation_minusSess (v : ℤ) : Calculation (minusSess v) 0 [0, 2, 1] where
  cur := rfl
  stack := rfl
  post := ⟨rfl, rfl, rfl, rfl⟩
  table := by simpa using ⟨⟨rfl, rfl⟩, ⟨rfl, rfl⟩, ⟨rfl, rfl⟩⟩
  value := by simpa using ⟨.inl rfl, .inl rfl, .inr rfl⟩
  depth := .inl rfl
  ncalc := Int.le_refl 0
  counts := .inr ⟨1, by simp, rfl⟩
  ans := ⟨1, _, rfl, rfl, rfl⟩

theorem listed_minusSess (v : ℤ) : Listed (minusSess v) 9 0 [0, 2, 1] [0] where
  list := ⟨rfl, rfl⟩
  mem := by simp
  branch := fun _ ha => by rw [mem_singleton.1 ha]; rfl
  others := by simp
  len := by decide

theorem repeats_iff_minus_nine : ∃ s₁ s₂ s₃,
    (minusSess 9).runPrefix .nothing (fun s => (none, s)) 9 = (some true, s₁) ∧ restorePrefix 10 s₁ = some s₂ ∧
    (s₂.rewind 0 (minusSess 9).vars).runPrefix .nothing (fun s => (none, s)) 9 = (some true, s₃) ∧
    varVal s₃.vars ansVarName = varVal s₁.vars ansVarName := by
  obtain ⟨s₁, s₂, s₃, h1, h2, h3, -, hsame⟩ := repeats_iff .nothing (fun s => (none, s))
    (calculation_minusSess 9) (by simpa using ⟨rfl, rfl, rfl⟩) (listed_minusSess 9) (by decide)
  refine ⟨s₁, s₂, s₃, h1, h2, h3, hsame ?_⟩
  intro c hc t ht hnum v hv
  have hheld : ((minusSess 9).used .nothing [0, 2, 1]).map (fun c => (c.held 0, c.held 1)) =
      some (some 4, none) := by decide +kernel
  simp only [hc, map_some, some.injEq, Prod.mk.injEq] at hheld
  simp only [mem_cons, not_mem_nil, or_false] at ht
  rcases ht with rfl | rfl | rfl
  · obtain rfl := some.inj (hheld.1.symm.trans hv)
    rfl
  · cases hnum
  · simp [hheld.2] at hv

theorem minus_one_again : ∃ s₁ s₂ s₃,
    (minusSess 1).runPrefix .nothing (fun s => (none, s)) 9 = (some true, s₁) ∧ restorePrefix 10 s₁ = some s₂ ∧
    (s₂.rewind 0 (minusSess 1).vars).runPrefix .nothing (fun s => (none, s)) 9 = (some true, s₃) ∧
    varVal s₁.vars ansVarName = -4 ∧ varVal s₃.vars ansVarName = -6 := by
  refine ⟨_, _, _, rfl, rfl, rfl, ?_, ?_⟩
  · decide +kernel
  · decide +kernel

end Sess
end Prj.Ddlus
