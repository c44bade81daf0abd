import Mathlib.Data.List.Forall2
import Prj.Lib13.PackFields

/-! `unpack13` on the bytes `pack13` wrote. A negative `c` leaves the reading cursor on its byte, so
that everything after it is read one byte early; the values survive only if the bytes that follow
repeat that byte. -/
namespace Prj.Lib13
open Prj.Base List

variable {F : Type} {s : UState F}

/-- After a negative `c` every byte packed repeats the byte of that `c`. -/
def NegRepeats (fields : List (Char × Arg F)) : Prop :=
  ∀ pre v post, fields = pre ++ ('c', Arg.int v) :: post → v < 0 → ∀ x ∈ post.flatMap fieldBytes, [x] = bigEndian 1 v

section
variable {mem : ℕ → UInt8} {bufsize : ℕ} {k : Codec754 F} {caps : ℕ → ℕ} {st : UState F} {ch : Char} {fmt : List Char}
  {a : Arg F}

theorem unpackStep_values (h : unpackStep mem bufsize k caps ch st = .ok s) : st.values <+: s.values := by
  unfold unpackStep unpackC unpackFixed unpackS unpackB at h
  cases hd : dirOf ch
  all_goals
    rw [hd] at h
    simp only at h
    try split_ifs at h
  all_goals
    cases h
    simp [UState.values, UState.read, UState.store]

theorem unpackLoop_values (h : unpackLoop mem bufsize k caps fmt st = .ok s) : st.values <+: s.values := by
  induction fmt generalizing st with
  | nil =>
    cases h
    exact prefix_rfl
  | cons ch fmt ih =>
    obtain ⟨t, hs, h⟩ := exists_of_bind_eq_ok h
    have hrest := ih h
    exact (unpackStep_values hs).trans hrest

def Recovers (mem : ℕ → UInt8) (bufsize : ℕ) (k : Codec754 F) (caps : ℕ → ℕ) (fmt : List Char)
    (args : List (Arg F)) (st : UState F) : Prop :=
  ∃ s, unpackLoop mem bufsize k caps fmt st = .ok s ∧ s.values = st.values ++ args.flatMap Arg.stores

theorem isDigit_of_fieldOk (h : FieldOk ch a) : ch.isDigit = false := by
  rw [Bool.eq_false_iff]
  intro hd
  simp [FieldOk, dirOf_of_isDigit hd] at h

theorem recovers_cons {args : List (Arg F)} (hspec : FieldSpec mem (ch, a) st (unpackStep mem bufsize k caps ch st)) :
    Recovers mem bufsize k caps (ch :: fmt) (a :: args) st ↔
      ∃ s, unpackStep mem bufsize k caps ch st = .ok s ∧ s.values = st.values ++ a.stores ∧
        Recovers mem bufsize k caps fmt args (s.next ch) := by
  constructor
  · rintro ⟨s, hrun, hval⟩
    obtain ⟨t, hs, hrun⟩ := exists_of_bind_eq_ok hrun
    obtain ⟨us, hu, hul⟩ := hspec.appends t hs
    obtain ⟨vs, hv⟩ := unpackLoop_values hrun
    have hv' : st.values ++ us ++ vs = s.values := by rw [← hv, ← hu]; rfl
    rw [← hv', append_assoc] at hval
    obtain ⟨rfl, rfl⟩ := append_inj (append_cancel_left hval) hul
    exact ⟨t, hs, hu, s, hrun, hv.symm⟩
  · rintro ⟨t, ht, hval, s, hrun, hv⟩
    refine ⟨s, by rw [unpackLoop, ht]; exact hrun, ?_⟩
    rw [hv, flatMap_cons, ← append_assoc, ← hval]
    rfl

end

def bufs (args : List (Arg F)) : List (List UInt8) :=
  args.filterMap fun | .buf bs => some bs | _ => none

/-- What a run over the rest of a format can rely on: the arguments fit, the destinations are large
enough, the rest of the packed bytes stands at `p` and is counted in the buffer size. -/
structure Ready (mem : ℕ → UInt8) (bufsize : ℕ) (caps : ℕ → ℕ) (fmt : List Char)
    (args : List (Arg F)) (p : ℕ) (st : UState F) : Prop where
  ok : List.Forall₂ FieldOk fmt args
  nonempty : ∀ a ∈ args, a.Nonempty
  max_zero : st.maxstrlen = 0
  caps_le : ∀ n bs, (bufs args)[n]? = some bs → bs.length ≤ caps (st.nbuf + n)
  room : st.size + ((fmt.zip args).flatMap fieldBytes).length ≤ bufsize
  bytes : fetch mem p ((fmt.zip args).flatMap fieldBytes).length = (fmt.zip args).flatMap fieldBytes

section
variable {mem : ℕ → UInt8} {bufsize : ℕ} {k : Codec754 F} {caps : ℕ → ℕ} {st : UState F}
variable {ch : Char} {a : Arg F} {fmt : List Char} {args : List (Arg F)} {p : ℕ} {fs : List (Char × Arg F)}
  {f : Char × Arg F} {b : UInt8}

section
variable (h : Ready mem bufsize caps (ch :: fmt) (a :: args) p st)
include h

theorem Ready.spec : FieldSpec mem (ch, a) st (unpackStep mem bufsize k caps ch st) := by
  refine unpackStep_spec (List.forall₂_cons.1 h.ok).1 (h.nonempty a (by simp)) h.max_zero ?_ ?_
  · rintro bs rfl
    exact h.caps_le 0 bs (by simp [bufs])
  · have := h.room
    simp at this
    omega

theorem Ready.head_bytes : fetch mem p (fieldBytes (ch, a)).length = fieldBytes (ch, a) := by
  have hb := h.bytes
  simp only [zip_cons_cons, flatMap_cons, length_append, fetch_add] at hb
  exact (append_inj hb (by simp)).1

theorem Ready.tail (hs : unpackStep mem bufsize k caps ch st = .ok s) (hv : s.values = st.values ++ a.stores) :
    Ready mem bufsize caps fmt args (p + (fieldBytes (ch, a)).length) (s.next ch) := by
  obtain ⟨hok, hoks⟩ := List.forall₂_cons.1 h.ok
  obtain ⟨hcur, hsize, hbuf⟩ := (h.spec (k := k)).moves s hs hv
  have hroom := h.room
  have hbytes := h.bytes
  simp only [zip_cons_cons, flatMap_cons, length_append, fetch_add] at hroom hbytes
  refine ⟨hoks, fun x hx => h.nonempty x (by simp [hx]), ?_, ?_, ?_, ?_⟩
  · simp [UState.next, isDigit_of_fieldOk hok]
  · intro n bs hn
    have hc := h.caps_le (n + a.isBuf.toNat) bs
    have : (s.next ch).nbuf = st.nbuf + a.isBuf.toNat := hbuf
    rw [this, Nat.add_assoc, Nat.add_comm a.isBuf.toNat]
    apply hc
    cases a <;> simpa [bufs, Arg.isBuf] using hn
  · simp only [UState.next]
    omega
  · exact (append_inj hbytes (by simp)).2

end

theorem lag_pos (h : 0 < lag f) : ∃ v, f = ('c', .int v) ∧ v < 0 := by
  obtain ⟨ch, a⟩ := f
  unfold lag at h
  split at h
  · rename_i z hd ha
    obtain rfl := dirOf_eq_c hd
    obtain rfl : a = .int z := ha
    split_ifs at h with hz
    · exact ⟨z, rfl, hz⟩
    · omega
  · omega

theorem lag_le (f : Char × Arg F) : lag f ≤ (fieldBytes f).length := by
  rcases Nat.eq_zero_or_pos (lag f) with h | h
  · rw [h]
    exact Nat.zero_le _
  · obtain ⟨v, rfl, hv⟩ := lag_pos h
    simp [lag, fieldBytes, dirOf, hv]

theorem Ready.run_tail (h : Ready mem bufsize caps (ch :: fmt) (a :: args) p st)
    (hs : unpackStep mem bufsize k caps ch st = .ok s) (hv : s.values = st.values ++ a.stores)
    (hrun : ∀ i, st.cur ≤ i → i < p → mem i = b) (hall : ∀ x ∈ fieldBytes (ch, a), x = b) :
    ∀ i, s.cur ≤ i → i < p + (fieldBytes (ch, a)).length → mem i = b := by
  have hcur := (h.spec.moves s hs hv).1
  have hlag := lag_le (ch, a)
  intro i hi hlt
  rcases lt_or_ge i p with hip | hip
  · exact hrun i (by omega) hip
  · apply hall
    rw [← h.head_bytes]
    exact mem_map.2 ⟨i - p, mem_range.2 (by omega), by rw [Nat.add_sub_cancel' hip]⟩

/-- Behind a byte `b` that has not been consumed, only a run of that byte is read correctly. -/
theorem recovers_lag (h : Ready mem bufsize caps fmt args p st) (hlt : st.cur < p)
    (hrun : ∀ i, st.cur ≤ i → i < p → mem i = b) : Recovers mem bufsize k caps fmt args st ↔
      ∀ x ∈ (fmt.zip args).flatMap fieldBytes, x = b := by
  have hok := h.ok
  induction hok generalizing p st with
  | nil => exact iff_of_true ⟨st, rfl, by simp⟩ (by simp)
  | @cons ch a fmt args _ _ ih =>
    have hspec : FieldSpec mem (ch, a) st (unpackStep mem bufsize k caps ch st) := h.spec
    have hconst : fetch mem st.cur (fieldBytes (ch, a)).length = fieldBytes (ch, a) ↔
        ∀ x ∈ fieldBytes (ch, a), x = b := by
      have := fetch_eq_iff_const (n := (fieldBytes (ch, a)).length) hlt hrun
      rwa [h.head_bytes] at this
    have hnext {s : UState F} (hs : unpackStep mem bufsize k caps ch st = .ok s)
        (hv : s.values = st.values ++ a.stores) (hall : ∀ x ∈ fieldBytes (ch, a), x = b) :
        Recovers mem bufsize k caps fmt args (s.next ch) ↔ ∀ x ∈ (fmt.zip args).flatMap fieldBytes, x = b := by
      have hcur := (hspec.moves s hs hv).1
      have hrun' := h.run_tail hs hv hrun hall
      exact ih (h.tail hs hv) (show s.cur < _ by omega) hrun'
    rw [recovers_cons hspec]
    simp only [zip_cons_cons, flatMap_cons, mem_append, or_imp, forall_and]
    constructor
    · rintro ⟨s, hs, hv, hrest⟩
      have hall := hconst.1 (hspec.exact_iff.1 ⟨s, hs, hv⟩)
      exact ⟨hall, (hnext hs hv hall).1 hrest⟩
    · rintro ⟨hall, hrest⟩
      obtain ⟨s, hs, hv⟩ := hspec.exact_iff.2 (hconst.2 hall)
      exact ⟨s, hs, hv, (hnext hs hv hall).2 hrest⟩

theorem negRepeats_cons : NegRepeats (f :: fs) ↔
    (∀ v, f = ('c', .int v) → v < 0 → ∀ x ∈ fs.flatMap fieldBytes, [x] = bigEndian 1 v) ∧ NegRepeats fs := by
  constructor
  · intro hn
    refine ⟨fun v hf => hn [] v fs (by rw [hf]; rfl), fun pre v post heq => ?_⟩
    exact hn (f :: pre) v post (by rw [heq]; rfl)
  · rintro ⟨hhead, htail⟩ (_ | ⟨g, pre⟩) v post heq hv
    · obtain ⟨hf, rfl⟩ := List.cons.inj heq
      exact hhead v hf hv
    · exact htail pre v post (List.cons.inj heq).2 hv

theorem negRepeats_cons_of_lag_zero (h : lag f = 0) : NegRepeats (f :: fs) ↔ NegRepeats fs := by
  rw [negRepeats_cons, and_iff_right]
  rintro v rfl hv
  simp [lag, dirOf, hv] at h

theorem negRepeats_cons_neg {v : ℤ} (hv : v < 0)
    (hb : bigEndian 1 v = [b]) : NegRepeats (('c', .int v) :: fs) ↔ ∀ x ∈ fs.flatMap fieldBytes, x = b := by
  rw [negRepeats_cons]
  constructor
  · rintro ⟨hhead, -⟩ x hx
    simpa [hb] using hhead v rfl hv x hx
  · intro hall
    refine ⟨fun u hu _ x hx => ?_, fun pre u post heq _ x hx => ?_⟩
    · obtain rfl : v = u := by simpa using hu
      rw [hb, hall x hx]
    · -- a later negative `c` is itself part of the run
      have hub : bigEndian 1 u = [b] := by
        obtain ⟨y, hy⟩ := length_eq_one_iff.1 (length_bigEndian 1 u)
        rw [hy, hall y (by simp [heq, fieldBytes, dirOf, hy])]
      rw [hub, hall x (by simp [heq] at hx ⊢; tauto)]

/-- In step with the writer, the values survive exactly if what follows a negative `c` repeats it. -/
theorem recovers_sync (h : Ready mem bufsize caps fmt args p st) (hcur : st.cur = p) :
    Recovers mem bufsize k caps fmt args st ↔ NegRepeats (fmt.zip args) := by
  have hok := h.ok
  induction hok generalizing p st with
  | nil => exact iff_of_true ⟨st, rfl, by simp⟩ (by simp [NegRepeats])
  | @cons ch a fmt args _ _ ih =>
    have hspec : FieldSpec mem (ch, a) st (unpackStep mem bufsize k caps ch st) := h.spec
    obtain ⟨s, hs, hv⟩ := hspec.exact_iff.2 (by rw [hcur]; exact h.head_bytes)
    have hmove := (hspec.moves s hs hv).1
    have hstep : Recovers mem bufsize k caps (ch :: fmt) (a :: args) st ↔
        Recovers mem bufsize k caps fmt args (s.next ch) := by
      rw [recovers_cons hspec]
      constructor
      · rintro ⟨t, ht, -, hrest⟩
        rw [hs] at ht
        cases ht
        exact hrest
      · intro hrest
        exact ⟨s, hs, hv, hrest⟩
    rw [hstep, zip_cons_cons]
    rcases Nat.eq_zero_or_pos (lag (ch, a)) with hl | hl
    · rw [negRepeats_cons_of_lag_zero hl]
      exact ih (h.tail hs hv) (show s.cur = _ by omega)
    · obtain ⟨v, hf, hneg⟩ := lag_pos hl
      cases hf
      have hB : fieldBytes ('c', (.int v : Arg F)) = bigEndian 1 v := rfl
      have hone : lag ('c', (.int v : Arg F)) = 1 := by simp [lag, dirOf, hneg]
      have hbytes := h.head_bytes
      rw [hB, length_bigEndian, fetch_one] at hbytes
      rw [hB, length_bigEndian] at hmove
      rw [negRepeats_cons_neg hneg hbytes.symm]
      refine recovers_lag (h.tail hs hv) (show s.cur < _ by simp [hB]; omega) ?_
      intro i hi hlt
      have hi' : s.cur ≤ i := hi
      rw [hB, length_bigEndian] at hlt
      rw [show i = p by omega]

theorem packStep_ok {st st' : PState F} (hok : FieldOk ch a) (hargs : st.args = a :: args)
    (h : packStep k bufsize ch st = .ok st') :
    a.Nonempty ∧ st'.args = args ∧ st'.out = st.out ++ fieldBytes (ch, a) := by
  unfold packStep at h
  unfold FieldOk at hok
  rw [hargs] at h
  split at hok
  · rename_i z hd
    rw [hd] at h
    simp [fieldBytes, hd, Arg.Nonempty, (emit_eq_ok h).2]
  · rename_i w signed z hd
    rw [hd] at h
    simp [fieldBytes, hd, Arg.Nonempty, (emit_eq_ok h).2]
  · rename_i s hd
    have hlen : s.bytes.length % 2 ^ 32 = s.bytes.length := Nat.mod_eq_of_lt (Nat.lt_trans hok (by decide))
    rw [hd] at h
    simp only [hlen, take_length] at h
    split_ifs at h with h0
    exact ⟨by simpa [Arg.Nonempty] using h0, by simp [fieldBytes, hd, (emit_eq_ok h).2]⟩
  · rename_i bs hd
    rw [hd] at h
    simp only at h
    split_ifs at h with h0
    exact ⟨by simpa [Arg.Nonempty] using h0, by simp [fieldBytes, hd, (emit_eq_ok h).2]⟩
  · exact hok.elim

theorem packLoop_ok {st st' : PState F} (hok : List.Forall₂ FieldOk fmt st.args)
    (h : packLoop k bufsize fmt st = .ok st') :
    (∀ a ∈ st.args, a.Nonempty) ∧ st'.out = st.out ++ (fmt.zip st.args).flatMap fieldBytes := by
  generalize hargs : st.args = args at hok ⊢
  induction hok generalizing st with
  | nil =>
    cases h
    simp
  | cons hhead _ ih =>
    obtain ⟨t, hs, h⟩ := exists_of_bind_eq_ok h
    obtain ⟨hne, hta, hto⟩ := packStep_ok hhead hargs hs
    obtain ⟨hnes, hout⟩ := ih h hta
    refine ⟨forall_mem_cons.2 ⟨hne, hnes⟩, ?_⟩
    rw [hout, hto, zip_cons_cons, flatMap_cons, append_assoc]

end

/-- Packed values come back exactly if every byte packed after a negative `c` repeats its byte. -/
theorem unpack13_pack13_iff {k : Codec754 F} {fmt : List Char} {args : List (Arg F)}
    (hok : List.Forall₂ FieldOk fmt args) {bufsize size : ℕ} {out : List UInt8}
    (hpack : pack13 k bufsize fmt args = .ok (size, out)) {mem : ℕ → UInt8} {caps : ℕ → ℕ}
    {bufsize' : ℕ} (hmem : fetch mem 0 out.length = out) (hroom : out.length ≤ bufsize')
    (hcaps : ∀ n bs, (bufs args)[n]? = some bs → bs.length ≤ caps n) :
    (∃ st, unpack13 mem bufsize' k caps fmt = .ok st ∧ st.values = args.flatMap Arg.stores) ↔
      NegRepeats (fmt.zip args) := by
  obtain ⟨st, hloop, hpack⟩ := exists_of_bind_eq_ok hpack
  obtain ⟨hne, hout⟩ := packLoop_ok hok hloop
  cases hpack
  rw [hout] at hmem hroom
  have hready : Ready mem bufsize' caps fmt args 0 .init :=
    ⟨hok, hne, rfl, by simpa [UState.init] using hcaps, by simpa [UState.init] using hroom, hmem⟩
  exact recovers_sync hready rfl

theorem unpack13_pack13_hs : let k : Codec754 Unit := ⟨fun _ _ _ => 0, fun _ _ _ => ()⟩
    ∃ st, unpack13 (fun i => [255, 254, 0, 2, 104, 105].getD i 0) 6 k (fun _ => 0) ['h', 's'] =
      .ok st ∧ st.values = [.int (-2), .str [104, 105, 0]] := by
  intro k
  have hpack : pack13 k 6 ['h', 's'] [.int (-2), .str ⟨[104, 105], by decide⟩] =
      .ok (6, [255, 254, 0, 2, 104, 105]) := rfl
  refine (unpack13_pack13_iff ?_ hpack rfl le_rfl (by simp [bufs])).2 ?_
  · exact .cons (show _ ∧ _ by decide) (.cons (show _ < _ by decide) .nil)
  · intro pre v post h
    rcases pre with _ | ⟨_, _ | ⟨_, _⟩⟩ <;> simp at h

/-- `-1` and `5` packed by `cC` are read back as `-1` and `255`. -/
theorem unpack13_negative_c : let k : Codec754 Unit := ⟨fun _ _ _ => 0, fun _ _ _ => ()⟩
    List.Forall₂ FieldOk ['c', 'C'] [.int (-1), (.int 5 : Arg Unit)] ∧
      pack13 k 2 ['c', 'C'] [.int (-1), .int 5] = .ok (2, [255, 5]) ∧
      ∃ st, unpack13 (fun i => [255, 5].getD i 0) 2 k (fun _ => 0) ['c', 'C'] = .ok st ∧
        st.values = [.int (-1), .int 255] ∧ st.values ≠ [.int (-1), .int 5] :=
  ⟨.cons (show _ ∧ _ by decide) (.cons (show _ ∧ _ by decide) .nil), rfl, _, rfl, rfl, by decide⟩

end Prj.Lib13
