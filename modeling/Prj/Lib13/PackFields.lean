import Prj.Lib13.Pack

/-! One directive of `pack13` and `unpack13` with its argument: the bytes it writes, and what reading
at some place of the memory makes of them. -/
namespace Prj.Lib13
open Prj.Base List

variable {F : Type} {signed : Bool} {z M : ℤ} {w : ℕ} {ch : Char}

theorem emit_eq_ok {bufsize n : ℕ} {bytes : List UInt8} {args : List (Arg F)} {st st' : PState F}
    (h : emit bufsize n bytes args st = .ok st') :
    st.size + n ≤ bufsize ∧ st' = ⟨args, st.size + n, st.out ++ bytes⟩ := by
  unfold emit at h
  split_ifs at h with hroom
  exact ⟨Nat.not_lt.1 hroom, (Except.ok.inj h).symm⟩

/-- An argument fits its directive: integers inside the width, lengths below 2^16. -/
def FieldOk (ch : Char) (a : Arg F) : Prop :=
  match dirOf ch, a with
  | .c, .int z => -256 ≤ 2 * z ∧ 2 * z < 256
  | .int w signed, .int z =>
    if signed then -256 ^ w ≤ 2 * z ∧ 2 * z < 256 ^ w else 0 ≤ z ∧ z < 256 ^ w
  | .s, .str s => s.bytes.length < 2 ^ 16
  | .b, .buf bs => bs.length < 2 ^ 16
  | _, _ => False

/-- The bytes `pack13` writes for one directive. -/
def fieldBytes (f : Char × Arg F) : List UInt8 :=
  match dirOf f.1, f.2 with
  | .c, .int z => bigEndian 1 z
  | .int w _, .int z => bigEndian w z
  | .s, .str s => bigEndian 2 s.bytes.length ++ s.bytes
  | .b, .buf bs => bigEndian 2 bs.length ++ bs
  | _, _ => []

/-- What `unpack13` should store for an argument. -/
def Arg.stores : Arg F → List (Store F)
  | .int z => [.int z]
  | .flt x => [.flt x]
  | .str s => [.str (s.bytes ++ [0])]
  | .buf bs => [.len bs.length, .bytes bs]

def UState.values (st : UState F) : List (Store F) := st.out.map Prod.snd

theorem dirOf_eq_c (h : dirOf ch = .c) : ch = 'c' := by
  unfold dirOf at h
  split at h <;> first | rfl | cases h | skip
  split_ifs at h

theorem dirOf_int_pos (h : dirOf ch = .int w signed) : 1 ≤ w := by
  unfold dirOf at h
  split at h <;> try cases h
  all_goals first | decide | (split_ifs at h)

theorem emod_of_small (hl : -M ≤ z) (hu : z < M) : z % M = if 0 ≤ z then z else z + M := by
  split_ifs with h0
  · exact Int.emod_eq_of_lt h0 hu
  · rw [← Int.add_emod_right, Int.emod_eq_of_lt (by omega) (by omega)]

/-- The change of sign in `unpacki` undoes the reduction modulo `M`. -/
theorem resign_eq_iff {M n : ℕ} (heven : M % 2 = 0) (hn : n < M) (hl : -(M : ℤ) ≤ 2 * z)
    (hu : 2 * z < M) : (if n ≤ M / 2 - 1 then (n : ℤ) else -1 - ((M : ℤ) - 1 - n)) = z ↔ (n : ℤ) = z % M := by
  rw [emod_of_small (by omega) (by omega)]
  split_ifs <;> omega

theorem unpackInt_eq_iff (hw : 1 ≤ w) (hz : if signed then -256 ^ w ≤ 2 * z ∧ 2 * z < 256 ^ w else 0 ≤ z ∧ z < 256 ^ w)
    {bs : List UInt8} (hl : bs.length = w) :
    (if signed then unpacki w bs else (unpacku bs : ℤ)) = z ↔ bs = bigEndian w z := by
  have hlt : unpacku bs < 256 ^ w := by rw [← hl]; exact ofBigEndian_lt bs
  have hcast : ((256 ^ w : ℕ) : ℤ) = 256 ^ w := by push_cast; rfl
  have hbytes : bs = bigEndian w z ↔ (unpacku bs : ℤ) = z % 256 ^ w := by
    rw [← ofBigEndian_bigEndian]
    constructor
    · rintro rfl
      rfl
    · intro h
      exact eq_of_ofBigEndian_eq (by simp [hl]) (by exact_mod_cast h)
  rw [hbytes]
  cases signed
  · simp only [Bool.false_eq_true, if_false] at hz ⊢
    rw [Int.emod_eq_of_lt hz.1 hz.2]
  · have heven : (256 : ℕ) ^ w % 2 = 0 := by
      obtain ⟨v, rfl⟩ := Nat.exists_eq_add_of_le hw
      rw [pow_add]
      omega
    simpa [unpacki, hcast] using resign_eq_iff heven hlt hz.1 hz.2

def lag (f : Char × Arg F) : ℕ :=
  match dirOf f.1, f.2 with
  | .c, .int z => if z < 0 then 1 else 0
  | _, _ => 0

def Arg.isBuf : Arg F → Bool
  | .buf _ => true
  | _ => false

/-- What one directive does with a field: it stores the value exactly if it finds the field's bytes,
it always stores as many values, and after an exact store the cursors stand behind the field. -/
structure FieldSpec (mem : ℕ → UInt8) (f : Char × Arg F) (st : UState F)
    (r : Except (UState F) (UState F)) : Prop where
  exact_iff : (∃ s, r = .ok s ∧ s.values = st.values ++ f.2.stores) ↔
    fetch mem st.cur (fieldBytes f).length = fieldBytes f
  appends : ∀ s, r = .ok s → ∃ vs, s.values = st.values ++ vs ∧ vs.length = f.2.stores.length
  moves : ∀ s, r = .ok s → s.values = st.values ++ f.2.stores →
    s.cur + lag f = st.cur + (fieldBytes f).length ∧ s.size = st.size + (fieldBytes f).length ∧
      s.nbuf = st.nbuf + f.2.isBuf.toNat

section
variable {mem : ℕ → UInt8} {bufsize p len : ℕ} {k : Codec754 F} {caps : ℕ → ℕ} {st : UState F} {f : Char × Arg F}
  {s : UState F}

@[simp] theorem values_store (v : Store F) : (st.store v).values = st.values ++ [v] := by
  simp [UState.values, UState.store]

theorem FieldSpec.of_ok (vs : List (Store F)) (hval : s.values = st.values ++ vs) (hlen : vs.length = f.2.stores.length)
    (hv : vs = f.2.stores ↔ fetch mem st.cur (fieldBytes f).length = fieldBytes f)
    (hmove : vs = f.2.stores → s.cur + lag f = st.cur + (fieldBytes f).length ∧
      s.size = st.size + (fieldBytes f).length)
    (hbuf : s.nbuf = st.nbuf + f.2.isBuf.toNat) : FieldSpec mem f st (.ok s) where
  exact_iff := by
    rw [← hv]
    simp [hval]
  appends := by
    rintro _ ⟨⟩
    exact ⟨vs, hval, hlen⟩
  moves := by
    rintro _ ⟨⟩ h
    obtain ⟨hcur, hsize⟩ := hmove (append_cancel_left (hval ▸ h))
    exact ⟨hcur, hsize, hbuf⟩

theorem FieldSpec.of_error
    (h : fetch mem st.cur (fieldBytes f).length ≠ fieldBytes f) : FieldSpec mem f st (.error s) :=
  ⟨by simpa using h, by simp, by simp⟩

variable {ch : Char}

theorem unpackC_spec (hd : dirOf ch = .c) (hz : FieldOk ch (.int z : Arg F)) (hroom : st.size + 1 ≤ bufsize) :
    FieldSpec mem (ch, .int z) st (unpackC mem bufsize st) := by
  have hz' : -256 ≤ 2 * z ∧ 2 * z < 256 := by simpa [FieldOk, hd] using hz
  have hB : fieldBytes (ch, (.int z : Arg F)) = bigEndian 1 z := by simp [fieldBytes, hd]
  have hlag : lag (ch, (.int z : Arg F)) = if z < 0 then 1 else 0 := by simp [lag, hd]
  have hu : unpacki 1 [mem st.cur] =
      if mem st.cur ≤ 0x7f then ((mem st.cur).toNat : ℤ) else -1 - (0xff - (mem st.cur).toNat) := by
    simp [unpacki, unpacku, ofBigEndian, UInt8.le_iff_toNat_le]
  have hval : unpacki 1 [mem st.cur] = z ↔ fetch mem st.cur 1 = bigEndian 1 z :=
    unpackInt_eq_iff le_rfl (show if true then _ else _ from hz') rfl
  have hlt : (mem st.cur).toNat < 256 := (mem st.cur).toNat_lt
  unfold unpackC
  simp only
  rw [if_neg (by omega)]
  split_ifs with h
  · rw [hu, if_pos h] at hval
    refine FieldSpec.of_ok _ (values_store _) rfl (by simpa [hB, Arg.stores] using hval) ?_ rfl
    intro hv
    have : ((mem st.cur).toNat : ℤ) = z := by simpa [Arg.stores] using hv
    rw [hlag, if_neg (by omega), hB]
    simp [UState.read, UState.store]
  · rw [hu, if_neg h] at hval
    refine FieldSpec.of_ok _ (values_store _) rfl (by simpa [hB, Arg.stores] using hval) ?_ rfl
    intro hv
    have : -1 - (0xff - ((mem st.cur).toNat : ℤ)) = z := by simpa [Arg.stores] using hv
    rw [hlag, if_pos (by omega), hB]
    simp [UState.read, UState.store]

theorem unpackFixed_spec (hd : dirOf ch = .int w signed) (hz : FieldOk ch (.int z : Arg F))
    (hroom : st.size + w ≤ bufsize) : FieldSpec mem (ch, .int z) st (unpackFixed mem bufsize w
      (fun bs => .int (if signed then unpacki w bs else unpacku bs)) st) := by
  have hB : fieldBytes (ch, (.int z : Arg F)) = bigEndian w z := by simp [fieldBytes, hd]
  have hlag : lag (ch, (.int z : Arg F)) = 0 := by simp [lag, hd]
  have hval := unpackInt_eq_iff (dirOf_int_pos hd) (by simpa [FieldOk, hd] using hz) (length_fetch mem st.cur w)
  unfold unpackFixed
  simp only
  rw [if_neg (by omega)]
  refine FieldSpec.of_ok _ (values_store _) rfl (by simpa [hB, Arg.stores] using hval) ?_ rfl
  simp [hlag, hB, UState.read, UState.store]

variable {bs : List UInt8}

theorem fetch_counted_iff (hlt : bs.length < 2 ^ 16) :
    fetch mem p (bigEndian 2 bs.length ++ bs).length = bigEndian 2 bs.length ++ bs ↔
      unpacku (fetch mem p 2) = bs.length ∧ fetch mem (p + 2) bs.length = bs := by
  have hlen : (if false then unpacki 2 (fetch mem p 2) else (unpacku (fetch mem p 2) : ℤ)) = (bs.length : ℤ) ↔ _ :=
    unpackInt_eq_iff (by decide) (by simp; omega) (length_fetch mem p 2)
  simp only [Bool.false_eq_true, if_false, Nat.cast_inj] at hlen
  rw [hlen, length_append, length_bigEndian, fetch_add]
  constructor
  · intro h
    exact append_inj h (by simp)
  · rintro ⟨h1, h2⟩
    rw [h1, h2]

theorem fetch_eq_iff : fetch mem p len = bs ↔ len = bs.length ∧ fetch mem p bs.length = bs := by
  constructor
  · rintro rfl
    simp
  · rintro ⟨rfl, h⟩
    exact h

theorem unpackS_spec {s : CStr} (hd : dirOf ch = .s) (hz : FieldOk ch (.str s : Arg F))
    (hne : s.bytes ≠ []) (hmax : st.maxstrlen = 0)
    (hroom : st.size + (fieldBytes (ch, (.str s : Arg F))).length ≤ bufsize) :
    FieldSpec mem (ch, .str s) st (unpackS mem bufsize st) := by
  have hB : fieldBytes (ch, (.str s : Arg F)) = bigEndian 2 s.bytes.length ++ s.bytes := by
    simp [fieldBytes, hd]
  have hlag : lag (ch, (.str s : Arg F)) = 0 := by simp [lag, hd]
  have hmem : fetch mem st.cur (fieldBytes (ch, (.str s : Arg F))).length = _ ↔ _ :=
    hB ▸ fetch_counted_iff (by simpa [FieldOk, hd] using hz)
  have hpos := length_pos_iff.2 hne
  have hlen : (fieldBytes (ch, (.str s : Arg F))).length = 2 + s.bytes.length := by simp [hB]
  unfold unpackS
  generalize hl : unpacku (fetch mem st.cur 2) = len at *
  have hcnt : strCount st.maxstrlen len = len := by simp [strCount, hmax]
  simp only
  split_ifs with h1 h2
  · exact FieldSpec.of_error fun h => by have := hmem.1 h; omega
  · exact FieldSpec.of_error fun h => by have := hmem.1 h; omega
  · refine FieldSpec.of_ok _ (values_store _) rfl ?_ ?_ rfl
    · rw [hmem, ← fetch_eq_iff]
      simp [Arg.stores, UState.read, hcnt]
    · intro hv
      have hv' : fetch mem (st.cur + 2) len = s.bytes := by
        simpa [Arg.stores, UState.read, hcnt] using hv
      have hle : len = s.bytes.length := (fetch_eq_iff.1 hv').1
      simp only [UState.read, UState.store, hlen, hlag]
      omega

theorem unpackB_spec (hd : dirOf ch = .b)
    (hz : FieldOk ch (.buf bs : Arg F)) (hne : bs ≠ []) (hcap : bs.length ≤ caps st.nbuf)
    (hroom : st.size + (fieldBytes (ch, (.buf bs : Arg F))).length ≤ bufsize) :
    FieldSpec mem (ch, .buf bs) st (unpackB mem bufsize caps st) := by
  have hB : fieldBytes (ch, (.buf bs : Arg F)) = bigEndian 2 bs.length ++ bs := by
    simp [fieldBytes, hd]
  have hlag : lag (ch, (.buf bs : Arg F)) = 0 := by simp [lag, hd]
  have hmem : fetch mem st.cur (fieldBytes (ch, (.buf bs : Arg F))).length = _ ↔ _ :=
    hB ▸ fetch_counted_iff (by simpa [FieldOk, hd] using hz)
  have hpos := length_pos_iff.2 hne
  have hlen : (fieldBytes (ch, (.buf bs : Arg F))).length = 2 + bs.length := by simp [hB]
  unfold unpackB
  generalize hl : unpacku (fetch mem st.cur 2) = len at *
  simp only
  split_ifs with h1 h2
  · exact FieldSpec.of_error fun h => by have := hmem.1 h; omega
  · refine FieldSpec.of_error fun h => ?_
    have := hmem.1 h
    simp only [UState.read, UState.store] at h2
    omega
  · refine FieldSpec.of_ok [.len len, .bytes (fetch mem (st.cur + 2) len)] ?_ rfl ?_ ?_ rfl
    · simp [UState.values, UState.read, UState.store]
    · rw [hmem]
      simp [Arg.stores]
      intro h
      rw [h]
    · intro hv
      have hv' : len = bs.length ∧ fetch mem (st.cur + 2) len = bs := by
        simpa [Arg.stores] using hv
      simp only [UState.read, UState.store, hlen, hlag]
      omega

/-- `pack13` refuses empty strings and buffers. -/
def Arg.Nonempty : Arg F → Prop
  | .str s => s.bytes ≠ []
  | .buf bs => bs ≠ []
  | _ => True

theorem unpackStep_spec {a : Arg F} (hz : FieldOk ch a) (hne : a.Nonempty)
    (hmax : st.maxstrlen = 0) (hcap : ∀ bs, a = .buf bs → bs.length ≤ caps st.nbuf)
    (hroom : st.size + (fieldBytes (ch, a)).length ≤ bufsize) :
    FieldSpec mem (ch, a) st (unpackStep mem bufsize k caps ch st) := by
  have hz' := hz
  unfold FieldOk at hz'
  unfold unpackStep
  split at hz'
  · rename_i z hd
    rw [hd]
    exact unpackC_spec hd hz (by simpa [fieldBytes, hd] using hroom)
  · rename_i w signed z hd
    rw [hd]
    exact unpackFixed_spec hd hz (by simpa [fieldBytes, hd] using hroom)
  · rename_i s hd
    rw [hd]
    exact unpackS_spec hd hz hne hmax hroom
  · rename_i bs hd
    rw [hd]
    exact unpackB_spec hd hz hne (hcap bs rfl) hroom
  · exact hz'.elim

end
end Prj.Lib13
