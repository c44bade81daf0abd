import Prj.Base.Bytes
import Prj.Lib13.Io

/-! Writing a packet, a length of 4 bytes and a payload (`io13_write_packed` in `lib13/io13.c`). The
caller calls again for as long as the result is `E13_CONTINUE`; each call has its own list of answers
of `write`. -/
namespace Prj.Lib13
open Prj.Base List Option

def earlyBufSize : ℕ := 1024

/-- `pack13(tmp, tmpsize, "L", count)` -/
def packetHeader (count : ℕ) : List UInt8 := bigEndian 4 count

/-- The loop of `io13_write_packed`: `tmp` is where every `write` of the call starts, and `out` is
what has been written since the first call. -/
def writePackedLoop (hard : Bool) (tmp : List UInt8) : List Sys → Io13 → List UInt8 → Option (Ret × Io13 × List UInt8)
  | [], h, out => if h.wrdone < h.lastwr then none else some (.ok, h, out)
  | a :: answers, h, out =>
    if h.wrdone < h.lastwr then
      match a with
      | .again =>
        if h.wrhard || hard then writePackedLoop hard tmp answers h out
        else some (.continue_, h, out)
      | .fail => some (.err .ioerr, h, out)
      | .part k =>
        let data := tmp.take (min (h.lastwr - h.wrdone) (k + 1))
        if data = [] then some (.err .toosmall, h, out)
        -- `memcpy` of a negative number of bytes
        else if h.wrdone = 0 ∧ data.length < 4 then none
        else
          let i := if h.wrdone = 0 then data.length - 4 else data.length
          let h := { h with wrdone := h.wrdone + i }
          if h.wrdone = h.lastwr then some (.done, h, out ++ data)
          else writePackedLoop hard tmp answers h (out ++ data)
    else some (.ok, h, out)

/-- `io13_write_packed`. The bytes that it copies back to `buf` are those that are there. -/
def io13WritePacked (buf : List UInt8) (hard : Bool) (answers : List Sys) (h : Io13)
    (out : List UInt8) : Option (Ret × Io13 × List UInt8) :=
  if h.wrdone = 0 then
    let lastwr := if buf.length + 4 > earlyBufSize then earlyBufSize else buf.length + 4
    writePackedLoop hard (packetHeader buf.length ++ buf.take (lastwr - 4)) answers { h with lastwr } out
  else writePackedLoop hard (buf.drop h.wrdone) answers { h with lastwr := buf.length } out

def writePacket (buf : List UInt8) (hard : Bool) : List (List Sys) → Io13 → List UInt8 → Option (Ret × List UInt8)
  | [], _, _ => none
  | answers :: calls, h, out =>
    match io13WritePacked buf hard answers h out with
    | none => none
    | some (.continue_, h, out) => writePacket buf hard calls h out
    | some (ret, _, out) => some (ret, out)

def Sent (buf : List UInt8) (r : Option (Ret × List UInt8)) : Prop :=
  ∃ ret, (ret = .ok ∨ ret = .done) ∧ r = some (ret, packetHeader buf.length ++ buf)

/-- From byte `done` of the payload on, no call moves two pieces. -/
def PieceByPiece (n : ℕ) : ℕ → List (List Sys) → Prop
  | _, [] => False
  | done, answers :: calls =>
    done = n ∨ match answers with
      | .again :: _ => PieceByPiece n done calls
      | .part k :: answers =>
        done + min (n - done) (k + 1) = n ∨
          answers.head? = some .again ∧ PieceByPiece n (done + min (n - done) (k + 1)) calls
      | _ => False

/-- The number of bytes of the first `write` or `read` of a packet. -/
def firstPiece (n k : ℕ) : ℕ := min (min (n + 4) earlyBufSize) (k + 1)

def SendsFirst (n : ℕ) : List (List Sys) → Prop
  | [] => False
  | answers :: calls =>
    match answers with
    | .again :: _ => SendsFirst n calls
    | .part k :: answers =>
      4 < firstPiece n k ∧ answers.head? = some .again ∧ PieceByPiece n (firstPiece n k - 4) calls
    | _ => False

section Loop
variable {tmp out out' : List UInt8} {hard : Bool} {answers : List Sys} {h h' : Io13} {k i : ℕ} {ret : Ret} {t : UInt8}

theorem writePackedLoop_part {data : List UInt8} (hlt : h.wrdone < h.lastwr)
    (hdata : tmp.take (min (h.lastwr - h.wrdone) (k + 1)) = data) (hne : data ≠ [])
    (hi : if h.wrdone = 0 then data.length = i + 4 else data.length = i) :
    writePackedLoop hard tmp (.part k :: answers) h out =
      if h.wrdone + i = h.lastwr then some (.done, { h with wrdone := h.wrdone + i }, out ++ data)
      else writePackedLoop hard tmp answers { h with wrdone := h.wrdone + i } (out ++ data) := by
  rw [writePackedLoop, if_pos hlt]
  simp only [hdata, if_neg hne]
  split_ifs at hi with hzero
  · rw [if_neg (by omega)]
    simp only [hi, if_pos hzero, Nat.add_sub_cancel]
  · rw [if_neg (by omega)]
    simp only [hi, if_neg hzero]

theorem writePackedLoop_cases {a : Sys} (hlt : h.wrdone < h.lastwr)
    (hr : writePackedLoop hard tmp (a :: answers) h out = some (ret, h', out')) :
    a = .again ∧ (h.wrhard || hard) = true ∧ writePackedLoop hard tmp answers h out = some (ret, h', out') ∨
      a = .again ∧ (h.wrhard || hard) = false ∧ ret = .continue_ ∧ h' = h ∧ out' = out ∨
      (∃ e, ret = .err e ∧ h' = h ∧ out' = out) ∨ ∃ k n, tmp.take (min (h.lastwr - h.wrdone) (k + 1)) ≠ [] ∧
        (ret = .done ∧ out' = out ++ tmp.take (min (h.lastwr - h.wrdone) (k + 1)) ∨
          writePackedLoop hard tmp answers { h with wrdone := n }
            (out ++ tmp.take (min (h.lastwr - h.wrdone) (k + 1))) = some (ret, h', out')) := by
  cases a with
  | again =>
    rw [writePackedLoop] at hr
    split_ifs at hr with hhard
    · exact .inl ⟨rfl, hhard, hr⟩
    · cases hr
      exact .inr (.inl ⟨rfl, by simpa using hhard, rfl, rfl, rfl⟩)
  | fail =>
    rw [writePackedLoop, if_pos hlt] at hr
    cases hr
    exact .inr (.inr (.inl ⟨_, rfl, rfl, rfl⟩))
  | part k =>
    rw [writePackedLoop, if_pos hlt] at hr
    by_cases hnil : tmp.take (min (h.lastwr - h.wrdone) (k + 1)) = []
    · simp only [if_pos hnil] at hr
      cases hr
      exact .inr (.inr (.inl ⟨_, rfl, rfl, rfl⟩))
    · simp only [if_neg hnil] at hr
      generalize hdata : tmp.take (min (h.lastwr - h.wrdone) (k + 1)) = data at hr hnil
      by_cases hshort : h.wrdone = 0 ∧ data.length < 4
      · simp only [if_pos hshort, reduceCtorEq] at hr
      · generalize h.wrdone + (if h.wrdone = 0 then data.length - 4 else data.length) = n at hr
        refine .inr (.inr (.inr ⟨k, n, by rwa [hdata], ?_⟩))
        rw [hdata]
        split_ifs at hr
        · cases hr
          exact .inl ⟨rfl, rfl⟩
        · exact .inr hr

theorem writePackedLoop_idle (hge : h.lastwr ≤ h.wrdone) :
    writePackedLoop hard tmp answers h out = some (.ok, h, out) := by
  cases answers <;> exact if_neg (by omega)

theorem writePackedLoop_nil (hlt : h.wrdone < h.lastwr) : writePackedLoop hard tmp [] h out = none := by
  rw [writePackedLoop, if_pos hlt]

theorem prefix_of_writePackedLoop
    (hr : writePackedLoop hard tmp answers h out = some (ret, h', out')) : out <+: out' := by
  by_cases hlt : h.wrdone < h.lastwr
  · induction answers generalizing h out with
    | nil => simp [writePackedLoop_nil hlt] at hr
    | cons a answers ih =>
      rcases writePackedLoop_cases hlt hr with ⟨-, -, hr⟩ | ⟨-, -, -, -, rfl⟩ | ⟨_, -, -, rfl⟩ |
        ⟨k, n, -, ⟨-, rfl⟩ | hr⟩
      · exact ih hr hlt
      · exact prefix_refl _
      · exact prefix_refl _
      · exact prefix_append out _
      · have hrest : out ++ tmp.take (min (h.lastwr - h.wrdone) (k + 1)) <+: out' := by
          by_cases hlt' : n < h.lastwr
          · exact ih hr hlt'
          · rw [writePackedLoop_idle (by simpa using hlt')] at hr
            cases hr
            exact prefix_rfl
        exact (prefix_append out _).trans hrest
  · rw [writePackedLoop_idle (by omega)] at hr
    cases hr
    exact prefix_rfl

theorem writePackedLoop_next (hlt : h.wrdone < h.lastwr) (htmp : tmp.head? = some t)
    (hr : writePackedLoop hard tmp answers h out = some (ret, h', out')) :
    (h.wrhard || hard) = false ∧ answers.head? = some .again ∧ ret = .continue_ ∧ h' = h ∧ out' = out ∨
      (∃ e, ret = .err e) ∨ out ++ [t] <+: out' := by
  induction answers with
  | nil => simp [writePackedLoop_nil hlt] at hr
  | cons a answers ih =>
    -- the bytes of any `write` begin with `t`
    have hfirst : ∀ k, out ++ [t] <+: out ++ tmp.take (min (h.lastwr - h.wrdone) (k + 1)) := by
      intro k
      obtain ⟨u, rfl⟩ : ∃ u, tmp = t :: u := by
        cases tmp with
        | nil => simp at htmp
        | cons x u => exact ⟨u, by simpa using htmp⟩
      obtain ⟨m, hm⟩ : ∃ m, min (h.lastwr - h.wrdone) (k + 1) = m + 1 :=
        ⟨min (h.lastwr - h.wrdone) (k + 1) - 1, by omega⟩
      rw [hm]
      exact ⟨u.take m, by simp⟩
    rcases writePackedLoop_cases hlt hr with ⟨-, hhard, hr⟩ | ⟨rfl, hsoft, rfl, rfl, rfl⟩ |
      ⟨e, rfl, -, -⟩ | ⟨k, n, -, ⟨-, rfl⟩ | hr⟩
    · rcases ih hr with ⟨hsoft, -⟩ | h
      · simp [hsoft] at hhard
      · exact .inr h
    · exact .inl ⟨hsoft, rfl, rfl, rfl, rfl⟩
    · exact .inr (.inl ⟨e, rfl⟩)
    · exact .inr (.inr (hfirst k))
    · exact .inr (.inr ((hfirst k).trans (prefix_of_writePackedLoop hr)))

end Loop

section Packet
variable {buf out out' : List UInt8} {hard : Bool} {answers : List Sys} {calls : List (List Sys)}
  {h : Io13} {ret : Ret}

def afterCall (buf : List UInt8) (hard : Bool) (calls : List (List Sys)) :
    Option (Ret × Io13 × List UInt8) → Option (Ret × List UInt8)
  | none => none
  | some (.continue_, h, out) => writePacket buf hard calls h out
  | some (ret, _, out) => some (ret, out)

theorem writePacket_cons : writePacket buf hard (answers :: calls) h out =
    afterCall buf hard calls (io13WritePacked buf hard answers h out) := by
  rw [writePacket]
  rcases io13WritePacked buf hard answers h out with _ | ⟨ret, h', out'⟩
  · rfl
  · cases ret <;> rfl

theorem prefix_of_writePacket (hr : writePacket buf hard calls h out = some (ret, out')) : out <+: out' := by
  induction calls generalizing h out with
  | nil => simp [writePacket] at hr
  | cons answers calls ih =>
    rw [writePacket_cons] at hr
    cases hcall : io13WritePacked buf hard answers h out with
    | none => simp [hcall, afterCall] at hr
    | some r =>
      obtain ⟨ret1, h1, out1⟩ := r
      have hpre : out <+: out1 := by
        unfold io13WritePacked at hcall
        split_ifs at hcall
        all_goals exact prefix_of_writePackedLoop hcall
      rw [hcall] at hr
      cases ret1 with
      | continue_ => exact hpre.trans (ih hr)
      | ok | done | err =>
        cases hr
        exact hpre

theorem not_sent_afterCall {r : Option (Ret × Io13 × List UInt8)} (h : ∀ ret h' out', r = some (ret, h', out') →
      (∃ e, ret = .err e) ∨ ¬out' <+: packetHeader buf.length ++ buf) : ¬Sent buf (afterCall buf hard calls r) := by
  rintro ⟨ret, hret, hr⟩
  rcases r with _ | ⟨ret1, h1, out1⟩
  · simp [afterCall] at hr
  · rcases h ret1 h1 out1 rfl with ⟨e, rfl⟩ | hpre
    · cases hr
      simp at hret
    · cases ret1 with
      | continue_ => exact hpre (prefix_of_writePacket hr)
      | ok | done =>
        cases hr
        exact hpre prefix_rfl
      | err e =>
        cases hr
        simp at hret

end Packet
end Prj.Lib13
