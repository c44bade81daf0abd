import Prj.Lib13.PackedWrite

/-! When `io13_write_packed` sends a packet once. -/
namespace Prj.Lib13
open Prj.Base List Option

section Packet
variable {buf out out' : List UInt8} {hard : Bool} {answers : List Sys} {calls : List (List Sys)}
  {h : Io13} {ret : Ret} {t : UInt8} {n w k i : ℕ} {tmp : List UInt8}

/-- Byte `b` of the payload is neither `t` nor one of the bytes before it. -/
def Marks (t : UInt8) (b : ℕ) (buf : List UInt8) : Prop :=
  ∀ v, buf[b]? = some v → v ≠ t ∧ ∀ a < b, buf[a]? ≠ some v

theorem exists_marks (t : UInt8) (n b : ℕ) : ∃ buf, buf.length = n ∧ Marks t b buf := by
  obtain ⟨y, hyt⟩ : ∃ y : UInt8, y ≠ t := by
    by_cases ht : t = 0
    · exact ⟨1, by subst ht; decide⟩
    · exact ⟨0, Ne.symm ht⟩
  have hget : ∀ a, ((List.range n).map fun i => if i < b then t else y)[a]? =
      if a < n then some (if a < b then t else y) else none := by
    intro a
    by_cases ha : a < n <;> simp [ha]
  refine ⟨(List.range n).map fun i => if i < b then t else y, by simp, fun v hv => ?_⟩
  rw [hget] at hv
  split_ifs at hv with hb hbb
  · exact absurd hbb (Nat.lt_irrefl b)
  · cases hv
    refine ⟨hyt, fun a ha hv => hyt ?_⟩
    rw [hget, if_pos (by omega), if_pos ha] at hv
    exact (some.inj hv).symm

theorem getElem?_of_written (h : packetHeader n ++ buf.take w ++ [t] <+: packetHeader n ++ buf)
    (hw : w ≤ buf.length) : buf[w]? = some t := by
  rw [append_assoc, prefix_append_right_inj] at h
  obtain ⟨u, hu⟩ := h
  have hget := congrArg (·[w]?) hu
  have hlen : (buf.take w).length = w := by simp [hw]
  simp only [append_assoc, getElem?_append_right (Nat.le_of_eq hlen), hlen, Nat.sub_self] at hget
  simpa using hget.symm

theorem writePackedLoop_again (hlt : h.wrdone < h.lastwr) (hsoft : (h.wrhard || hard) = false) :
    writePackedLoop hard tmp (.again :: answers) h out = some (.continue_, h, out) := by
  rw [writePackedLoop, if_pos hlt, if_neg (by simp [hsoft])]

theorem writePacket_on (hpos : 0 < h.wrdone) : writePacket buf hard (answers :: calls) h out = afterCall buf hard calls
    (writePackedLoop hard (buf.drop h.wrdone) answers { h with lastwr := buf.length } out) := by
  rw [writePacket_cons, io13WritePacked, if_neg (by omega)]

theorem writePackedLoop_on (hpos : 0 < h.wrdone) (hlt : h.wrdone < buf.length)
    (hi : min (buf.length - h.wrdone) (k + 1) = i) :
    writePackedLoop hard (buf.drop h.wrdone) (.part k :: answers) { h with lastwr := buf.length }
        (packetHeader n ++ buf.take h.wrdone) =
      if h.wrdone + i = buf.length then
        some (.done, { h with lastwr := buf.length, wrdone := buf.length }, packetHeader n ++ buf)
      else writePackedLoop hard (buf.drop h.wrdone) answers { h with lastwr := buf.length, wrdone := h.wrdone + i }
        (packetHeader n ++ buf.take (h.wrdone + i)) := by
  have hlen : ((buf.drop h.wrdone).take i).length = i := by
    rw [length_take, length_drop]
    omega
  have hne : (buf.drop h.wrdone).take i ≠ [] := ne_nil_of_length_pos (by omega)
  have hout : packetHeader n ++ buf.take h.wrdone ++ (buf.drop h.wrdone).take i =
      packetHeader n ++ buf.take (h.wrdone + i) := by
    rw [append_assoc, take_add]
  rw [writePackedLoop_part hlt (by rw [hi]) hne (by rw [if_neg (by simpa using hpos.ne'), hlen]), hout]
  split_ifs with hend
  · simp [hend]
  · rfl

theorem sent_of_pieceByPiece (hsoft : (h.wrhard || hard) = false) (hpos : 0 < h.wrdone)
    (hle : h.wrdone ≤ buf.length) (hok : PieceByPiece buf.length h.wrdone calls) :
    Sent buf (writePacket buf hard calls h (packetHeader buf.length ++ buf.take h.wrdone)) := by
  induction calls generalizing h with
  | nil => exact hok.elim
  | cons answers calls ih =>
    rw [writePacket_on hpos]
    rcases Nat.lt_or_eq_of_le hle with hlt | heq
    · have hok := hok.resolve_left (by omega)
      match answers, hok with
      | .again :: _, hok =>
        rw [writePackedLoop_again (by exact hlt) (by exact hsoft)]
        exact ih (h := { h with lastwr := buf.length }) hsoft hpos hle hok
      | .part k :: answers, hok =>
        rw [writePackedLoop_on hpos hlt rfl]
        split_ifs with hend
        · exact ⟨.done, .inr rfl, rfl⟩
        · obtain ⟨hagain, hnext⟩ := hok.resolve_left hend
          obtain ⟨as, rfl⟩ := head?_eq_some_iff.1 hagain
          rw [writePackedLoop_again (by simp only; omega) (by exact hsoft)]
          exact ih (h := { h with
            lastwr := buf.length, wrdone := h.wrdone + min (buf.length - h.wrdone) (k + 1) })
            hsoft (by simp only; omega) (by simp only; omega) hnext
    · rw [writePackedLoop_idle (by simp [heq]), heq, take_length]
      exact ⟨.ok, .inl rfl, rfl⟩

/-- A call with bytes left to send, the first of which would be wrong: only a call that sends nothing
more does no harm. -/
theorem not_sent_next (hlt : h.wrdone < h.lastwr) (htmp : tmp.head? = some t)
    (hbad : ¬out ++ [t] <+: packetHeader buf.length ++ buf)
    (hcont : (h.wrhard || hard) = false → answers.head? = some .again → ¬Sent buf (writePacket buf hard calls h out)) :
    ¬Sent buf (afterCall buf hard calls (writePackedLoop hard tmp answers h out)) := by
  cases hr : writePackedLoop hard tmp answers h out with
  | none => exact not_sent_afterCall (by simp)
  | some r =>
    obtain ⟨ret, h', out'⟩ := r
    rcases writePackedLoop_next hlt htmp hr with ⟨hsoft, hagain, rfl, rfl, rfl⟩ | herr | hpre
    · exact hcont hsoft hagain
    · refine not_sent_afterCall fun ret1 h1 out1 heq => .inl ?_
      cases heq
      exact herr
    · refine not_sent_afterCall fun ret1 h1 out1 heq => .inr fun hout => ?_
      cases heq
      exact hbad (hpre.trans hout)

theorem not_sent_of_stop (hlt : h.wrdone < h.lastwr) (hstop : ∀ a ∈ answers.head?, a = .fail) :
    ¬Sent buf (afterCall buf hard calls (writePackedLoop hard tmp answers h out)) := by
  refine not_sent_afterCall fun ret h' out' hr => .inl ?_
  cases answers with
  | nil => simp [writePackedLoop_nil hlt] at hr
  | cons a answers =>
    obtain rfl := hstop a rfl
    rw [writePackedLoop, if_pos hlt] at hr
    cases hr
    exact ⟨.ioerr, rfl⟩

/-! The first call, and the calls until something other than the header has been sent. -/

/-- `lastwr` of the first call. -/
def firstLast (n : ℕ) : ℕ := if n + 4 > earlyBufSize then earlyBufSize else n + 4

def early (buf : List UInt8) : List UInt8 :=
  packetHeader buf.length ++ buf.take (firstLast buf.length - 4)

theorem firstLast_eq (n : ℕ) : firstLast n = min (n + 4) earlyBufSize := by
  unfold firstLast
  split_ifs <;> omega

theorem first_lt (n : ℕ) (hzero : h.wrdone = 0) : h.wrdone < firstLast n := by
  rw [hzero, firstLast_eq, earlyBufSize]
  omega

theorem writePacket_first (hzero : h.wrdone = 0) : writePacket buf hard (answers :: calls) h out = afterCall buf hard
    calls (writePackedLoop hard (early buf) answers { h with lastwr := firstLast buf.length } out) := by
  rw [writePacket_cons, io13WritePacked, if_pos hzero]
  rfl

def headerByte (n : ℕ) : UInt8 := (packetHeader n).headD 0

theorem head?_early : (early buf).head? = some (headerByte buf.length) := rfl

theorem length_early : (early buf).length = firstLast buf.length := by
  simp only [early, packetHeader, firstLast_eq, length_append, length_bigEndian, length_take, earlyBufSize]
  omega

theorem take_early (hw : w ≤ firstLast buf.length - 4) :
    (early buf).take (w + 4) = packetHeader buf.length ++ buf.take w := by
  have hlen : (packetHeader buf.length).length = 4 := length_bigEndian 4 _
  rw [early, take_append, take_of_length_le (by omega), hlen, Nat.add_sub_cancel, take_take, Nat.min_eq_left hw]

theorem writePackedLoop_first (hzero : h.wrdone = 0) (hfirst : firstPiece buf.length k = w + 4) :
    writePackedLoop hard (early buf) (.part k :: answers) { h with lastwr := firstLast buf.length } out =
      writePackedLoop hard (early buf) answers { h with lastwr := firstLast buf.length, wrdone := w }
        (out ++ (packetHeader buf.length ++ buf.take w)) := by
  have hle : w + 4 ≤ firstLast buf.length := by
    rw [firstPiece, ← firstLast_eq] at hfirst
    omega
  have hdata : (early buf).take (min (firstLast buf.length - h.wrdone) (k + 1)) =
      packetHeader buf.length ++ buf.take w := by
    rw [hzero, Nat.sub_zero, firstLast_eq, ← firstPiece, hfirst, take_early (by omega)]
  have hlen : (packetHeader buf.length ++ buf.take w).length = w + 4 := by
    rw [← hdata, length_take, length_early, hzero, Nat.sub_zero]
    rw [firstPiece, ← firstLast_eq] at hfirst
    omega
  rw [writePackedLoop_part (i := w) (by simp only; omega) hdata
    (ne_nil_of_length_pos (by omega)) (by rw [if_pos (by exact hzero), hlen])]
  simp only [hzero, Nat.zero_add]
  rw [if_neg (by omega)]

theorem writePackedLoop_short (hzero : h.wrdone = 0) (hfirst : firstPiece buf.length k < 4) :
    writePackedLoop hard (early buf) (.part k :: answers) { h with lastwr := firstLast buf.length } out =
      none := by
  have hlen : ((early buf).take (min (firstLast buf.length - h.wrdone) (k + 1))).length < 4 := by
    rw [length_take, length_early, hzero, Nat.sub_zero, Nat.min_assoc]
    rw [firstPiece, ← firstLast_eq] at hfirst
    omega
  have hne : (early buf).take (min (firstLast buf.length - h.wrdone) (k + 1)) ≠ [] := by
    have hpos := first_lt buf.length hzero
    refine ne_nil_of_length_pos ?_
    rw [length_take, length_early]
    omega
  rw [writePackedLoop, if_pos (first_lt _ hzero)]
  simp only [if_neg hne]
  rw [if_pos ⟨hzero, hlen⟩]

/-- As long as `wrdone` is 0, each call begins with the header. -/
theorem not_sent_zero (hzero : h.wrdone = 0)
    (hbad : ¬out ++ [headerByte buf.length] <+: packetHeader buf.length ++ buf) :
    ¬Sent buf (writePacket buf hard calls h out) := by
  induction calls generalizing h with
  | nil => simp [Sent, writePacket]
  | cons answers calls ih =>
    rw [writePacket_first hzero]
    refine not_sent_next (first_lt _ hzero) head?_early hbad fun _ _ => ?_
    exact ih hzero

theorem firstPiece_le (n k : ℕ) : firstPiece n k ≤ firstLast n ∧ firstPiece n k ≤ n + 4 := by
  rw [firstPiece, firstLast_eq]
  omega

/-- With `w` bytes done and `out` written, a payload that is marked at `b` does not arrive. -/
def Spoiled (n w : ℕ) (hard : Bool) (calls : List (List Sys)) (out : List UInt8 → List UInt8) : Prop :=
  ∃ b, ∀ buf h flag, buf.length = n → Marks (headerByte n) b buf → h.wrdone = w → (h.wrhard || flag) = hard →
    ¬Sent buf (writePacket buf flag calls h (out buf))

theorem spoiled_on (hw : 0 < w) (hle : w ≤ n) (hno : ¬PieceByPiece n w calls) :
    Spoiled n w false calls fun buf => packetHeader n ++ buf.take w := by
  induction calls generalizing w with
  | nil => exact ⟨0, fun buf h _ _ _ _ _ => by simp [Sent, writePacket]⟩
  | cons answers calls ih =>
    have hlt : w < n := Nat.lt_of_le_of_ne hle fun heq => hno (.inl heq)
    rcases answers with _ | ⟨_ | _ | k, answers⟩
    case nil | cons.fail =>
      refine ⟨0, ?_⟩
      rintro buf h flag rfl - rfl -
      rw [writePacket_on hw]
      exact not_sent_of_stop hlt (by simp)
    · obtain ⟨b, hb⟩ := ih hw hle fun hok => hno (.inr hok)
      refine ⟨b, ?_⟩
      rintro buf h flag rfl hmarks rfl hsoft
      rw [writePacket_on hw, writePackedLoop_again (by exact hlt) (by exact hsoft)]
      exact hb buf _ flag rfl hmarks rfl hsoft
    · have hend : w + min (n - w) (k + 1) ≠ n := fun heq => hno (.inr (.inl heq))
      by_cases hagain : answers.head? = some .again
      · obtain ⟨as, rfl⟩ := head?_eq_some_iff.1 hagain
        obtain ⟨b, hb⟩ := ih (w := w + min (n - w) (k + 1)) (by omega) (by omega)
          fun hok => hno (.inr (.inr ⟨rfl, hok⟩))
        refine ⟨b, ?_⟩
        rintro buf h flag rfl hmarks rfl hsoft
        rw [writePacket_on hw, writePackedLoop_on hw hlt rfl, if_neg hend,
          writePackedLoop_again (by simp only; omega) (by exact hsoft)]
        exact hb buf _ flag rfl hmarks rfl hsoft
      · refine ⟨w + min (n - w) (k + 1), ?_⟩
        rintro buf h flag rfl hmarks rfl hsoft
        rw [writePacket_on hw, writePackedLoop_on hw hlt rfl, if_neg hend]
        obtain ⟨t, ht⟩ : ∃ t, buf[h.wrdone]? = some t := ⟨_, getElem?_eq_getElem hlt⟩
        refine not_sent_next (t := t) (by simp only; omega) (by rw [head?_drop, ht]) ?_
          fun _ hhead => absurd hhead hagain
        intro hpre
        exact (hmarks t (getElem?_of_written hpre (by omega))).2 _ (by omega) ht

theorem spoiled_part (hard : Bool) (k : ℕ) (answers : List Sys) (hno : hard = false →
      ¬(4 < firstPiece n k ∧ answers.head? = some .again ∧ PieceByPiece n (firstPiece n k - 4) calls)) :
    Spoiled n 0 hard ((.part k :: answers) :: calls) fun _ => [] := by
  by_cases hshort : firstPiece n k < 4
  · refine ⟨0, ?_⟩
    rintro buf h flag rfl - hzero -
    rw [writePacket_first hzero, writePackedLoop_short hzero hshort]
    exact not_sent_afterCall (by simp)
  obtain ⟨w, hw⟩ : ∃ w, firstPiece n k = w + 4 := ⟨firstPiece n k - 4, by omega⟩
  have hle := firstPiece_le n k
  -- only a call that ends right after this `write` does not repeat the header
  have hstop : ∀ (buf : List UInt8) (h : Io13) (flag : Bool), buf.length = n →
      Marks (headerByte n) w buf → h.wrdone = 0 →
      ((h.wrhard || flag) = false → answers.head? = some .again → w = 0) →
      ¬Sent buf (writePacket buf flag ((.part k :: answers) :: calls) h []) := by
    rintro buf h flag rfl hmarks hzero hcont
    rw [writePacket_first hzero, writePackedLoop_first hzero hw, nil_append]
    have hmark := fun hpre => (hmarks _ (getElem?_of_written (n := buf.length) hpre (by omega))).1 rfl
    refine not_sent_next (by simp only; omega) head?_early hmark fun hsoft hagain => ?_
    obtain rfl := hcont hsoft hagain
    exact not_sent_zero rfl hmark
  by_cases hon : hard = false ∧ answers.head? = some .again ∧ w ≠ 0
  · obtain ⟨rfl, hagain, hpos⟩ := hon
    obtain ⟨as, rfl⟩ := head?_eq_some_iff.1 hagain
    have hno' : ¬PieceByPiece n w calls := fun hok => hno rfl ⟨by omega, rfl, by rwa [hw]⟩
    obtain ⟨b, hb⟩ := spoiled_on (by omega) (by omega) hno'
    refine ⟨b, ?_⟩
    rintro buf h flag rfl hmarks hzero hsoft
    rw [writePacket_first hzero, writePackedLoop_first hzero hw, nil_append,
      writePackedLoop_again (by simp only; omega) (by exact hsoft)]
    exact hb buf _ flag rfl hmarks rfl hsoft
  · refine ⟨w, ?_⟩
    rintro buf h flag hlen hmarks hzero rfl
    refine hstop buf h flag hlen hmarks hzero fun hsoft hagain => ?_
    by_contra hpos
    exact hon ⟨hsoft, hagain, hpos⟩

theorem spoiled_first (hard : Bool) (hno : hard = false → ¬SendsFirst n calls) :
    Spoiled n 0 hard calls fun _ => [] := by
  induction calls with
  | nil => exact ⟨0, fun buf h flag _ _ _ _ => by simp [Sent, writePacket]⟩
  | cons answers calls ih =>
    induction answers with
    | nil =>
      refine ⟨0, fun buf h flag _ _ hzero _ => ?_⟩
      rw [writePacket_first hzero]
      exact not_sent_of_stop (first_lt _ hzero) (by simp)
    | cons a answers ih' =>
      cases a with
      | fail =>
        refine ⟨0, fun buf h flag _ _ hzero _ => ?_⟩
        rw [writePacket_first hzero]
        exact not_sent_of_stop (first_lt _ hzero) (by simp)
      | again =>
        -- only with `IO13_IOF_HARD` the call goes on
        cases hard with
        | true =>
          obtain ⟨b, hb⟩ := ih' (by simp)
          refine ⟨b, fun buf h flag hlen hmarks hzero hhard => ?_⟩
          have hsent := hb buf h flag hlen hmarks hzero hhard
          rw [writePacket_first hzero] at hsent ⊢
          rwa [writePackedLoop, if_pos (first_lt _ hzero), if_pos (by exact hhard)]
        | false =>
          obtain ⟨b, hb⟩ := ih hno
          refine ⟨b, fun buf h flag hlen hmarks hzero hsoft => ?_⟩
          rw [writePacket_first hzero, writePackedLoop_again (first_lt _ hzero) (by exact hsoft)]
          exact hb buf _ flag hlen hmarks hzero hsoft
      | part k => exact spoiled_part hard k answers hno

theorem sent_of_sendsFirst (hzero : h.wrdone = 0) (hsoft : (h.wrhard || hard) = false)
    (hok : SendsFirst buf.length calls) : Sent buf (writePacket buf hard calls h []) := by
  induction calls generalizing h with
  | nil => exact hok.elim
  | cons answers calls ih =>
    rw [writePacket_first hzero]
    match answers, hok with
    | .again :: _, hok =>
      rw [writePackedLoop_again (first_lt _ hzero) (by exact hsoft)]
      exact ih (h := { h with lastwr := firstLast buf.length }) hzero hsoft hok
    | .part k :: answers, ⟨hmore, hagain, hnext⟩ =>
      obtain ⟨w, hw⟩ : ∃ w, firstPiece buf.length k = w + 4 := ⟨firstPiece buf.length k - 4, by omega⟩
      obtain ⟨as, rfl⟩ := head?_eq_some_iff.1 hagain
      have hle := firstPiece_le buf.length k
      rw [writePackedLoop_first hzero hw, nil_append, writePackedLoop_again (by simp only; omega) (by exact hsoft)]
      rw [hw, Nat.add_sub_cancel] at hnext
      exact sent_of_pieceByPiece (h := { h with lastwr := firstLast buf.length, wrdone := w })
        hsoft (by simp only; omega) (by simp only; omega) hnext

/-- `io13_write_packed` sends every payload of `n` bytes once when nothing is `IO13_IOF_HARD`, the
first `write` sends more than the header, and each `write` is the last one of its call. -/
theorem writePacket_iff (n : ℕ) (hzero : h.wrdone = 0) :
    (∀ buf : List UInt8, buf.length = n → Sent buf (writePacket buf hard calls h [])) ↔
      (h.wrhard || hard) = false ∧ SendsFirst n calls := by
  constructor
  · intro hall
    by_contra hno
    obtain ⟨b, hb⟩ := spoiled_first (h.wrhard || hard) fun hsoft hok => hno ⟨hsoft, hok⟩
    obtain ⟨buf, rfl, hmarks⟩ := exists_marks (headerByte n) n b
    exact hb buf h hard rfl hmarks hzero rfl (hall buf rfl)
  · rintro ⟨hsoft, hok⟩ buf rfl
    exact sent_of_sendsFirst hzero hsoft hok

end Packet
end Prj.Lib13
